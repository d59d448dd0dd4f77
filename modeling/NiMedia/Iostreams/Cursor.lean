/-
  A view on a container is a cursor over the slice that it shows
  (`device/subview.h` over `device/container.h`).

  `Cursor` is what a source of finitely many bytes is for: `read` delivers the
  next bytes, as many as there are, and `seek` goes to the position asked for,
  or to the nearest one that exists.

  * `subview_refines`: all calls on a view are answered as by the cursor over
    the bytes of the view.
-/
import NiMedia.Iostreams.View

namespace NiMedia

open Bytes Words Machine

/-! ## Cursors -/

/-- A position in a byte string. -/
structure Cursor where
  bytes : List UInt8
  pos : ℕ
  pos_le : pos ≤ bytes.length

namespace Cursor

theorem zero_le (D : List UInt8) : 0 ≤ D.length := Nat.zero_le D.length

/-- The next bytes, at most `n`. -/
def next (n : ℕ) (c : Cursor) : List UInt8 := slice c.bytes c.pos n

theorem pos_add_le (n : ℕ) (c : Cursor) : c.pos + (c.next n).length ≤ c.bytes.length := by
  have hle := c.pos_le
  have hlen : (c.next n).length = _ := length_slice_min c.bytes c.pos n
  omega

def read (n : ℕ) (c : Cursor) : Option (List UInt8) × Cursor :=
  (deliver (c.next n), ⟨c.bytes, c.pos + (c.next n).length, c.pos_add_le n⟩)

/-- The position asked for, or the nearest one. -/
def sought (off : ℤ) (way : SeekDir) (c : Cursor) : ℕ :=
  min (seekBase c.pos 0 c.bytes.length way + off).toNat c.bytes.length

def seek (off : ℤ) (way : SeekDir) (c : Cursor) : ℤ × Cursor :=
  (c.sought off way, ⟨c.bytes, c.sought off way, Nat.min_le_right _ _⟩)

instance : Source Cursor where
  seek := seek
  read := read

end Cursor

/-! ## Views on containers -/

/-- The exact sum is a position of 64 bits. -/
def fits (beg : ℕ) (c : Cursor) : SourceCall → Prop
  | .read _ => True
  | .seek off way =>
    -2 ^ 63 ≤ seekBase (beg + c.pos) beg (beg + c.bytes.length) way + off ∧
      seekBase (beg + c.pos) beg (beg + c.bytes.length) way + off < 2 ^ 63

/-- The view shows the bytes of the cursor, and stands where it does. -/
structure Shows (beg : ℕ) (c : Cursor) (s : Subview Container) : Prop where
  view : ∃ B, ViewAt B beg (beg + c.bytes.length) (beg + c.pos) s ∧
    beg + c.bytes.length ≤ B.length ∧ slice B beg c.bytes.length = c.bytes

section
variable {beg : ℕ} {c : Cursor} {s : Subview Container}

theorem Shows.seek (h : Shows beg c s) {off : ℤ} {way : SeekDir}
    (hfits : fits beg c (.seek off way)) :
    (s.seek off way).1 = (c.seek off way).1 ∧ Shows beg (c.seek off way).2 (s.seek off way).2 := by
  obtain ⟨B, hview, hin, hbytes⟩ := h.view
  have hsought : c.sought off way ≤ c.bytes.length := Nat.min_le_right _ _
  -- the position is the one of the cursor, which the container has
  have habs : absolutePosition ((beg + c.pos : ℕ) : ℤ) beg ((beg + c.bytes.length : ℕ) : ℤ) off
      way = ((beg + c.sought off way : ℕ) : ℤ) := by
    have hle := c.pos_le
    push_cast
    rw [absolutePosition_eq hfits.1 hfits.2, clamp, Cursor.sought]
    cases way <;> simp only [seekBase] <;> split_ifs <;> omega
  have hland : ExactSource.land Container B (beg + c.sought off way) = beg + c.sought off way :=
    land_of_le (by omega)
  obtain ⟨s', hseek, hview'⟩ := hview.seek off way habs (by rw [hland]; omega)
  rw [hland] at hseek hview'
  rw [hseek]
  exact ⟨by simp only [Cursor.seek]; omega, ⟨B, hview', hin, hbytes⟩⟩

theorem Shows.read (h : Shows beg c s) (n : ℕ) :
    (s.read n).1 = (c.read n).1 ∧ Shows beg (c.read n).2 (s.read n).2 := by
  obtain ⟨B, hview, hin, hbytes⟩ := h.view
  have hle := c.pos_le
  obtain ⟨s', hread, hview'⟩ := hview.read n
  -- what is left of the view is there in the container
  have hslice : slice B (beg + c.pos) (min n (beg + c.bytes.length - (beg + c.pos))) =
      c.next n := by
    rw [Nat.add_sub_add_left, Cursor.next, ← slice_min_left c.bytes,
      ← slice_slice (B := B) (n := c.bytes.length) (by omega), hbytes]
  rw [hslice] at hread hview'
  rw [hread]
  rw [Nat.add_assoc] at hview'
  exact ⟨rfl, ⟨B, hview', hin, hbytes⟩⟩

end

/-- **Refinement.**  A view on a part of a container, with the cursor inside of
    it, answers all calls as a cursor over this part does.  The bounds of a view
    are `std::streamoff`. -/
theorem subview_refines (B : List UInt8) (beg end_ p : ℕ) (hbeg : beg ≤ p) (hp : p ≤ end_)
    (hend : end_ ≤ B.length) (hmax : (end_ : ℤ) ≤ maxPos) (calls : List SourceCall)
    (hfits : Along sourceStep (fits beg) (Cursor.mk (slice B beg (end_ - beg)) (p - beg)
      (by rw [length_slice (by omega)]; omega)) calls) :
    run sourceStep (Subview.setView beg end_ { device := Container.mk B p (by omega) }) calls =
      run sourceStep (Cursor.mk (slice B beg (end_ - beg)) (p - beg)
        (by rw [length_slice (by omega)]; omega)) calls := by
  have hlen : (slice B beg (end_ - beg)).length = end_ - beg := length_slice (by omega)
  refine (run_eq_of_sim (Shows beg) ?_ ?_ hfits).symm
  · intro c s call h hcall
    cases call with
    | read n =>
      obtain ⟨h1, h2⟩ := h.read n
      exact ⟨congrArg SourceAnswer.bytes h1.symm, h2⟩
    | seek off way =>
      obtain ⟨h1, h2⟩ := h.seek hcall
      exact ⟨congrArg SourceAnswer.pos h1.symm, h2⟩
  · have hsum : beg + (slice B beg (end_ - beg)).length = end_ := by omega
    refine ⟨B, ?_, hsum.trans_le hend, congrArg (slice B beg) hlen⟩
    change ViewAt B beg (beg + (slice B beg (end_ - beg)).length) (beg + (p - beg)) _
    rw [hsum, Nat.add_sub_cancel' hbeg]
    exact ⟨rfl, rfl, rfl, rfl, hbeg, hp, hmax⟩

/-- Three bytes of five, from the second of them on. -/
theorem subview_refines_abc :
    run sourceStep (Subview.setView 1 4 { device := Container.mk [1, 2, 3, 4, 5] 2 (by decide) })
        [.read 5, .read 1, .seek (-9) .end_, .read 2] =
      run sourceStep (Cursor.mk [2, 3, 4] 1 (by decide))
        [.read 5, .read 1, .seek (-9) .end_, .read 2] :=
  subview_refines [1, 2, 3, 4, 5] 1 4 2 (by decide) (by decide) (by decide) (by decide) _
    ⟨trivial, trivial, ⟨by decide, by decide⟩, trivial, trivial⟩

end NiMedia
