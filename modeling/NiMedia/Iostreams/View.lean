/-
  Views on devices of which the position is known (`device/subview.h`).

  A seek behind the end is cut to the end by a container, and not by a file;
  `ExactSource` leaves to the device where a seek lands (`land`).  `ViewAt` says
  what a view shows and where its device stands, with the rules for the calls
  on the view.
-/
import NiMedia.Lib.Machine
import NiMedia.Iostreams.Subview

namespace NiMedia

open Bytes Words

/-! ## Calls on sources -/

inductive SourceCall where
  | read (n : ℕ)
  | seek (off : ℤ) (way : SeekDir)

/-- The bytes of a `read`, none standing for -1, or the position of a `seek`. -/
inductive SourceAnswer where
  | bytes (bs : Option (List UInt8))
  | pos (p : ℤ)
  deriving DecidableEq

def sourceStep {σ : Type} [Source σ] (s : σ) : SourceCall → SourceAnswer × σ
  | .read n => (.bytes (Source.read n s).1, (Source.read n s).2)
  | .seek off way => (.pos (Device.seek off way s).1, (Device.seek off way s).2)

/-! ## Devices -/

/-- A source that delivers its bytes from its position. -/
class ExactSource (δ : Type) extends ByteSource δ where
  bytes : δ → List UInt8
  pos : δ → ℕ
  /-- Where a seek lands. -/
  land : List UInt8 → ℕ → ℕ
  land_eq : (∀ B q, land B q = q) ∨ ∀ B q, land B q = min q B.length
  land_pos : ∀ d, land (bytes d) (pos d) = pos d
  at_pos : ∀ {B : Content} {p : ℕ} {d : δ}, At B p d →
    bytes d = B.bytes ∧ pos d ≤ maxPos ∧ (p ≤ B.bytes.length → pos d = p)
  read_eq : ∀ (n : ℕ) (d : δ), (read n d).1 = deliver (slice (bytes d) (pos d) n) ∧
    bytes (read n d).2 = bytes d ∧
    pos (read n d).2 = pos d + (slice (bytes d) (pos d) n).length
  tell_eq : ∀ d, pos d ≤ maxPos → (seek 0 .cur d).1 = pos d ∧
    bytes (seek 0 .cur d).2 = bytes d ∧ pos (seek 0 .cur d).2 = pos d
  seek_eq : ∀ (q : ℕ) (d : δ), q ≤ maxPos → (seek q .beg d).1 = land (bytes d) q ∧
    bytes (seek q .beg d).2 = bytes d ∧ pos (seek q .beg d).2 = land (bytes d) q

instance : ExactSource File where
  bytes := File.bytes
  pos := File.pos
  land _ q := q
  land_eq := .inl fun _ _ => rfl
  land_pos _ := rfl
  at_pos := by
    rintro B p f ⟨hB, hin, hout⟩
    refine ⟨hB, ?_, hin⟩
    rcases Nat.lt_or_ge B.bytes.length p with hp | hp
    · exact (hout hp).2
    · rw [hin hp]
      exact (Int.ofNat_le.2 hp).trans B.length_le
  read_eq _ _ := ⟨rfl, rfl, rfl⟩
  tell_eq f _ := by
    have h : f.seek 0 .cur = _ := File.seek_cur 0 f
    have h1 : Device.seek 0 .cur f = (((f.pos + 0 : ℕ) : ℤ), { f with pos := f.pos + 0 }) := h
    rw [h1]
    exact ⟨rfl, rfl, rfl⟩
  seek_eq q f _ := by
    have h : Device.seek (q : ℤ) .beg f = _ := File.seek_beg q f
    rw [h]
    exact ⟨rfl, rfl, rfl⟩

instance : ExactSource Container where
  bytes := Container.container
  pos := Container.pos
  land B q := min q B.length
  land_eq := .inr fun _ _ => rfl
  land_pos c := Nat.min_eq_left c.pos_le
  at_pos := by
    rintro B p c ⟨hB, hpos⟩
    refine ⟨hB, ?_, fun hp => hpos.trans (Nat.min_eq_left hp)⟩
    rw [hpos]
    exact (Int.ofNat_le.2 (Nat.min_le_right _ _)).trans B.length_le
  read_eq := Container.read_eq
  tell_eq c h := by
    have hlt : c.pos + 0 < 2 ^ 63 := by
      unfold maxPos at h
      omega
    obtain ⟨h1, h2, h3⟩ := c.seek_cur 0 hlt
    rw [Nat.add_zero, Nat.min_eq_left c.pos_le] at h1 h3
    exact ⟨h1, h2, h3⟩
  seek_eq q c hq := c.seek_beg q hq

theorem land_of_le {δ : Type} [ExactSource δ] {B : List UInt8} {q : ℕ} (h : q ≤ B.length) :
    ExactSource.land δ B q = q := by
  rcases ExactSource.land_eq (δ := δ) with hland | hland
  · exact hland B q
  · rw [hland, Nat.min_eq_left h]

/-! ## Views -/

/-- The position that an offset is counted from. -/
def seekBase (pos beg end_ : ℤ) : SeekDir → ℤ
  | .beg => beg
  | .cur => pos
  | .end_ => end_

theorem absolutePosition_eq_wrap {pos beg end_ off : ℤ} {way : SeekDir} :
    absolutePosition pos beg end_ off way =
      clamp (wrap 64 (seekBase pos beg end_ way + off)) beg end_ := by
  cases way <;> rfl

/-- Without overflow, a seek is clamped only. -/
theorem absolutePosition_eq {pos beg end_ off : ℤ} {way : SeekDir}
    (h1 : -2 ^ 63 ≤ seekBase pos beg end_ way + off)
    (h2 : seekBase pos beg end_ way + off < 2 ^ 63) :
    absolutePosition pos beg end_ off way = clamp (seekBase pos beg end_ way + off) beg end_ := by
  have hwrap : wrap 64 (seekBase pos beg end_ way + off) = seekBase pos beg end_ way + off :=
    wrap_of_range (by norm_num; omega) (by norm_num; omega)
  rw [absolutePosition_eq_wrap, hwrap]

theorem le_absolutePosition {pos beg end_ off : ℤ} {way : SeekDir} (h : beg ≤ end_) :
    beg ≤ absolutePosition pos beg end_ off way := by
  simp only [absolutePosition, clamp]
  split_ifs <;> omega

/-- A view from `beg` to `end_` on a device with the bytes `B` that stands at
    `p`, inside of the view. -/
structure ViewAt {δ : Type} [ExactSource δ] (B : List UInt8) (beg end_ p : ℕ) (s : Subview δ) :
    Prop where
  beg_eq : s.beg = beg
  end_eq : s.end_ = end_
  bytes_eq : ExactSource.bytes s.device = B
  pos_eq : ExactSource.pos s.device = p
  le_pos : beg ≤ p
  pos_le : p ≤ end_
  max : (end_ : ℤ) ≤ maxPos

section
variable {δ : Type} [ExactSource δ] {B : List UInt8} {beg end_ p : ℕ} {s : Subview δ}

/-- The device seeks to the absolute position, or as far as it can. -/
theorem ViewAt.seek (h : ViewAt B beg end_ p s) (off : ℤ) (way : SeekDir) {q : ℕ}
    (hq : absolutePosition p beg end_ off way = q)
    (hland : beg ≤ ExactSource.land δ B q ∧ ExactSource.land δ B q ≤ end_) :
    ∃ s', s.seek off way = ((ExactSource.land δ B q : ℤ) - beg, s') ∧
      ViewAt B beg end_ (ExactSource.land δ B q) s' := by
  obtain ⟨device, beg', end_'⟩ := s
  obtain ⟨hbeg, hend, hB, hpos, hle, hge, hmax⟩ := h
  dsimp only at hbeg hend hB hpos
  subst hbeg hend
  have hp : (ExactSource.pos device : ℤ) ≤ maxPos := by
    rw [hpos]
    omega
  have hq' : (q : ℤ) ≤ maxPos := by
    rw [← hq]
    exact (absolutePosition_le (by omega)).trans hmax
  obtain ⟨t1, t2, -⟩ := ExactSource.tell_eq device hp
  obtain ⟨u1, u2, u3⟩ := ExactSource.seek_eq q (Device.seek 0 .cur device).2 hq'
  rw [hpos] at t1
  rw [t2, hB] at u1 u2 u3
  refine ⟨⟨(Device.seek q .beg (Device.seek 0 .cur device).2).2, beg, end_⟩, ?_,
    ⟨rfl, rfl, u2, u3, hland.1, hland.2, hmax⟩⟩
  simp only [Subview.seek, t1, hq, u1]

theorem ViewAt.land_eq (h : ViewAt B beg end_ p s) : ExactSource.land δ B p = p := by
  have hland := ExactSource.land_pos s.device
  rw [h.bytes_eq, h.pos_eq] at hland
  exact hland

/-- From a view, a seek lands at the position or, before it, at the end of the
    bytes; which is not before the view. -/
theorem ViewAt.land_cases (h : ViewAt B beg end_ p s) (q : ℕ) :
    ExactSource.land δ B q = q ∨ ExactSource.land δ B q = B.length ∧ beg ≤ B.length ∧
      B.length ≤ q := by
  have hle := h.le_pos
  rcases ExactSource.land_eq (δ := δ) with hland | hland
  · exact .inl (hland B q)
  · have hp := h.land_eq
    rw [hland] at hp ⊢
    omega

theorem ViewAt.tell (h : ViewAt B beg end_ p s) :
    ∃ s', s.tell = ((p : ℤ) - beg, s') ∧ ViewAt B beg end_ p s' := by
  have hmax := h.max
  have h1 := h.le_pos
  have h2 := h.pos_le
  unfold maxPos at hmax
  have habs : absolutePosition p beg end_ 0 .cur = p := by
    rw [absolutePosition_cur (by omega) (by omega), clamp_of_le (by omega) (by omega), add_zero]
  obtain ⟨s', hseek, hview⟩ := h.seek 0 .cur habs (by rw [h.land_eq]; exact ⟨h1, h2⟩)
  rw [h.land_eq] at hseek hview
  exact ⟨s', hseek, hview⟩

theorem ViewAt.tell_fst (h : ViewAt B beg end_ p s) : s.tell.1 = (p : ℤ) - beg := by
  obtain ⟨s', htell, -⟩ := h.tell
  rw [htell]

/-- What is read is what the device has, up to the end of the view. -/
theorem ViewAt.read (h : ViewAt B beg end_ p s) (n : ℕ) :
    ∃ s', s.read n = (deliver (slice B p (min n (end_ - p))), s') ∧
      ViewAt B beg end_ (p + (slice B p (min n (end_ - p))).length) s' := by
  obtain ⟨s', htell, h'⟩ := h.tell
  have h1 := h.le_pos
  have h2 := h.pos_le
  have hsize : s'.size = (end_ : ℤ) - beg := by rw [Subview.size, h'.beg_eq, h'.end_eq]
  have hguard : ¬ ((p : ℤ) - beg = -1 ∨ s'.size < (p : ℤ) - beg) := by
    rw [hsize]
    omega
  have hrest : min n (s'.size - ((p : ℤ) - beg)).toNat = min n (end_ - p) := by
    rw [hsize]
    omega
  obtain ⟨r1, r2, r3⟩ := ExactSource.read_eq (min n (end_ - p)) s'.device
  rw [h'.bytes_eq, h'.pos_eq] at r1 r3
  rw [h'.bytes_eq] at r2
  have hlen := length_slice_min B p (min n (end_ - p))
  refine ⟨{ s' with device := (Source.read (min n (end_ - p)) s'.device).2 }, ?_,
    ⟨h'.beg_eq, h'.end_eq, r2, r3, by omega, by omega, h.max⟩⟩
  simp only [Subview.read, htell, if_neg hguard, hrest, r1]

end

end NiMedia
