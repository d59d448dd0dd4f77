/-
  Seekable byte devices (`iostreams/positioning.h`, `device/container.h`).

  `read`, `write` and `seek` are state transformers; a count of -1 (end of file)
  is `none`.  `Container` is `container_device`; `File` is the file that the
  file descriptors of the library stand for: writes overwrite at the cursor and
  extend at the end, `seek` moves the cursor.

  `ByteSource` is what the header readers rely on: a device of this class
  delivers the bytes of a `Content`.
-/
import NiMedia.Lib.Bytes
import NiMedia.Lib.Words

namespace NiMedia

open Bytes Words

/-! ## Positions -/

/-- `std::ios_base::seekdir`. -/
inductive SeekDir where
  | beg
  | cur
  | end_
  deriving DecidableEq, Repr

/-- `boost::algorithm::clamp`. -/
def clamp (v lo hi : ℤ) : ℤ := if v < lo then lo else if hi < v then hi else v

/-- `absolute_position`; positions are 64 bit. -/
def absolutePosition (pos beg end_ off : ℤ) (way : SeekDir) : ℤ :=
  let pos := match way with
    | .beg => wrap 64 (beg + off)
    | .end_ => wrap 64 (end_ + off)
    | .cur => wrap 64 (pos + off)
  clamp pos beg end_

theorem clamp_of_le {v lo hi : ℤ} (h1 : lo ≤ v) (h2 : v ≤ hi) : clamp v lo hi = v := by
  rw [clamp, if_neg (by omega), if_neg (by omega)]

theorem clamp_le {v lo hi : ℤ} (h : lo ≤ hi) : clamp v lo hi ≤ hi := by
  unfold clamp; split_ifs <;> omega

/-- Without overflow, a seek from the beginning is clamped only. -/
theorem absolutePosition_beg {pos beg end_ off : ℤ} (h1 : -2 ^ 63 ≤ beg + off)
    (h2 : beg + off < 2 ^ 63) :
    absolutePosition pos beg end_ off .beg = clamp (beg + off) beg end_ := by
  simp only [absolutePosition]
  rw [wrap_of_range (by norm_num; omega) (by norm_num; omega)]

theorem absolutePosition_cur {pos beg end_ off : ℤ} (h1 : -2 ^ 63 ≤ pos + off)
    (h2 : pos + off < 2 ^ 63) :
    absolutePosition pos beg end_ off .cur = clamp (pos + off) beg end_ := by
  simp only [absolutePosition]
  rw [wrap_of_range (by norm_num; omega) (by norm_num; omega)]

theorem absolutePosition_le {pos beg end_ off : ℤ} {way : SeekDir} (h : beg ≤ end_) :
    absolutePosition pos beg end_ off way ≤ end_ := clamp_le h

/-! ## Devices -/

class Device (σ : Type) where
  seek : ℤ → SeekDir → σ → ℤ × σ

class Source (σ : Type) extends Device σ where
  read : ℕ → σ → Option (List UInt8) × σ

class Sink (σ : Type) extends Device σ where
  write : List UInt8 → σ → Option ℕ × σ
  close : σ → σ

/-- What is read if `bs` is there to be read: no bytes mean the end of file. -/
def deliver (bs : List UInt8) : Option (List UInt8) := if bs = [] then none else some bs

theorem deliver_of_ne {bs : List UInt8} (h : bs ≠ []) : deliver bs = some bs := if_neg h

/-! ### Containers -/

/-- `container_device`; the position never leaves the container. -/
structure Container where
  container : List UInt8
  pos : ℕ
  pos_le : pos ≤ container.length

namespace Container

def mk' (container : List UInt8) : Container := ⟨container, 0, Nat.zero_le _⟩

def read (n : ℕ) (c : Container) : Option (List UInt8) × Container :=
  let amount := c.container.length - c.pos
  let result := min n amount
  if result ≠ 0 then
    (some (slice c.container c.pos result),
      { c with
        pos := c.pos + result
        pos_le := by have := c.pos_le; omega })
  else (none, c)

/-- The bytes of `s` that overwrite bytes of the container. -/
def overwritten (s : List UInt8) (c : Container) : ℕ :=
  if c.pos ≠ c.container.length then min s.length (c.container.length - c.pos) else 0

theorem pos_add_overwritten_le (s : List UInt8) (c : Container) :
    c.pos + c.overwritten s ≤ (overwrite c.container c.pos (s.take (c.overwritten s))).length := by
  have hle := c.pos_le
  have hres : c.pos + c.overwritten s ≤ c.container.length := by
    unfold overwritten; split_ifs <;> omega
  rw [length_overwrite (by rw [List.length_take]; omega)]
  exact hres

/-- Where the bytes do not fit, all of `s` is inserted at the end. -/
def write (s : List UInt8) (c : Container) : Option ℕ × Container :=
  let result := c.overwritten s
  let container := overwrite c.container c.pos (s.take result)
  if result < s.length then (some s.length, ⟨container ++ s, (container ++ s).length, le_rfl⟩)
  else (some s.length, ⟨container, c.pos + result, c.pos_add_overwritten_le s⟩)

def seek (off : ℤ) (way : SeekDir) (c : Container) : ℤ × Container :=
  let pos := absolutePosition c.pos 0 c.container.length off way
  (pos, { c with
    pos := pos.toNat
    pos_le := by
      have : absolutePosition c.pos 0 c.container.length off way ≤ c.container.length :=
        absolutePosition_le (Int.natCast_nonneg _)
      omega })

instance : Source Container where
  seek := seek
  read := read

end Container

/-! ### Files -/

/-- A file with its cursor. -/
structure File where
  bytes : List UInt8
  pos : ℕ
  deriving DecidableEq, Repr

namespace File

/-- A file opened at its beginning. -/
def opened (bytes : List UInt8) : File := ⟨bytes, 0⟩

def read (n : ℕ) (f : File) : Option (List UInt8) × File :=
  let bs := slice f.bytes f.pos n
  (deliver bs, { f with pos := f.pos + bs.length })

def write (s : List UInt8) (f : File) : Option ℕ × File :=
  (some s.length, ⟨overwrite f.bytes f.pos s, f.pos + s.length⟩)

/-- A seek to a negative position fails. -/
def seek (off : ℤ) (way : SeekDir) (f : File) : ℤ × File :=
  let pos := match way with
    | .beg => off
    | .cur => f.pos + off
    | .end_ => f.bytes.length + off
  if pos < 0 then (-1, f) else (pos, { f with pos := pos.toNat })

instance : Source File where
  seek := seek
  read := read

instance : Sink File where
  seek := seek
  write := write
  close := id

end File

/-! ## Sources of bytes -/

/-- `max_pos`, the greatest `std::streamoff`. -/
def maxPos : ℤ := 2 ^ 63 - 1

theorem le_maxPos {n : ℕ} (h : n < 2 ^ 63) : (n : ℤ) ≤ maxPos := by
  unfold maxPos; omega

/-- The contents of a source.  Positions up to one byte behind the end are
    `std::streamoff`s. -/
structure Content where
  bytes : List UInt8
  fits : bytes.length + 1 < 2 ^ 63

theorem Content.length_le (B : Content) : (B.bytes.length : ℤ) ≤ maxPos :=
  le_maxPos (by have := B.fits; omega)

/-- A source that delivers the bytes of a content: `At B p s` says that `s`
    does, and stands at position `p`.  Positions behind the end are not told
    from one another, and what a `seek` there returns is left open. -/
class ByteSource (σ : Type) extends Source σ where
  At : Content → ℕ → σ → Prop
  read_at : ∀ {B p s} (n : ℕ), At B p s → ∃ s',
    read n s = (deliver (slice B.bytes p n), s') ∧ At B (p + (slice B.bytes p n).length) s'
  tell_at : ∀ {B p s}, At B p s → ∃ r s', seek 0 .cur s = (r, s') ∧ At B p s' ∧
    (p ≤ B.bytes.length → r = p) ∧ (B.bytes.length < p → B.bytes.length ≤ r ∧ r ≤ maxPos)
  seek_beg_at : ∀ {B p s} (q : ℕ), At B p s → q ≤ maxPos → ∃ r s', seek q .beg s = (r, s') ∧
    (q ≤ B.bytes.length → r = q ∧ At B q s') ∧
    (B.bytes.length ≤ q → B.bytes.length ≤ r ∧ r ≤ maxPos ∧
      ∀ p', B.bytes.length < p' → At B p' s')
  seek_cur_at : ∀ {B p s} (d : ℕ), At B p s → p ≤ B.bytes.length → (p + d : ℕ) ≤ maxPos →
    ∃ r s', seek d .cur s = (r, s') ∧ At B (p + d) s'

theorem length_slice_min (B : List UInt8) (p n : ℕ) :
    (slice B p n).length = min n (B.length - p) := by
  rw [slice, List.length_take, List.length_drop]

theorem slice_min_left (B : List UInt8) (p n : ℕ) :
    slice B p (min n (B.length - p)) = slice B p n := by
  rw [slice, slice, ← List.length_drop, List.take_eq_take_iff]; omega

theorem slice_min_pos (B : List UInt8) (p n : ℕ) : slice B (min p B.length) n = slice B p n := by
  rcases Nat.le_total p B.length with h | h
  · rw [Nat.min_eq_left h]
  · rw [Nat.min_eq_right h, slice, slice, List.drop_length, List.drop_eq_nil_of_le h]

theorem slice_of_length_le {B : List UInt8} {p : ℕ} (h : B.length ≤ p) (n : ℕ) :
    slice B p n = [] := by
  rw [slice, List.drop_eq_nil_of_le h, List.take_nil]

/-! ### Files deliver their bytes -/

theorem File.seek_beg (q : ℕ) (f : File) : f.seek q .beg = ((q : ℤ), { f with pos := q }) := by
  have h : ¬ (q : ℤ) < 0 := by omega
  simp [File.seek, h]

theorem File.seek_cur (d : ℕ) (f : File) :
    f.seek d .cur = (((f.pos + d : ℕ) : ℤ), { f with pos := f.pos + d }) := by
  have h : ¬ (f.pos : ℤ) + d < 0 := by omega
  simp only [File.seek, if_neg h]
  rw [← Int.natCast_add, Int.toNat_natCast]

instance : ByteSource File where
  At B p f := f.bytes = B.bytes ∧ (p ≤ B.bytes.length → f.pos = p) ∧
    (B.bytes.length < p → B.bytes.length ≤ f.pos ∧ f.pos ≤ maxPos)
  read_at := by
    rintro B p ⟨_, pos⟩ n ⟨rfl, hin, hout⟩
    have hslice : slice B.bytes pos n = slice B.bytes p n := by
      rcases Nat.lt_or_ge B.bytes.length p with h | h
      · rw [slice_of_length_le h.le, slice_of_length_le (hout h).1]
      · rw [← hin h]
    refine ⟨⟨B.bytes, pos + (slice B.bytes p n).length⟩, ?_, rfl, ?_, ?_⟩
    · simp only [Source.read, File.read, hslice]
    · intro h
      have hpos : pos = p := hin (by omega)
      simp only [hpos]
    · intro h
      have hnil : slice B.bytes p n = [] := by
        rw [← List.length_eq_zero_iff]
        have := length_slice_min B.bytes p n
        omega
      rw [hnil] at h ⊢
      exact hout h
  tell_at := by
    rintro B p ⟨_, pos⟩ ⟨rfl, hin, hout⟩
    exact ⟨_, _, File.seek_cur 0 _, ⟨rfl, hin, hout⟩, fun h => congrArg _ (hin h), fun h => by
      have := hout h; simpa using this⟩
  seek_beg_at := by
    rintro B p ⟨_, pos⟩ q ⟨rfl, -, -⟩ hq
    refine ⟨q, ⟨B.bytes, q⟩, File.seek_beg q _, fun h => ⟨rfl, rfl, fun _ => rfl, ?_⟩,
      fun h => ⟨Int.ofNat_le.2 h, hq, fun p' hp' => ⟨rfl, ?_, fun _ => ⟨h, hq⟩⟩⟩⟩
    · intro h'; omega
    · intro h'; omega
  seek_cur_at := by
    rintro B p ⟨_, pos⟩ d ⟨rfl, hin, -⟩ hp hmax
    obtain rfl : pos = p := hin hp
    exact ⟨_, ⟨B.bytes, pos + d⟩, File.seek_cur d _, rfl, fun _ => rfl, fun h => ⟨h.le, hmax⟩⟩

/-! ### Containers deliver their bytes -/

theorem Container.read_eq (n : ℕ) (c : Container) :
    (c.read n).1 = deliver (slice c.container c.pos n) ∧
      (c.read n).2.container = c.container ∧
      (c.read n).2.pos = c.pos + (slice c.container c.pos n).length := by
  have hlen := length_slice_min c.container c.pos n
  by_cases h : min n (c.container.length - c.pos) ≠ 0
  · have hne : slice c.container c.pos n ≠ [] := by
      rw [← List.length_pos_iff, hlen]; omega
    simp only [Container.read, if_pos h, slice_min_left, hlen, deliver_of_ne hne, true_and]
  · have hnil : slice c.container c.pos n = [] := by
      rw [← List.length_eq_zero_iff, hlen]; omega
    simp only [Container.read, if_neg h, hnil]
    exact ⟨rfl, trivial, rfl⟩

theorem Container.seek_beg (q : ℕ) (c : Container) (hq : q ≤ maxPos) :
    (c.seek q .beg).1 = (min q c.container.length : ℕ) ∧
      (c.seek q .beg).2.container = c.container ∧
      (c.seek q .beg).2.pos = min q c.container.length := by
  unfold maxPos at hq
  have habs : absolutePosition c.pos 0 c.container.length q .beg =
      (min q c.container.length : ℕ) := by
    rw [absolutePosition_beg (by omega) (by omega), clamp]
    split_ifs <;> omega
  simp only [Container.seek, habs, Int.toNat_natCast, true_and]

theorem Container.seek_cur (d : ℕ) (c : Container) (hc : c.pos + d < 2 ^ 63) :
    (c.seek d .cur).1 = (min (c.pos + d) c.container.length : ℕ) ∧
      (c.seek d .cur).2.container = c.container ∧
      (c.seek d .cur).2.pos = min (c.pos + d) c.container.length := by
  have habs : absolutePosition c.pos 0 c.container.length d .cur =
      (min (c.pos + d) c.container.length : ℕ) := by
    rw [absolutePosition_cur (by omega) (by omega), clamp]
    split_ifs <;> omega
  simp only [Container.seek, habs, Int.toNat_natCast, true_and]

instance : ByteSource Container where
  At B p c := c.container = B.bytes ∧ c.pos = min p B.bytes.length
  read_at := by
    rintro B p c n ⟨hB, hpos⟩
    obtain ⟨h1, h2, h3⟩ := c.read_eq n
    rw [hB, hpos, slice_min_pos] at h1 h3
    have hlen := length_slice_min B.bytes p n
    exact ⟨(c.read n).2, Prod.ext h1 rfl, h2.trans hB, h3.trans (by omega)⟩
  tell_at := by
    rintro B p c ⟨hB, hpos⟩
    have hfits := B.fits
    obtain ⟨h1, h2, h3⟩ := c.seek_cur 0 (by omega)
    rw [hB, hpos] at h1 h3
    have hmin : (c.seek 0 .cur).1 = (min p B.bytes.length : ℕ) := h1.trans (by omega)
    refine ⟨_, (c.seek 0 .cur).2, Prod.ext hmin rfl, ⟨h2.trans hB, h3.trans (by omega)⟩,
      fun h => ?_, fun h => ?_⟩
    · rw [Nat.min_eq_left h]
    · rw [Nat.min_eq_right h.le]; exact ⟨le_rfl, B.length_le⟩
  seek_beg_at := by
    rintro B p c q ⟨hB, hpos⟩ hq
    have hfits := B.fits
    obtain ⟨h1, h2, h3⟩ := c.seek_beg q hq
    rw [hB] at h1 h3
    refine ⟨_, (c.seek q .beg).2, Prod.ext h1 rfl, fun h => ⟨?_, h2.trans hB, h3⟩,
      fun h => ⟨?_, ?_, fun p' hp' => ⟨h2.trans hB, h3.trans (by omega)⟩⟩⟩
    · rw [Nat.min_eq_left h]
    · rw [Nat.min_eq_right h]
    · rw [Nat.min_eq_right h]; exact B.length_le
  seek_cur_at := by
    rintro B p c d ⟨hB, hpos⟩ hp hmax
    have hcur : c.pos + d < 2 ^ 63 := by unfold maxPos at hmax; omega
    obtain ⟨h1, h2, h3⟩ := c.seek_cur d hcur
    rw [hB, hpos] at h3
    exact ⟨_, (c.seek d .cur).2, Prod.ext h1 rfl, h2.trans hB, h3.trans (by omega)⟩

end NiMedia
