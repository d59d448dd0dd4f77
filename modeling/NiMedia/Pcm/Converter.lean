/-
  Conversion of fixed-point samples (`pcm/converter.h`: `sign_cast`,
  `shift_cast`, and `convert_to` for integer types).

  A sample of an integer type is a bit vector of the type's width.  Its level
  is its distance from the least value of the type; `level_convertTo` is the
  specification of `convert_to`: the level is scaled by the ratio of the two
  ranges and rounded down, whatever the signedness on either side.
-/
import NiMedia.Lib.Words
import NiMedia.Pcm.Format

namespace NiMedia

open Words

/-! ## Integer types -/

/-- The sizes of the integer types. -/
inductive Width where
  | w8
  | w16
  | w32
  | w64
  deriving DecidableEq, Repr

/-- `sizeof( T )`. -/
def Width.bytes : Width → ℕ
  | w8 => 1
  | w16 => 2
  | w32 => 4
  | w64 => 8

def Width.bits (w : Width) : ℕ := 8 * w.bytes

theorem Width.bits_pos (w : Width) : 0 < w.bits := by cases w <;> decide

/-- An integer type (`int8_t`, …, `uint64_t`). -/
structure IntType where
  signed : Bool
  width : Width
  deriving DecidableEq, Repr

namespace IntType

def bits (t : IntType) : ℕ := t.width.bits

theorem bits_pos (t : IntType) : 0 < t.bits := t.width.bits_pos

/-- The values of a type. -/
abbrev Val (t : IntType) := BitVec t.bits

/-- The integer that a value stands for. -/
def toInt (t : IntType) (v : t.Val) : ℤ := if t.signed then v.toInt else v.toNat

/-- `std::numeric_limits<T>::min()`. -/
def min (t : IntType) : ℤ := if t.signed then -2 ^ (t.bits - 1) else 0

end IntType

/-! ## Casts -/

section
variable {w : ℕ}

/-- `sign_cast`: from signedness `source` to `target` at the same width, by
    flipping the top bit (`val ^ mask`) if they differ. -/
def signCast (source target : Bool) (v : BitVec w) : BitVec w :=
  if source = target then v else v ^^^ (1#w <<< (w - 1))

/-- `shift_cast`: from width `w` to `w'` at the same signedness.  The right
    shift of a signed value is arithmetic. -/
def shiftCast (signed : Bool) (w' : ℕ) (v : BitVec w) : BitVec w' :=
  if w' < w then ((if signed then v.sshiftRight (w - w') else v >>> (w - w'))).setWidth w'
  else if w < w' then (if signed then v.signExtend w' else v.setWidth w') <<< (w' - w)
  else v.setWidth w'

end

/-- `convert_to<Target>( Source )` for integer types. -/
def convertTo (target source : IntType) (v : source.Val) : target.Val :=
  shiftCast target.signed target.bits (signCast source.signed target.signed v)

/-! ## Levels -/

section
variable {w : ℕ}

/-- The distance of a value from the least one of its type. -/
def level (signed : Bool) (v : BitVec w) : ℕ := if signed then (flipTop v).toNat else v.toNat

theorem level_injective (signed : Bool) {u v : BitVec w} (h : level signed u = level signed v) :
    u = v := by
  cases signed
  · exact BitVec.eq_of_toNat_eq h
  · exact flipTop_injective (BitVec.eq_of_toNat_eq h)

theorem mask_eq (hw : 0 < w) : (1#w <<< (w - 1)) = BitVec.intMin w := by
  apply BitVec.eq_of_toNat_eq
  rw [BitVec.toNat_shiftLeft, BitVec.toNat_intMin, BitVec.toNat_ofNat, Nat.shiftLeft_eq,
    Nat.mod_eq_of_lt (Nat.one_lt_two_pow (by omega)), Nat.one_mul]

theorem signCast_eq (hw : 0 < w) (s t : Bool) (v : BitVec w) :
    signCast s t v = if s = t then v else flipTop v := by
  rw [signCast, mask_eq hw, flipTop]

/-- A value of the other signedness has the same level. -/
theorem level_signCast (hw : 0 < w) (s t : Bool) (v : BitVec w) :
    level t (signCast s t v) = level s v := by
  rw [signCast_eq hw]
  cases s <;> cases t <;> simp [level]

/-- `shift_cast` moves bits, whether the shift is arithmetic or logical. -/
theorem getLsbD_shiftCast (s : Bool) (w' : ℕ) (v : BitVec w) (i : ℕ) :
    (shiftCast s w' v).getLsbD i =
      (decide (i < w' ∧ w' ≤ i + w) && v.getLsbD (i + w - w')) := by
  unfold shiftCast
  split_ifs with h1 h2 h3 h4
  · rw [BitVec.getLsbD_setWidth, BitVec.getLsbD_sshiftRight]
    by_cases hi : i < w'
    · have e : w - w' + i = i + w - w' := by omega
      simp [hi, e, show ¬ w ≤ i by omega, show w' ≤ i + w by omega, show i + w - w' < w by omega]
    · simp [hi]
  · rw [BitVec.getLsbD_setWidth, BitVec.getLsbD_ushiftRight]
    have e : w - w' + i = i + w - w' := by omega
    by_cases hi : i < w' <;> simp [hi, e, show w' ≤ i + w by omega]
  · rw [BitVec.getLsbD_shiftLeft, BitVec.getLsbD_signExtend]
    have e : i - (w' - w) = i + w - w' := by omega
    by_cases hi : i < w'
    · by_cases hl : w' ≤ i + w
      · simp [hi, e, show ¬ i < w' - w by omega, hl, show i + w - w' < w by omega,
          show i + w - w' < w' by omega]
      · simp [show i < w' - w by omega, hl]
    · simp [hi]
  · rw [BitVec.getLsbD_shiftLeft, BitVec.getLsbD_setWidth]
    have e : i - (w' - w) = i + w - w' := by omega
    by_cases hi : i < w'
    · by_cases hl : w' ≤ i + w
      · simp [hi, e, show ¬ i < w' - w by omega, hl, show i + w - w' < w' by omega]
      · simp [show i < w' - w by omega, hl]
    · simp [hi]
  · rw [BitVec.getLsbD_setWidth, show i + w - w' = i by omega]
    by_cases hi : i < w' <;> simp [hi, show w' ≤ i + w by omega]

theorem shiftCast_signed (s t : Bool) (w' : ℕ) (v : BitVec w) :
    shiftCast s w' v = shiftCast t w' v :=
  BitVec.eq_of_getLsbD_eq fun i _ => by rw [getLsbD_shiftCast, getLsbD_shiftCast]

theorem shiftCast_flipTop (hw : 0 < w) (s : Bool) (w' : ℕ) (v : BitVec w) :
    shiftCast s w' (flipTop v) = flipTop (shiftCast s w' v) := by
  refine BitVec.eq_of_getLsbD_eq fun i hi => ?_
  rw [getLsbD_flipTop, getLsbD_shiftCast, getLsbD_shiftCast, getLsbD_flipTop]
  by_cases hl : w' ≤ i + w
  · have e : (i + w - w' + 1 = w) ↔ (i + 1 = w') := by omega
    simp [hi, hl, e]
  · simp [hl, show ¬ i + 1 = w' by omega]

/-- `n` on a range of `w'` bits instead of `w`, rounded down. -/
def scale (w w' n : ℕ) : ℕ := if w' < w then n / 2 ^ (w - w') else n * 2 ^ (w' - w)

theorem scale_lt {w w' n : ℕ} (h : n < 2 ^ w) : scale w w' n < 2 ^ w' := by
  unfold scale
  split_ifs with hlt
  · rw [Nat.div_lt_iff_lt_mul (Nat.two_pow_pos _), ← pow_add, Nat.add_sub_cancel' hlt.le]
    exact h
  · calc n * 2 ^ (w' - w) < 2 ^ w * 2 ^ (w' - w) :=
          Nat.mul_lt_mul_of_pos_right h (Nat.two_pow_pos _)
      _ = 2 ^ w' := by rw [← pow_add, Nat.add_sub_cancel' (by omega)]

theorem toNat_shiftCast (s : Bool) (w' : ℕ) (v : BitVec w) :
    (shiftCast s w' v).toNat = scale w w' v.toNat := by
  have hlt : scale w w' v.toNat < 2 ^ w' := scale_lt v.isLt
  rw [shiftCast_signed s false]
  unfold shiftCast scale at *
  simp only [Bool.false_eq_true, if_false]
  split_ifs at hlt ⊢ with h1 h2
  · rw [BitVec.toNat_setWidth, BitVec.toNat_ushiftRight, Nat.shiftRight_eq_div_pow,
      Nat.mod_eq_of_lt hlt]
  · rw [BitVec.toNat_shiftLeft, BitVec.toNat_setWidth_of_le h2.le, Nat.shiftLeft_eq,
      Nat.mod_eq_of_lt hlt]
  · have e : w = w' := by omega
    subst e; simp

theorem level_shiftCast (hw : 0 < w) (s : Bool) (w' : ℕ) (v : BitVec w) :
    level s (shiftCast s w' v) = scale w w' (level s v) := by
  cases s
  · exact toNat_shiftCast false w' v
  · simp only [level, if_true]
    rw [← shiftCast_flipTop hw, toNat_shiftCast]

end

/-- The value of a level. -/
theorem IntType.toInt_sub_min (t : IntType) (v : t.Val) :
    t.toInt v - t.min = (level t.signed v : ℤ) := by
  unfold IntType.toInt IntType.min level
  cases t.signed
  · simp
  · have := toInt_add_two_pow t.bits_pos v
    simp only [if_true]; omega

/-- **`convert_to` scales levels.** -/
theorem level_convertTo (target source : IntType) (v : source.Val) :
    level target.signed (convertTo target source v) =
      scale source.bits target.bits (level source.signed v) := by
  rw [convertTo, level_shiftCast source.bits_pos, level_signCast source.bits_pos]

/-! ## Scaling -/

theorem scale_self (w n : ℕ) : scale w w n = n := by simp [scale]

/-- Through a range at least as wide as one of the ends, nothing more is
    lost. -/
theorem scale_scale {a b c n : ℕ} (h : a ≤ b ∨ c ≤ b) :
    scale b c (scale a b n) = scale a c n := by
  unfold scale
  split_ifs with h1 h2 h3 h4 h5 h6
  · rw [Nat.div_div_eq_div_mul, ← pow_add, show a - b + (b - c) = a - c by omega]
  · omega
  · -- up to `b`, down to `c` below `a`
    have e : b - c = (b - a) + (a - c) := by omega
    rw [e, pow_add, ← Nat.div_div_eq_div_mul, Nat.mul_div_cancel _ (Nat.two_pow_pos _)]
  · have e : b - a = (b - c) + (c - a) := by omega
    rw [e, pow_add, Nat.mul_comm (2 ^ (b - c)), ← Nat.mul_assoc,
      Nat.mul_div_cancel _ (Nat.two_pow_pos _)]
  · have e : b = c := by omega
    subst e; simp
  · omega
  · omega
  · rw [Nat.mul_assoc, ← pow_add, show b - a + (c - b) = c - a by omega]

/-- **Conversion through an intermediate type** that is not narrower than both
    ends is the direct conversion. -/
theorem convertTo_convertTo (A B C : IntType) (h : A.bits ≤ B.bits ∨ C.bits ≤ B.bits)
    (v : A.Val) : convertTo C B (convertTo B A v) = convertTo C A v := by
  apply level_injective C.signed
  rw [level_convertTo, level_convertTo, level_convertTo, scale_scale h]

theorem convertTo_self (A : IntType) (v : A.Val) : convertTo A A v = v := by
  apply level_injective A.signed
  rw [level_convertTo, scale_self]

end NiMedia
