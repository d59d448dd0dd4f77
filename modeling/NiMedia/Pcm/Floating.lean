/-
  Conversion between integer samples and floating values (`pcm/converter.h`:
  `round_cast`, and `convert_to` where one of the types is a floating type).

  A floating value is the number it stands for; an operation on two of them is
  exact and then rounded to the bits of the type.  A `static_cast` to an
  integer type is defined only where the integer part is in the range of the
  type.

  * `roundCast_int`: what `round_cast` does to an integer.
  * `convertToFixed_convertToFloating`: when an integer survives the way
    through a floating type and back.
  * `castArgument_inRange_iff`: the cast is defined unless the value is not a
    number.
-/
import NiMedia.Lib.Rounding
import NiMedia.Pcm.Converter

namespace NiMedia

open Words Rounding

/-! ## Floating types -/

/-- The floating types. -/
inductive RealType where
  | float
  | double
  deriving DecidableEq, Repr

/-- `std::numeric_limits<T>::digits`. -/
def RealType.digits : RealType → ℕ
  | float => 24
  | double => 53

theorem RealType.digits_pos (R : RealType) : 0 < R.digits := by cases R <;> decide

/-! ## Casts -/

section
variable (p w : ℕ)

/-- The operand of the cast in `round_cast`. -/
def roundArgument (val : Number) : Number :=
  if (Number.finite 0).less val then .add p val (.finite (1 / 2)) else .sub p val (.finite (1 / 2))

/-- The integers that a signed type of `w` bits has. -/
def InRange (n : ℤ) : Prop := -2 ^ (w - 1) ≤ n ∧ n < 2 ^ (w - 1)

instance (n : ℤ) : Decidable (InRange w n) := inferInstanceAs (Decidable (_ ∧ _))

/-- `static_cast<Integer>` of a floating value: the integer part, if the type has
    it. -/
def staticCast (val : Number) : Option (BitVec w) :=
  val.truncate.bind fun n => if InRange w n then some (BitVec.ofInt w n) else none

/-- `round_cast`. -/
def roundCast (val : Number) : Option (BitVec w) := staticCast w (roundArgument p val)

/-- `boost::algorithm::clamp`. -/
def clampNumber (val lo hi : Number) : Number :=
  if val.less lo then lo else if hi.less val then hi else val

/-- `Source{1ull << ( sizeof( Target ) * 8 - 1 )}`. -/
def fixedScale : ℚ := rnd p (2 ^ (w - 1) : ℕ)

/-- `std::numeric_limits<Source>::epsilon()`. -/
def epsilon : ℚ := 2 ^ (1 - p : ℤ)

/-- The upper bound of `clampNumber`. -/
def maximum : ℚ := rnd p (1 - max (rnd p (1 / fixedScale p w)) (epsilon p))

/-- The operand of the cast in `convert_to`, from a floating value. -/
def castArgument (src : Number) : Number :=
  roundArgument p
    (.mul p (.finite (fixedScale p w)) (clampNumber src (.finite (-1)) (.finite (maximum p w))))

end

/-- `convert_to<Target>( Source )` from a floating type to an integer type. -/
def convertToFixed (T : IntType) (S : RealType) (src : Number) : Option T.Val :=
  (roundCast S.digits T.bits (.mul S.digits (.finite (fixedScale S.digits T.bits))
    (clampNumber src (.finite (-1)) (.finite (maximum S.digits T.bits))))).map
      (signCast true T.signed)

/-- `convert_to<Target>( Source )` from an integer type to a floating type. -/
def convertToFloating (T : RealType) (S : IntType) (src : S.Val) : Number :=
  .mul T.digits (.finite (rnd T.digits (1 / rnd T.digits (2 ^ (S.bits - 1) : ℕ))))
    (.finite (rnd T.digits (signCast S.signed true src).toInt))

/-! ## Constants -/

/-- The integer that the upper bound stands for. -/
def top (p w : ℕ) : ℤ := 2 ^ (w - 1) - 2 ^ (w - p)

section
variable {p w : ℕ}

theorem fixedScale_eq (hp : 0 < p) : fixedScale p w = 2 ^ (w - 1) := by
  have h := representable_two_pow hp ((w - 1 : ℕ) : ℤ)
  rw [zpow_natCast] at h
  rw [fixedScale]
  push_cast
  exact rnd_of_representable h

theorem scale_pos : (0 : ℚ) < 2 ^ (w - 1) := by positivity

theorem inv_scale_eq (hp : 0 < p) : rnd p (1 / 2 ^ (w - 1)) = 1 / 2 ^ (w - 1) := by
  have h := representable_two_pow hp (-((w - 1 : ℕ) : ℤ))
  rw [zpow_neg, zpow_natCast, ← one_div] at h
  exact rnd_of_representable h

theorem top_lt : top p w < 2 ^ (w - 1) := by
  have h : (0 : ℤ) < 2 ^ (w - p) := by positivity
  rw [top]; omega

theorem top_nonneg (hp : 0 < p) : 0 ≤ top p w := by
  have h : (2 : ℤ) ^ (w - p) ≤ 2 ^ (w - 1) := pow_le_pow_right₀ (by norm_num) (by omega)
  rw [top]; omega

/-- The upper bound has the bits of the type. -/
theorem representable_top (hp : 0 < p) : Representable p (top p w) := by
  obtain ⟨k, hk⟩ : ∃ k, w - 1 = w - p + k ∧ k < p := ⟨w - 1 - (w - p), by omega⟩
  have hpow : (2 : ℤ) ^ k < 2 ^ p := pow_lt_pow_right₀ (by norm_num) hk.2
  have hone : (1 : ℤ) ≤ 2 ^ k := one_le_pow₀ (by norm_num)
  refine ⟨2 ^ k - 1, (w - p : ℕ), by rw [abs_of_nonneg (by omega)]; omega, ?_⟩
  rw [top, hk.1, zpow_natCast]
  push_cast
  rw [pow_add]
  ring

/-- The greater one of the two distances below one is that of the type with fewer
    digits. -/
theorem max_inv_epsilon (hp : 0 < p) :
    max ((1 : ℚ) / 2 ^ (w - 1)) (epsilon p) = 2 ^ (w - p) / 2 ^ (w - 1) := by
  have heps : epsilon p = 1 / 2 ^ (p - 1) := by
    rw [epsilon, show (1 - p : ℤ) = -((p - 1 : ℕ) : ℤ) by omega, zpow_neg, zpow_natCast, one_div]
  rw [heps]
  rcases Nat.le_total w p with h | h
  · rw [Nat.sub_eq_zero_of_le h, pow_zero, max_eq_left]
    exact one_div_le_one_div_of_le (by positivity) (pow_le_pow_right₀ (by norm_num) (by omega))
  · have hpow : (2 : ℚ) ^ (w - 1) = 2 ^ (w - p) * 2 ^ (p - 1) := by
      rw [← pow_add]; congr 1; omega
    have hdiv : (2 : ℚ) ^ (w - p) / 2 ^ (w - 1) = 1 / 2 ^ (p - 1) := by
      rw [hpow]; field_simp
    rw [hdiv, max_eq_right]
    exact one_div_le_one_div_of_le (by positivity) (pow_le_pow_right₀ (by norm_num) (by omega))

theorem maximum_eq (hp : 0 < p) : maximum p w = top p w / 2 ^ (w - 1) := by
  have hsub : (1 : ℚ) - 2 ^ (w - p) / 2 ^ (w - 1) = top p w / 2 ^ (w - 1) := by
    rw [top]
    push_cast
    rw [sub_div, div_self scale_pos.ne']
  have hrep : Representable p ((top p w : ℚ) / 2 ^ (w - 1)) := by
    have h := (representable_top (w := w) hp).mul_two_pow (-((w - 1 : ℕ) : ℤ))
    rwa [zpow_neg, zpow_natCast, ← div_eq_mul_inv] at h
  rw [maximum, fixedScale_eq hp, inv_scale_eq hp, max_inv_epsilon hp, hsub]
  exact rnd_of_representable hrep

end

/-! ## Rounding to an integer -/

section
variable {p w : ℕ}

theorem truncate_of_nonneg {q : ℚ} (h : 0 ≤ q) : (Number.finite q).truncate = some ⌊q⌋ := by
  rw [Number.truncate, if_pos h]

theorem truncate_neg_of_pos {q : ℚ} (h : 0 < q) : (Number.finite (-q)).truncate = some (-⌊q⌋) := by
  rw [Number.truncate, if_neg (by linarith), Int.ceil_neg]

theorem roundArgument_pos {q : ℚ} (h : 0 < q) :
    roundArgument p (.finite q) = .finite (rnd p (q + 1 / 2)) := by
  simp [roundArgument, Number.less, Number.add, h]

theorem roundArgument_nonpos {q : ℚ} (h : q ≤ 0) :
    roundArgument p (.finite q) = .finite (-rnd p (-q + 1 / 2)) := by
  have harg : q + -(1 / 2) = -(-q + 1 / 2) := by ring
  rw [roundArgument, if_neg (by simpa [Number.less] using h), Number.sub, Number.neg, Number.add,
    harg, rnd_neg]

/-- What `round_cast` makes of an integer. -/
theorem truncate_roundArgument (hp : 0 < p) {i : ℤ} (hrep : Representable p i) :
    (roundArgument p (.finite i)).truncate =
      some (if |i| < 2 ^ (p - 1) ∨ Even i then i else if 0 < i then i + 1 else i - 1) := by
  rcases lt_or_ge 0 i with hi | hi
  · have hq : (0 : ℚ) < i := by exact_mod_cast hi
    rw [roundArgument_pos hq, truncate_of_nonneg (rnd_pos hp (by linarith)).le,
      floor_rnd_add_half hp hi.le hrep, abs_of_pos hi, if_pos hi]
  · have hq : (i : ℚ) ≤ 0 := by exact_mod_cast hi
    have hneg : Representable p ((-i : ℤ) : ℚ) := by
      push_cast
      exact hrep.neg
    have hfloor := floor_rnd_add_half hp (neg_nonneg.2 hi) hneg
    push_cast at hfloor
    rw [roundArgument_nonpos hq, truncate_neg_of_pos (rnd_pos hp (by linarith)), hfloor,
      abs_of_nonpos hi, if_neg (not_lt.2 hi)]
    simp only [even_neg]
    split_ifs
    · rw [neg_neg]
    · rw [neg_add, neg_neg, Int.sub_eq_add_neg]

theorem inRange_toInt (v : BitVec w) : InRange w v.toInt := ⟨BitVec.le_toInt v, BitVec.toInt_lt⟩

theorem staticCast_of_truncate {val : Number} {n : ℤ} (h : val.truncate = some n) :
    staticCast w val = if InRange w n then some (BitVec.ofInt w n) else none := by
  rw [staticCast, h]; rfl

/-- A cast yields a given value where the integer part is that value. -/
theorem staticCast_eq_some_iff (hw : 0 < w) {val : Number} {n : ℤ} (h : val.truncate = some n)
    (v : BitVec w) : staticCast w val = some v ↔ n = v.toInt := by
  rw [staticCast_of_truncate h]
  constructor
  · intro heq
    split_ifs at heq with hr
    obtain ⟨h1, h2⟩ := hr
    rw [← Option.some.inj heq, BitVec.toInt_ofInt_eq_self hw h1 h2]
  · rintro rfl
    rw [if_pos (inRange_toInt v), BitVec.ofInt_toInt]

/-- **`round_cast` of an integer** gives the integer, unless it is odd and as
    large as the bits of the type. -/
theorem roundCast_int (hp : 0 < p) (hw : 0 < w) {v : BitVec w} (hrep : Representable p v.toInt) :
    roundCast p w (.finite v.toInt) = some v ↔ |v.toInt| < 2 ^ (p - 1) ∨ Even v.toInt := by
  rw [roundCast, staticCast_eq_some_iff hw (truncate_roundArgument hp hrep)]
  constructor
  · intro h
    by_contra hno
    rw [if_neg hno] at h
    split_ifs at h <;> omega
  · intro h
    rw [if_pos h]

end

/-! ## The way through a floating type -/

theorem signCast_signCast {w : ℕ} (hw : 0 < w) (s t : Bool) (v : BitVec w) :
    signCast t s (signCast s t v) = v := by
  rw [signCast_eq hw, signCast_eq hw]
  cases s <;> cases t <;> simp

section
variable {R : RealType} {S : IntType}

/-- The value of an integer that has the bits of the floating type. -/
theorem convertToFloating_eq {v : S.Val}
    (hrep : Representable R.digits (signCast S.signed true v).toInt) :
    convertToFloating R S v =
      .finite ((signCast S.signed true v).toInt / 2 ^ (S.bits - 1)) := by
  have hp := R.digits_pos
  have hscale : rnd R.digits (2 ^ (S.bits - 1) : ℕ) = 2 ^ (S.bits - 1) := fixedScale_eq hp
  have hprod := hrep.mul_two_pow (-((S.bits - 1 : ℕ) : ℤ))
  rw [zpow_neg, zpow_natCast, ← div_eq_mul_inv] at hprod
  rw [convertToFloating, hscale, inv_scale_eq hp, rnd_of_representable hrep, Number.mul,
    one_div_mul_eq_div, rnd_of_representable hprod]

theorem clampNumber_of_mem {q lo hi : ℚ} (h1 : lo ≤ q) (h2 : q ≤ hi) :
    clampNumber (.finite q) (.finite lo) (.finite hi) = .finite q := by
  simp [clampNumber, Number.less, not_lt.2 h1, not_lt.2 h2]

/-- **An integer** that has the bits of the floating type, and is not above the
    upper bound, comes back from there unless it is odd and large. -/
theorem convertToFixed_convertToFloating {v : S.Val}
    (hrep : Representable R.digits (signCast S.signed true v).toInt)
    (hle : (signCast S.signed true v).toInt ≤ top R.digits S.bits) :
    convertToFixed S R (convertToFloating R S v) = some v ↔
      |(signCast S.signed true v).toInt| < 2 ^ (R.digits - 1) ∨
        Even (signCast S.signed true v).toInt := by
  have hp := R.digits_pos
  have hw := S.bits_pos
  have hpos : (0 : ℚ) < 2 ^ (S.bits - 1) := by positivity
  generalize hu : signCast S.signed true v = u at *
  have hlow : (-1 : ℚ) ≤ u.toInt / 2 ^ (S.bits - 1) := by
    rw [le_div_iff₀ hpos, neg_one_mul]
    exact_mod_cast (inRange_toInt u).1
  have hhigh : (u.toInt : ℚ) / 2 ^ (S.bits - 1) ≤ maximum R.digits S.bits := by
    rw [maximum_eq hp]
    exact div_le_div_of_nonneg_right (by exact_mod_cast hle) hpos.le
  have hfloat := convertToFloating_eq (v := v) (by rw [hu]; exact hrep)
  rw [hu] at hfloat
  have hback : v = signCast true S.signed u := by rw [← hu, signCast_signCast hw]
  rw [hfloat, convertToFixed, clampNumber_of_mem hlow hhigh, fixedScale_eq hp, Number.mul,
    mul_div_cancel₀ _ hpos.ne', rnd_of_representable hrep, ← roundCast_int hp hw hrep]
  constructor
  · intro h
    obtain ⟨u', hu', hv⟩ := Option.map_eq_some_iff.1 h
    have heq : u' = u := by
      rw [hback] at hv
      have := congrArg (signCast S.signed true) hv
      rwa [signCast_signCast hw, signCast_signCast hw] at this
    rw [hu', heq]
  · intro h
    rw [h, hback]; rfl

/-- The same of a signed type. -/
theorem roundtrip_signed_iff (hs : S.signed = true) {v : S.Val}
    (hrep : Representable R.digits v.toInt) (hle : v.toInt ≤ top R.digits S.bits) :
    convertToFixed S R (convertToFloating R S v) = some v ↔
      |v.toInt| < 2 ^ (R.digits - 1) ∨ Even v.toInt := by
  have hcast : signCast S.signed true v = v := by rw [signCast, if_pos hs]
  have h := convertToFixed_convertToFloating (R := R) (S := S) (v := v)
  rw [hcast] at h
  exact h hrep hle

/-- The signed integer type of the same size, which is wider than the floating
    type has digits. -/
def RealType.wide : RealType → IntType
  | float => ⟨true, .w32⟩
  | double => ⟨true, .w64⟩

theorem RealType.signed_wide (R : RealType) : R.wide.signed = true := by cases R <;> rfl

/-- **Wide samples** of at most as many bits as the floating type come back
    unchanged, except for the odd ones that take up all of its bits. -/
theorem wide_roundtrip_iff (R : RealType) (i : R.wide.Val) (h : |i.toInt| ≤ 2 ^ R.digits) :
    convertToFixed R.wide R (convertToFloating R R.wide i) = some i ↔
      |i.toInt| < 2 ^ (R.digits - 1) ∨ Even i.toInt := by
  have hp := R.digits_pos
  refine roundtrip_signed_iff R.signed_wide ?_ ?_
  · rcases h.lt_or_eq with hlt | heq
    · exact representable_int hlt
    · -- the bound itself is a power of two
      have hpow := representable_two_pow hp (R.digits : ℤ)
      rw [zpow_natCast] at hpow
      rcases abs_choice i.toInt with habs | habs
      · rw [← habs, heq]
        exact_mod_cast hpow
      · have hi : i.toInt = -2 ^ R.digits := by omega
        rw [hi]
        push_cast
        exact hpow.neg
  · exact (le_abs_self _).trans (h.trans (by cases R <;> decide))

theorem wide_roundtrip_even :
    convertToFixed ⟨true, .w32⟩ .float (convertToFloating .float ⟨true, .w32⟩ 8388610#32) =
        some 8388610#32 ↔
      |(8388610#32 : BitVec 32).toInt| < 2 ^ 23 ∨ Even (8388610#32 : BitVec 32).toInt :=
  wide_roundtrip_iff .float (8388610#32 : BitVec 32) (by decide)

/-- The odd samples between are changed: the sum with one half is rounded up. -/
theorem wide_not_exact :
    ¬ ((∀ i : BitVec 32, |i.toInt| ≤ 2 ^ 24 →
        convertToFixed ⟨true, .w32⟩ .float (convertToFloating .float ⟨true, .w32⟩ i) = some i) ∧
      (∀ i : BitVec 64, |i.toInt| ≤ 2 ^ 53 →
        convertToFixed ⟨true, .w64⟩ .double (convertToFloating .double ⟨true, .w64⟩ i) =
          some i)) := by
  rintro ⟨h, -⟩
  have hiff := roundtrip_signed_iff (R := .float) (S := RealType.float.wide) rfl
    (v := (8388609#32 : BitVec 32)) (representable_int (by decide)) (by decide)
  rcases hiff.1 (h 8388609#32 (by decide)) with hsmall | heven
  · exact absurd hsmall (by decide)
  · exact absurd heven (by decide)

end

/-! ## Casts of any value -/

section
variable {p w : ℕ}

/-- A number that is ordered is brought between the bounds. -/
theorem clampNumber_bounded {lo hi : ℚ} (hle : lo ≤ hi) {src : Number} (h : src ≠ .notANumber) :
    ∃ c, clampNumber src (.finite lo) (.finite hi) = .finite c ∧ lo ≤ c ∧ c ≤ hi := by
  cases src with
  | notANumber => exact absurd rfl h
  | infinity negative =>
    cases negative
    · exact ⟨hi, by simp [clampNumber, Number.less], hle, le_rfl⟩
    · exact ⟨lo, by simp [clampNumber, Number.less], le_rfl, hle⟩
  | finite q =>
    rcases lt_or_ge q lo with h1 | h1
    · exact ⟨lo, by simp [clampNumber, Number.less, h1], le_rfl, hle⟩
    · rcases lt_or_ge hi q with h2 | h2
      · exact ⟨hi, by simp [clampNumber, Number.less, not_lt.2 h1, h2], hle, le_rfl⟩
      · exact ⟨q, clampNumber_of_mem h1 h2, h1, h2⟩

theorem floor_rnd_top (hp : 0 < p) (hw : 2 ≤ w) : ⌊rnd p (top p w + 1 / 2)⌋ = top p w := by
  rw [floor_rnd_add_half hp (top_nonneg hp) (representable_top hp), if_pos]
  rcases Nat.lt_or_ge p w with h | h
  · have h1 : Even ((2 : ℤ) ^ (w - 1)) := even_two.pow_of_ne_zero (by omega)
    have h2 : Even ((2 : ℤ) ^ (w - p)) := even_two.pow_of_ne_zero (by omega)
    exact Or.inr (h1.sub h2)
  · left
    calc top p w < 2 ^ (w - 1) := top_lt
      _ ≤ 2 ^ (p - 1) := pow_le_pow_right₀ (by norm_num) (by omega)

theorem floor_rnd_scale (hp : 0 < p) (hw : 2 ≤ w) :
    ⌊rnd p (2 ^ (w - 1) + 1 / 2)⌋ = 2 ^ (w - 1) := by
  have hrep := representable_two_pow hp ((w - 1 : ℕ) : ℤ)
  rw [zpow_natCast] at hrep
  have heven : Even ((2 : ℤ) ^ (w - 1)) := even_two.pow_of_ne_zero (by omega)
  have h := floor_rnd_add_half hp (i := 2 ^ (w - 1)) (by positivity) (by push_cast; exact hrep)
  rw [if_pos (Or.inr heven)] at h
  push_cast at h
  exact h

/-- What lies between the bounds is cast into the range. -/
theorem truncate_inRange (hp : 0 < p) (hw : 2 ≤ w) {y : ℚ} (h1 : -2 ^ (w - 1) ≤ y)
    (h2 : y ≤ top p w) :
    ∃ n, (roundArgument p (.finite y)).truncate = some n ∧ InRange w n := by
  have hscale : (0 : ℤ) < 2 ^ (w - 1) := by positivity
  rcases lt_or_ge 0 y with hy | hy
  · have hpos : 0 < rnd p (y + 1 / 2) := rnd_pos hp (by linarith)
    refine ⟨⌊rnd p (y + 1 / 2)⌋, by rw [roundArgument_pos hy, truncate_of_nonneg hpos.le], ?_⟩
    have hle : ⌊rnd p (y + 1 / 2)⌋ ≤ top p w := by
      rw [← floor_rnd_top hp hw]
      exact Int.floor_le_floor (rnd_mono hp (by linarith))
    have hfloor : 0 ≤ ⌊rnd p (y + 1 / 2)⌋ := Int.floor_nonneg.2 hpos.le
    have htop := top_lt (p := p) (w := w)
    exact ⟨by omega, by omega⟩
  · have hpos : 0 < rnd p (-y + 1 / 2) := rnd_pos hp (by linarith)
    refine ⟨-⌊rnd p (-y + 1 / 2)⌋,
      by rw [roundArgument_nonpos hy, truncate_neg_of_pos hpos], ?_⟩
    have hle : ⌊rnd p (-y + 1 / 2)⌋ ≤ 2 ^ (w - 1) := by
      rw [← floor_rnd_scale hp hw]
      exact Int.floor_le_floor (rnd_mono hp (by linarith))
    have hfloor : 0 ≤ ⌊rnd p (-y + 1 / 2)⌋ := Int.floor_nonneg.2 hpos.le
    exact ⟨by omega, by omega⟩

/-- **The cast** is in the range for every value, unless it is not a number. -/
theorem castArgument_inRange_iff (hp : 0 < p) (hw : 2 ≤ w) (src : Number) :
    (∃ n, (castArgument p w src).truncate = some n ∧ InRange w n) ↔ src ≠ .notANumber := by
  constructor
  · rintro ⟨n, hn, -⟩ rfl
    cases hn
  · intro h
    have hpos : (0 : ℚ) < 2 ^ (w - 1) := by positivity
    have htop : (0 : ℚ) ≤ top p w := by exact_mod_cast top_nonneg (w := w) hp
    have hmax : (-1 : ℚ) ≤ maximum p w := by
      rw [maximum_eq hp]
      exact (show (-1 : ℚ) ≤ 0 by norm_num).trans (div_nonneg htop hpos.le)
    obtain ⟨c, hc, h1, h2⟩ := clampNumber_bounded hmax h
    have hneg : Representable p (-2 ^ (w - 1)) := by
      have hrep := representable_two_pow hp ((w - 1 : ℕ) : ℤ)
      rw [zpow_natCast] at hrep
      exact hrep.neg
    rw [maximum_eq hp, le_div_iff₀' hpos] at h2
    rw [castArgument, hc, fixedScale_eq hp, Number.mul]
    refine truncate_inRange hp hw (le_rnd hp hneg ?_) (rnd_le hp (representable_top hp) h2)
    calc (-2 ^ (w - 1) : ℚ) = 2 ^ (w - 1) * -1 := by ring
      _ ≤ 2 ^ (w - 1) * c := mul_le_mul_of_nonneg_left h1 hpos.le

end

end NiMedia
