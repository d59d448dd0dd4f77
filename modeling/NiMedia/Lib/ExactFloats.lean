/-
  Exact floating-point operations.

  Where the format has the result of an operation, the operation gives it.

  * `Stores spec v x`: `x` is the number `v`, zero or in its normal form.
  * `stores_round`: a number of the format is rounded to itself, whatever its
    digits are given as; `Stores.add`, `Stores.sub`, `Stores.mul` from it.
  * `Stores.lt_iff`, `Stores.toInt`: comparison and truncation are those of the
    numbers.
-/
import NiMedia.Lib.Floats
import NiMedia.Lib.Rounding

namespace Floats

open Float.Model Float.Model.UnpackedFloat Rounding

variable {spec : Format}

/-! ## Digits -/

section
variable {m M : ℕ} {e E : ℤ}

/-- A number with `w + 1` digits, as powers of two bound it. -/
theorem value_bounds {w : ℕ} (hm : 0 < m) (hlog : m.log2 = w) (e : ℤ) :
    (2 : ℚ) ^ (w + e) ≤ m * 2 ^ e ∧ (m : ℚ) * 2 ^ e < 2 ^ (w + e + 1) := by
  have hlow : (2 : ℚ) ^ w ≤ m := by
    rw [← hlog]
    exact_mod_cast Nat.log2_self_le hm.ne'
  have hup : (m : ℚ) < 2 ^ (w + 1) := by
    rw [← hlog]
    exact_mod_cast Nat.lt_log2_self
  have hpos : (0 : ℚ) < 2 ^ e := by positivity
  constructor
  · rw [zpow_add₀ two_ne_zero, zpow_natCast]
    exact mul_le_mul_of_nonneg_right hlow hpos.le
  · have hsplit : (2 : ℚ) ^ (w + e + 1) = 2 ^ (w + 1) * 2 ^ e := by
      rw [add_right_comm, zpow_add₀ two_ne_zero, ← zpow_natCast]
      norm_cast
    rw [hsplit]
    exact mul_lt_mul_of_pos_right hup hpos

/-- More digits, at a smaller exponent. -/
theorem mantissa_eq (h : (M : ℚ) * 2 ^ E = m * 2 ^ e) {k : ℕ} (hk : e + k = E) :
    m = M * 2 ^ k := by
  have hpos : (0 : ℚ) < 2 ^ e := by positivity
  rw [← hk, zpow_add₀ two_ne_zero, zpow_natCast, ← mul_assoc, mul_right_comm] at h
  exact_mod_cast (mul_right_cancel₀ hpos.ne' h).symm

theorem log2_mul_two_pow (hm : 0 < m) (k : ℕ) : (m * 2 ^ k).log2 = m.log2 + k := by
  rw [← Nat.shiftLeft_eq, log2_shiftLeft hm]

/-- The normal form: as many digits as the format has. -/
theorem exists_normal {w : ℕ} {v : ℚ} (h : Representable (w + 1) v) (hv : 0 < v) :
    ∃ (M : ℕ) (E : ℤ), 0 < M ∧ M.log2 = w ∧ v = M * 2 ^ E := by
  obtain ⟨a, b, ha, rfl⟩ := h
  have hpos : (0 : ℚ) < 2 ^ b := by positivity
  have hapos : 0 < a := by
    have := pos_of_mul_pos_left hv hpos.le
    exact_mod_cast this
  obtain ⟨n, rfl⟩ := Int.eq_ofNat_of_zero_le hapos.le
  have hn : 0 < n := Int.natCast_pos.1 hapos
  have hlt : n < 2 ^ (w + 1) := by
    rw [abs_of_pos hapos] at ha
    exact_mod_cast ha
  have hlog : n.log2 ≤ w := Nat.le_of_lt_succ ((Nat.log2_lt hn.ne').2 hlt)
  refine ⟨n * 2 ^ (w - n.log2), b - (w - n.log2 : ℕ), Nat.mul_pos hn (Nat.two_pow_pos _), ?_, ?_⟩
  · rw [log2_mul_two_pow hn]
    omega
  · push_cast
    rw [zpow_sub₀ two_ne_zero, zpow_natCast]
    field_simp

end

/-! ## Rounding what the format has -/

/-- Zeros that are shifted out leave no trace. -/
theorem shiftRight_multiple (M k : ℕ) :
    (ExtendedMantissa.mk (M * 2 ^ k) false false) >>> k = ⟨M, false, false⟩ := by
  induction k generalizing M with
  | zero =>
    rw [pow_zero, Nat.mul_one]
    rfl
  | succ k ih =>
    have hsplit : M * 2 ^ (k + 1) = M * 2 * 2 ^ k := by
      rw [pow_succ]
      ring
    rw [shiftRight_succ, hsplit, ih]
    simp [ExtendedMantissa.shiftRightOne]

theorem targetExponent_normal {M : ℕ} {E : ℤ} (hlog : M.log2 = spec.mantissaBitsWithoutImplicit)
    (hmin : spec.minExponent ≤ E) : spec.targetExponent (totalExponent M E) = E := by
  rw [Format.targetExponent, totalExponent, Format.mantissaBits, hlog]
  omega

theorem shiftToTargetExponent_multiple {M k : ℕ} {e : ℤ} (hM : 0 < M)
    (hlog : M.log2 = spec.mantissaBitsWithoutImplicit) (hmin : spec.minExponent ≤ e + k) :
    shiftToTargetExponent spec (M * 2 ^ k) e .exact = (⟨M, false, false⟩, e + k) := by
  have htotal : totalExponent (M * 2 ^ k) e = totalExponent M (e + k) := by
    rw [totalExponent, totalExponent, log2_mul_two_pow hM]
    omega
  have hk : (e + k - e).toNat = k := by omega
  simp only [shiftToTargetExponent, shiftToExponent, htotal, targetExponent_normal hlog hmin, hk,
    ExtendedMantissa.ofMantissaAndAccuracy, shiftRight_multiple]

theorem roundWithAccuracy_multiple (s : UnpackedFloat.Sign) {M k : ℕ} {e : ℤ} (hM : 0 < M)
    (hlog : M.log2 = spec.mantissaBitsWithoutImplicit) (hmin : spec.minExponent ≤ e + k) :
    roundWithAccuracy spec s (M * 2 ^ k) e .exact = .finite s M (e + k) hM := by
  have hsecond := shiftToTargetExponent_short spec (m := M) (targetExponent_normal hlog hmin).le
  have hrounded : (ExtendedMantissa.mk M false false).roundedMantissa = M := rfl
  have hmantissa : (ExtendedMantissa.ofMantissaAndAccuracy M .exact).mantissa = M := rfl
  simp only [roundWithAccuracy, shiftToTargetExponent_multiple hM hlog hmin, hrounded, hsecond,
    hmantissa, dif_neg hM.ne']

/-- A number of the format, whatever digits it is given with. -/
theorem round_eq (s : UnpackedFloat.Sign) {m M : ℕ} {e E : ℤ} (hM : 0 < M)
    (hlog : M.log2 = spec.mantissaBitsWithoutImplicit) (hmin : spec.minExponent ≤ E)
    (hvalue : (M : ℚ) * 2 ^ E = m * 2 ^ e) :
    UnpackedFloat.round spec s m e = .finite s M E hM := by
  rcases le_total e E with hle | hle
  · obtain ⟨k, rfl⟩ := Int.le.dest hle
    obtain rfl := mantissa_eq hvalue rfl
    have htotal : totalExponent (M * 2 ^ k) e = totalExponent M (e + k) := by
      rw [totalExponent, totalExponent, log2_mul_two_pow hM]
      omega
    have hk : (e - (e + k)).toNat = 0 := by omega
    simp only [UnpackedFloat.round, decreaseExponent, htotal, targetExponent_normal hlog hmin, hk,
      Nat.shiftLeft_zero, Nat.cast_zero, sub_zero]
    exact roundWithAccuracy_multiple s hM hlog hmin
  · obtain ⟨k, rfl⟩ := Int.le.dest hle
    obtain rfl := mantissa_eq hvalue.symm rfl
    have hm : 0 < m := Nat.pos_of_mul_pos_right hM
    have htotal : totalExponent m (E + k) = totalExponent (m * 2 ^ k) E := by
      rw [totalExponent, totalExponent, log2_mul_two_pow hm]
      omega
    have hk : (E + k - E).toNat = k := by omega
    simp only [UnpackedFloat.round, decreaseExponent, htotal, targetExponent_normal hlog hmin, hk,
      Nat.shiftLeft_eq, add_sub_cancel_right]
    have hround := roundWithAccuracy_multiple (k := 0) s hM hlog (e := E) (by simpa using hmin)
    simpa using hround

/-! ## Numbers in their normal form -/

/-- `x` is the number `v`: zero, or with all digits of the format. -/
def Stores (spec : Format) (v : ℚ) (x : UnpackedFloat) : Prop :=
  (v = 0 ∧ x = .zero .positive) ∨
    ∃ m e h, x = .finite .positive m e h ∧ m.log2 = spec.mantissaBitsWithoutImplicit ∧
      v = m * 2 ^ e

/-- The format has the number, and it is not too small for a normal form. -/
def Has (spec : Format) (v : ℚ) : Prop :=
  Representable (spec.mantissaBitsWithoutImplicit + 1) v ∧
    (v = 0 ∨ 2 ^ (spec.minExponent + spec.mantissaBitsWithoutImplicit) ≤ v)

section
variable {u v : ℚ} {x y : UnpackedFloat}

theorem Stores.nonneg (h : Stores spec v x) : 0 ≤ v := by
  rcases h with ⟨rfl, -⟩ | ⟨m, e, -, -, -, rfl⟩
  · exact le_rfl
  · positivity

theorem stores_zero (spec : Format) : Stores spec 0 (.zero .positive) := .inl ⟨rfl, rfl⟩

theorem stores_finite {m : ℕ} {e : ℤ} (hm : 0 < m)
    (hlog : m.log2 = spec.mantissaBitsWithoutImplicit) :
    Stores spec (m * 2 ^ e) (.finite .positive m e hm) := .inr ⟨m, e, hm, rfl, hlog, rfl⟩

theorem Has.exists_normal (h : Has spec v) (hv : 0 < v) :
    ∃ (M : ℕ) (E : ℤ), 0 < M ∧ M.log2 = spec.mantissaBitsWithoutImplicit ∧ spec.minExponent ≤ E ∧
      v = M * 2 ^ E := by
  obtain ⟨M, E, hM, hlog, rfl⟩ := Floats.exists_normal h.1 hv
  have hlow := h.2.resolve_left hv.ne'
  have hlt := hlow.trans_lt (value_bounds hM hlog E).2
  rw [zpow_lt_zpow_iff_right₀ (by norm_num)] at hlt
  exact ⟨M, E, hM, hlog, by omega, rfl⟩

/-- **A number of the format** is rounded to itself. -/
theorem stores_round {m : ℕ} {e : ℤ} (hm : 0 < m) (h : Has spec (m * 2 ^ e)) :
    Stores spec (m * 2 ^ e) (UnpackedFloat.round spec .positive m e) := by
  have hv : (0 : ℚ) < m * 2 ^ e := mul_pos (by exact_mod_cast hm) (by positivity)
  obtain ⟨M, E, hM, hlog, hmin, hvalue⟩ := h.exists_normal hv
  rw [round_eq .positive hM hlog hmin hvalue.symm, hvalue]
  exact stores_finite hM hlog

/-- There is one normal form. -/
theorem Stores.unique (hx : Stores spec v x) (hy : Stores spec v y) : x = y := by
  rcases hx with ⟨hv, rfl⟩ | ⟨m, e, hm, rfl, hlog, hv⟩
  · rcases hy with ⟨-, rfl⟩ | ⟨m', e', hm', rfl, -, hv'⟩
    · rfl
    · have hpos : (0 : ℚ) < m' * 2 ^ e' := mul_pos (by exact_mod_cast hm') (by positivity)
      exact absurd (hv.symm.trans hv') hpos.ne
  · rcases hy with ⟨hv', rfl⟩ | ⟨m', e', hm', rfl, hlog', hv'⟩
    · have hpos : (0 : ℚ) < m * 2 ^ e := mul_pos (by exact_mod_cast hm) (by positivity)
      exact absurd (hv'.symm.trans hv) hpos.ne
    · have hvalue := hv.symm.trans hv'
      have hle := (value_bounds hm hlog e).1.trans_lt
        (hvalue.trans_lt (value_bounds hm' hlog' e').2)
      have hle' := (value_bounds hm' hlog' e').1.trans_lt
        (hvalue.symm.trans_lt (value_bounds hm hlog e).2)
      rw [zpow_lt_zpow_iff_right₀ (by norm_num)] at hle hle'
      obtain rfl : e = e' := by omega
      obtain rfl : m' = m := (mantissa_eq (k := 0) hvalue (by simp)).trans (Nat.mul_one m)
      rfl

/-! ## Operations -/

theorem Stores.mul (hx : Stores spec u x) (hy : Stores spec v y) (h : Has spec (u * v)) :
    Stores spec (u * v) (UnpackedFloat.mul spec x y) := by
  rcases hx with ⟨rfl, rfl⟩ | ⟨m, e, hm, rfl, hlog, rfl⟩
  · rw [zero_mul]
    rcases hy with ⟨rfl, rfl⟩ | ⟨m', e', hm', rfl, hlog', rfl⟩ <;> exact stores_zero spec
  rcases hy with ⟨rfl, rfl⟩ | ⟨m', e', hm', rfl, hlog', rfl⟩
  · rw [mul_zero]
    exact stores_zero spec
  have hv : (0 : ℚ) < m * 2 ^ e * (m' * 2 ^ e') :=
    mul_pos (mul_pos (by exact_mod_cast hm) (by positivity))
      (mul_pos (by exact_mod_cast hm') (by positivity))
  obtain ⟨M, E, hM, hlogM, hmin, hvalue⟩ := h.exists_normal hv
  have hproduct : (M : ℚ) * 2 ^ E = (m * m' : ℕ) * 2 ^ (e + e') := by
    rw [← hvalue, zpow_add₀ two_ne_zero]
    push_cast
    ring
  -- the product has more digits than the format
  have hle : e + e' ≤ E := by
    have h1 := mul_le_mul (value_bounds hm hlog e).1 (value_bounds hm' hlog' e').1
      (by positivity) (by positivity)
    rw [← zpow_add₀ two_ne_zero, hvalue] at h1
    have hlt := h1.trans_lt (value_bounds hM hlogM E).2
    rw [zpow_lt_zpow_iff_right₀ (by norm_num)] at hlt
    omega
  obtain ⟨k, rfl⟩ := Int.le.dest hle
  have hmm := mantissa_eq hproduct rfl
  have hmul : UnpackedFloat.mul spec (.finite .positive m e hm) (.finite .positive m' e' hm') =
      roundWithAccuracy spec .positive (m * m') (e + e') .exact := rfl
  rw [hmul, hmm, roundWithAccuracy_multiple .positive hM hlogM hmin, hvalue]
  exact stores_finite hM hlogM

/-- Two mantissas at the smaller exponent. -/
theorem aligned_eq (m : ℕ) {e d : ℤ} (h : d ≤ e) :
    ((m <<< (e - d).toNat : ℕ) : ℚ) * 2 ^ d = m * 2 ^ e := by
  obtain ⟨k, rfl⟩ := Int.le.dest h
  have hk : (d + k - d).toNat = k := by omega
  rw [hk, Nat.shiftLeft_eq, zpow_add₀ two_ne_zero, zpow_natCast]
  push_cast
  ring

/-- A sum of positive numbers is rounded from its own digits. -/
theorem Stores.add_eq_round (hx : Stores spec u x) (hy : Stores spec v y) (hu : 0 < u)
    (hv : 0 < v) : ∃ (m : ℕ) (e : ℤ), 0 < m ∧ (m : ℚ) * 2 ^ e = u + v ∧
      UnpackedFloat.add spec x y = UnpackedFloat.round spec .positive m e := by
  rcases hx with ⟨rfl, -⟩ | ⟨m, e, hm, rfl, -, rfl⟩
  · exact absurd hu (lt_irrefl _)
  rcases hy with ⟨rfl, -⟩ | ⟨m', e', hm', rfl, -, rfl⟩
  · exact absurd hv (lt_irrefl _)
  have hleft := aligned_eq m (min_le_left e e')
  have hright := aligned_eq m' (min_le_right e e')
  have hpos := shiftLeft_pos hm (e - min e e').toNat
  simp only [UnpackedFloat.add, decreaseExponent, Sign.apply]
  generalize m <<< (e - min e e').toNat = a at hleft hpos ⊢
  generalize m' <<< (e' - min e e').toNat = b at hright ⊢
  have hsum : ((a + b : ℕ) : ℚ) * 2 ^ min e e' = m * 2 ^ e + m' * 2 ^ e' := by
    rw [← hleft, ← hright]
    push_cast
    ring
  have hcompare : compare ((a : ℤ) + b) 0 = .gt := by
    rw [Int.compare_eq_gt]
    omega
  have htoNat : ((a : ℤ) + b).toNat = a + b := by omega
  simp only [UnpackedFloat.normalize, hcompare, htoNat]
  exact ⟨a + b, min e e', Nat.add_pos_left hpos b, hsum, rfl⟩

theorem Stores.add (hx : Stores spec u x) (hy : Stores spec v y) (h : Has spec (u + v)) :
    Stores spec (u + v) (UnpackedFloat.add spec x y) := by
  rcases hx.nonneg.eq_or_lt with rfl | hu
  · rw [zero_add]
    obtain rfl := hx.unique (stores_zero spec)
    rcases hy with ⟨rfl, rfl⟩ | ⟨m', e', hm', rfl, hlog', rfl⟩
    · exact stores_zero spec
    · exact stores_finite hm' hlog'
  rcases hy.nonneg.eq_or_lt with rfl | hv
  · rw [add_zero]
    obtain rfl := hy.unique (stores_zero spec)
    rcases hx with ⟨rfl, rfl⟩ | ⟨m, e, hm, rfl, hlog, rfl⟩
    · exact stores_zero spec
    · exact stores_finite hm hlog
  obtain ⟨m, e, hm, hvalue, hadd⟩ := hx.add_eq_round hy hu hv
  rw [hadd, ← hvalue]
  exact stores_round hm (by rw [hvalue]; exact h)

theorem Stores.sub (hx : Stores spec u x) (hy : Stores spec v y) (h : Has spec (u - v)) :
    Stores spec (u - v) (UnpackedFloat.sub spec x y) := by
  rcases hy with ⟨rfl, rfl⟩ | ⟨m', e', hm', rfl, hlog', rfl⟩
  · rw [sub_zero]
    rcases hx with ⟨rfl, rfl⟩ | ⟨m, e, hm, rfl, hlog, rfl⟩
    · exact stores_zero spec
    · exact stores_finite hm hlog
  have hv' : (0 : ℚ) < m' * 2 ^ e' := mul_pos (by exact_mod_cast hm') (by positivity)
  have hnonneg : 0 ≤ u - m' * 2 ^ e' := by
    rcases h.2 with h0 | hlow
    · exact h0.ge
    · exact le_trans (by positivity) hlow
  rcases hx with ⟨rfl, rfl⟩ | ⟨m, e, hm, rfl, hlog, rfl⟩
  · linarith
  have hleft := aligned_eq m (min_le_left e e')
  have hright := aligned_eq m' (min_le_right e e')
  simp only [UnpackedFloat.sub, decreaseExponent, Sign.apply]
  generalize m <<< (e - min e e').toNat = a at hleft ⊢
  generalize m' <<< (e' - min e e').toNat = b at hright ⊢
  rw [← hleft, ← hright, ← sub_mul] at h hnonneg ⊢
  have hpow : (0 : ℚ) < 2 ^ min e e' := by positivity
  have hle : b ≤ a := by
    have := nonneg_of_mul_nonneg_left hnonneg hpow
    exact_mod_cast sub_nonneg.1 this
  rw [← Nat.cast_sub hle] at h ⊢
  have hsub : (a : ℤ) - b = (a - b : ℕ) := (Int.natCast_sub hle).symm
  simp only [UnpackedFloat.normalize, hsub]
  rcases Nat.eq_zero_or_pos (a - b) with h0 | hpos
  · rw [h0]
    simp only [Nat.cast_zero, zero_mul, Int.compare_eq_eq.2]
    exact stores_zero spec
  · have hcompare : compare ((a - b : ℕ) : ℤ) 0 = .gt := by
      rw [Int.compare_eq_gt]
      omega
    simp only [hcompare, Int.toNat_natCast]
    exact stores_round hpos h

/-- **Comparison** is that of the numbers: a larger exponent decides. -/
theorem Stores.lt_iff (hx : Stores spec u x) (hy : Stores spec v y) :
    x.lt y = true ↔ u < v := by
  rcases hx with ⟨rfl, rfl⟩ | ⟨m, e, hm, rfl, hlog, rfl⟩
  · rcases hy with ⟨rfl, rfl⟩ | ⟨m', e', hm', rfl, hlog', rfl⟩
    · exact iff_of_false (by decide) (lt_irrefl _)
    · exact iff_of_true rfl (mul_pos (by exact_mod_cast hm') (by positivity))
  rcases hy with ⟨rfl, rfl⟩ | ⟨m', e', hm', rfl, hlog', rfl⟩
  · refine iff_of_false Bool.false_ne_true (not_lt.2 ?_)
    positivity
  have hu := value_bounds hm hlog e
  have hv := value_bounds hm' hlog' e'
  simp only [UnpackedFloat.lt, UnpackedFloat.compare]
  rcases lt_trichotomy e e' with hlt | rfl | hlt
  · rw [Int.compare_eq_lt.2 hlt]
    refine iff_of_true rfl (hu.2.trans_le (le_trans ?_ hv.1))
    exact zpow_le_zpow_right₀ (by norm_num) (by omega)
  · rw [Int.compare_eq_eq.2 rfl]
    have hpow : (0 : ℚ) < 2 ^ e := by positivity
    rw [mul_lt_mul_iff_left₀ hpow, Nat.cast_lt, ← Nat.compare_eq_lt]
    cases compare m m' <;> decide
  · rw [Int.compare_eq_gt.2 hlt]
    refine iff_of_false Bool.false_ne_true (not_lt.2 (le_trans hv.2.le (le_trans ?_ hu.1)))
    exact zpow_le_zpow_right₀ (by norm_num) (by omega)

/-- **Truncation** of a number that has digits of the format behind the point, or
    its last one before it. -/
theorem Stores.toInt (hx : Stores spec u x)
    (h : u < 2 ^ (spec.mantissaBitsWithoutImplicit + 1)) (a b : ℤ) :
    x.toInt a b = ⌊u⌋ := by
  rcases hx with ⟨rfl, rfl⟩ | ⟨m, e, hm, rfl, hlog, rfl⟩
  · rw [Int.floor_zero]
    rfl
  have hle := (value_bounds hm hlog e).1.trans_lt h
  rw [← zpow_natCast, zpow_lt_zpow_iff_right₀ (by norm_num)] at hle
  push_cast at hle
  obtain ⟨k, rfl⟩ : ∃ k : ℕ, e = -k := ⟨(-e).toNat, by omega⟩
  have hk : (-(-(k : ℤ))).toNat = k := by omega
  rw [toInt_positive hm (by omega) a b, hk, zpow_neg, zpow_natCast, ← div_eq_mul_inv]
  exact_mod_cast (Rat.floor_natCast_div_natCast m (2 ^ k)).symm

end

/-! ## Rounding errors -/

/-- What is shifted out: the last of its digits, and whether it has others. -/
theorem shiftRight_digits (m k : ℕ) :
    (ExtendedMantissa.mk m false false) >>> (k + 1) =
      ⟨m / 2 ^ (k + 1), m / 2 ^ k % 2 != 0, m % 2 ^ k != 0⟩ := by
  induction k with
  | zero =>
    rw [pow_zero, Nat.mod_one, Nat.div_one]
    rfl
  | succ k ih =>
    have hmod : m % 2 ^ (k + 1) = m % 2 ^ k + 2 ^ k * (m / 2 ^ k % 2) := Nat.mod_pow_succ
    have hsticky : (m / 2 ^ k % 2 != 0 || m % 2 ^ k != 0) = (m % 2 ^ (k + 1) != 0) := by
      have hpow := Nat.two_pow_pos k
      rw [hmod]
      rcases Nat.mod_two_eq_zero_or_one (m / 2 ^ k) with h | h
      · rw [h, Nat.mul_zero, Nat.add_zero]
        rfl
      · have hne : (m % 2 ^ k + 2 ^ k * 1 != 0) = true := bne_iff_ne.2 (by omega)
        rw [h, hne]
        rfl
    have hdiv : m / 2 ^ (k + 1) / 2 = m / 2 ^ (k + 1 + 1) := by
      rw [Nat.div_div_eq_div_mul, ← pow_succ]
    rw [shiftRight_succ, ih, ExtendedMantissa.shiftRightOne]
    simp only [hdiv, hsticky]

/-- **To nearest**: half a unit of what is left is the greatest error. -/
theorem roundedMantissa_near {m k N : ℕ}
    (hN : ((ExtendedMantissa.mk m false false) >>> k).roundedMantissa = N) :
    2 * (N * 2 ^ k) ≤ 2 * m + 2 ^ k ∧ 2 * m ≤ 2 * (N * 2 ^ k) + 2 ^ k := by
  rw [← hN]
  cases k with
  | zero =>
    have hzero : ((ExtendedMantissa.mk m false false) >>> 0).roundedMantissa = m := rfl
    rw [hzero]
    omega
  | succ k =>
    have hdigits : m = m / 2 ^ (k + 1) * 2 ^ (k + 1) + (m / 2 ^ k % 2) * 2 ^ k + m % 2 ^ k := by
      have hmod : m % 2 ^ (k + 1) = m % 2 ^ k + 2 ^ k * (m / 2 ^ k % 2) := Nat.mod_pow_succ
      have hdiv := Nat.div_add_mod m (2 ^ (k + 1))
      rw [hmod] at hdiv
      linarith
    have hrest := Nat.mod_lt m (Nat.two_pow_pos k)
    rw [shiftRight_digits]
    generalize m / 2 ^ (k + 1) = q at hdigits ⊢
    generalize m % 2 ^ k = r at hdigits hrest ⊢
    rcases Nat.mod_two_eq_zero_or_one (m / 2 ^ k) with h | h
    · -- below one half
      have hround : ∀ c, (ExtendedMantissa.mk q (0 != 0) c).roundedMantissa = q := by
        intro c
        cases c <;> rfl
      rw [h] at hdigits ⊢
      rw [hround, pow_succ]
      rw [pow_succ] at hdigits
      constructor <;> linarith
    · rw [h] at hdigits ⊢
      rcases Nat.eq_zero_or_pos r with rfl | hr
      · -- one half
        have hround : (ExtendedMantissa.mk q (1 != 0) (0 != 0)).roundedMantissa = q + q % 2 := rfl
        rw [hround, pow_succ]
        rw [pow_succ] at hdigits
        rcases Nat.mod_two_eq_zero_or_one q with hq | hq
        · rw [hq]
          constructor <;> linarith
        · rw [hq]
          constructor <;> linarith
      · have hne : (r != 0) = true := bne_iff_ne.2 hr.ne'
        have hround : (ExtendedMantissa.mk q (1 != 0) true).roundedMantissa = q + 1 := rfl
        rw [hne, hround, pow_succ]
        rw [pow_succ] at hdigits
        constructor <;> linarith

variable (spec) in
/-- Where the mantissa has `k` digits too many, it is one of its two neighbours;
    the nearest one if nothing was cut off before. -/
theorem roundWithAccuracy_near {m k : ℕ} {e : ℤ} (a : Accuracy)
    (hlog : m.log2 = spec.mantissaBitsWithoutImplicit + k) (hmin : spec.minExponent ≤ e + k) :
    ∃ N : ℕ, Stores spec (N * 2 ^ (e + k)) (roundWithAccuracy spec .positive m e a) ∧
      m / 2 ^ k ≤ N ∧ N ≤ m / 2 ^ k + 1 ∧
      (a = .exact → 2 * (N * 2 ^ k) ≤ 2 * m + 2 ^ k ∧ 2 * m ≤ 2 * (N * 2 ^ k) + 2 ^ k) := by
  have hm : m ≠ 0 := by
    rintro rfl
    have := spec.hm
    rw [Nat.log2_zero] at hlog
    omega
  have hlow := Nat.log2_self_le hm
  have hup := Nat.lt_log2_self (n := m)
  have htarget : spec.targetExponent (totalExponent m e) = e + k := by
    rw [Format.targetExponent, totalExponent, Format.mantissaBits, hlog]
    omega
  have hk : (e + k - e).toNat = k := by omega
  have hfirst : shiftToTargetExponent spec m e a =
      (ExtendedMantissa.ofMantissaAndAccuracy m a >>> k, e + k) := by
    simp only [shiftToTargetExponent, shiftToExponent, htarget, hk]
  obtain ⟨hN1, hN2⟩ := roundedMantissa_bounds (ExtendedMantissa.ofMantissaAndAccuracy m a >>> k)
  have hmantissa : (ExtendedMantissa.ofMantissaAndAccuracy m a >>> k).mantissa = m / 2 ^ k := by
    rw [mantissa_shiftRight]
    rcases a with _ | (_ | _ | _) <;> rfl
  rw [hmantissa] at hN1 hN2
  generalize hN : (ExtendedMantissa.ofMantissaAndAccuracy m a >>> k).roundedMantissa = N at *
  have hnear : a = .exact → 2 * (N * 2 ^ k) ≤ 2 * m + 2 ^ k ∧
      2 * m ≤ 2 * (N * 2 ^ k) + 2 ^ k := by
    rintro rfl
    exact roundedMantissa_near hN
  refine ⟨N, ?_, hN1, hN2, hnear⟩
  -- the neighbour has as many digits as the format, or is the next power of two
  obtain ⟨M, j, hM, hlogM, rfl⟩ : ∃ M j : ℕ, 0 < M ∧
      M.log2 = spec.mantissaBitsWithoutImplicit ∧ N = M * 2 ^ j := by
    rw [hlog, pow_add] at hlow
    rw [hlog, Nat.add_right_comm, pow_add] at hup
    have hdiv1 := (Nat.le_div_iff_mul_le (Nat.two_pow_pos k)).2 hlow
    have hdiv2 := (Nat.div_lt_iff_lt_mul (Nat.two_pow_pos k)).2 hup
    have hpow := Nat.two_pow_pos spec.mantissaBitsWithoutImplicit
    rcases Nat.lt_or_ge N (2 ^ (spec.mantissaBitsWithoutImplicit + 1)) with hlt | hge
    · refine ⟨N, 0, by omega, ?_, by rw [pow_zero, Nat.mul_one]⟩
      exact (Nat.log2_eq_iff (by omega)).2 ⟨by omega, hlt⟩
    · refine ⟨2 ^ spec.mantissaBitsWithoutImplicit, 1, hpow, Nat.log2_two_pow, ?_⟩
      rw [pow_one]
      rw [pow_succ] at hge hdiv2
      omega
  have hresult : roundWithAccuracy spec .positive m e a = .finite .positive M (e + k + j) hM := by
    simp only [roundWithAccuracy, hfirst, hN,
      shiftToTargetExponent_multiple (k := j) (e := e + k) hM hlogM (by omega), dif_neg hM.ne']
  have hvalue : ((M * 2 ^ j : ℕ) : ℚ) * 2 ^ (e + k) = M * 2 ^ (e + k + j) := by
    rw [zpow_add₀ two_ne_zero (e + k), zpow_natCast]
    push_cast
    ring
  rw [hresult, hvalue]
  exact stores_finite hM hlogM

variable (spec) in
/-- **Half a unit** in the last of the digits is the greatest error. -/
theorem round_near {m : ℕ} {e : ℤ} (hm : 0 < m)
    (hmin : spec.minExponent + spec.mantissaBitsWithoutImplicit ≤ m.log2 + e) :
    ∃ (N : ℕ) (E : ℤ), Stores spec (N * 2 ^ E) (UnpackedFloat.round spec .positive m e) ∧
      (2 : ℚ) ^ (spec.mantissaBitsWithoutImplicit + E) ≤ m * 2 ^ e ∧
      (m : ℚ) * 2 ^ e < 2 ^ (spec.mantissaBitsWithoutImplicit + E + 1) ∧
      |(N : ℚ) * 2 ^ E - m * 2 ^ e| ≤ 2 ^ E / 2 := by
  rcases Nat.le_total m.log2 spec.mantissaBitsWithoutImplicit with hle | hle
  · obtain ⟨d, hd⟩ := Nat.exists_eq_add_of_le hle
    have hM : 0 < m * 2 ^ d := Nat.mul_pos hm (Nat.two_pow_pos d)
    have hlog : (m * 2 ^ d).log2 = spec.mantissaBitsWithoutImplicit := by
      rw [log2_mul_two_pow hm, hd]
    have hvalue : ((m * 2 ^ d : ℕ) : ℚ) * 2 ^ (e - d) = m * 2 ^ e := by
      rw [zpow_sub₀ two_ne_zero, zpow_natCast]
      push_cast
      field_simp
    have hbounds := value_bounds hM hlog (e - d)
    rw [hvalue] at hbounds
    refine ⟨m * 2 ^ d, e - d, ?_, hbounds.1, hbounds.2, ?_⟩
    · rw [round_eq .positive hM hlog (by omega) hvalue]
      exact stores_finite hM hlog
    · rw [hvalue, sub_self, abs_zero]
      positivity
  · obtain ⟨k, hk⟩ := Nat.exists_eq_add_of_le hle
    obtain ⟨N, hstores, -, -, hnear⟩ := roundWithAccuracy_near spec (m := m) (k := k)
      (e := e) .exact hk (by omega)
    obtain ⟨hnear1, hnear2⟩ := hnear rfl
    have hround : UnpackedFloat.round spec .positive m e =
        roundWithAccuracy spec .positive m e .exact := by
      have hzero : (e - spec.targetExponent (totalExponent m e)).toNat = 0 := by
        rw [Format.targetExponent, totalExponent, Format.mantissaBits, hk]
        omega
      simp only [UnpackedFloat.round, decreaseExponent, hzero, Nat.shiftLeft_zero, Nat.cast_zero,
        sub_zero]
    have hbounds := value_bounds hm hk e
    have hexp : ((spec.mantissaBitsWithoutImplicit + k : ℕ) : ℤ) + e =
        spec.mantissaBitsWithoutImplicit + (e + k) := by
      push_cast
      ring
    rw [hexp] at hbounds
    refine ⟨N, e + k, ?_, hbounds.1, hbounds.2, ?_⟩
    · rw [hround]
      exact hstores
    · have hsplit : (2 : ℚ) ^ (e + k) = 2 ^ k * 2 ^ e := by
        rw [zpow_add₀ two_ne_zero, zpow_natCast, mul_comm]
      have hpos : (0 : ℚ) < 2 ^ e := by positivity
      have h1 : (2 : ℚ) * (N * 2 ^ k) ≤ 2 * m + 2 ^ k := by exact_mod_cast hnear1
      have h2 : (2 : ℚ) * m ≤ 2 * (N * 2 ^ k) + 2 ^ k := by exact_mod_cast hnear2
      rw [hsplit, ← mul_assoc, ← sub_mul, abs_mul, abs_of_pos hpos, mul_div_right_comm]
      refine mul_le_mul_of_nonneg_right (abs_le.2 ⟨?_, ?_⟩) hpos.le <;> linarith

section
variable {u v : ℚ} {x y : UnpackedFloat}

/-- **A quotient** is off by two units in the last of its digits, at most. -/
theorem Stores.div_near (hx : Stores spec u x) (hy : Stores spec v y) (hu : 0 < u) (hv : 0 < v)
    (hmin : (2 : ℚ) ^ (spec.minExponent + spec.mantissaBitsWithoutImplicit + 1) * v ≤ u) :
    ∃ q, Stores spec q (UnpackedFloat.div spec x y) ∧
      |q - u / v| ≤ u / v * 2 ^ (1 - (spec.mantissaBitsWithoutImplicit : ℤ)) := by
  rcases hx with ⟨rfl, -⟩ | ⟨m, e, hm, rfl, hlog, rfl⟩
  · exact absurd hu (lt_irrefl _)
  rcases hy with ⟨rfl, -⟩ | ⟨m', e', hm', rfl, hlog', rfl⟩
  · exact absurd hv (lt_irrefl _)
  generalize hw : spec.mantissaBitsWithoutImplicit = w at *
  have hdigits := value_bounds hm hlog e
  have hdigits' := value_bounds hm' hlog' e'
  have hexp : spec.minExponent + w + 1 ≤ e - e' := by
    have hlt := (mul_le_mul_of_nonneg_left hdigits'.1 (by positivity)).trans_lt
      (hmin.trans_lt hdigits.2)
    rw [← zpow_add₀ two_ne_zero, zpow_lt_zpow_iff_right₀ (by norm_num)] at hlt
    omega
  -- the dividend has `w + 1` digits more than the divisor
  have htarget : min (e - e') (spec.targetExponent (totalExponent m e - totalExponent m' e')) =
      e - e' - (w + 1 : ℕ) := by
    rw [Format.targetExponent, totalExponent, totalExponent, Format.mantissaBits, hlog, hlog', hw]
    omega
  have hshift : (e - e' - (e - e' - (w + 1 : ℕ))).toNat = w + 1 := by omega
  have hdiv : UnpackedFloat.div spec (.finite .positive m e hm) (.finite .positive m' e' hm') =
      roundWithAccuracy spec .positive (m <<< (w + 1) / m') (e - e' - (w + 1 : ℕ))
        (accuracyOfFraction (m <<< (w + 1) % m') m') := by
    simp only [UnpackedFloat.div, divCore, htarget, hshift]
    rfl
  have hlow := Nat.log2_self_le hm.ne'
  have hup := Nat.lt_log2_self (n := m)
  have hlow' := Nat.log2_self_le hm'.ne'
  have hup' := Nat.lt_log2_self (n := m')
  rw [hlog] at hlow hup
  rw [hlog'] at hlow' hup'
  rw [Nat.shiftLeft_eq] at hdiv
  have hfloor := Nat.div_mul_le_self (m * 2 ^ (w + 1)) m'
  have hfloor' := Nat.lt_div_mul_add (a := m * 2 ^ (w + 1)) hm'
  have hpow := Nat.two_pow_pos w
  have hQ1 : 2 ^ w ≤ m * 2 ^ (w + 1) / m' := by
    rw [Nat.le_div_iff_mul_le hm']
    exact Nat.mul_le_mul hlow hup'.le
  have hQ2 : m * 2 ^ (w + 1) / m' < 2 ^ (w + 2) := by
    rw [Nat.div_lt_iff_lt_mul hm']
    calc m * 2 ^ (w + 1) < 2 ^ (w + 1) * 2 ^ (w + 1) :=
          Nat.mul_lt_mul_of_pos_right hup (Nat.two_pow_pos _)
      _ = 2 ^ (w + 2) * 2 ^ w := by ring
      _ ≤ 2 ^ (w + 2) * m' := Nat.mul_le_mul_left _ hlow'
  generalize m * 2 ^ (w + 1) / m' = Q at *
  obtain ⟨k, hk, hk1⟩ : ∃ k, Q.log2 = w + k ∧ k ≤ 1 := by
    have h1 := (Nat.le_log2 (by omega)).2 hQ1
    have h2 := (Nat.log2_lt (by omega)).2 hQ2
    exact ⟨Q.log2 - w, by omega, by omega⟩
  obtain ⟨N, hstores, hN1, hN2, -⟩ := roundWithAccuracy_near spec (m := Q) (k := k)
    (e := e - e' - (w + 1 : ℕ)) (accuracyOfFraction (m * 2 ^ (w + 1) % m') m')
    (by rw [hw]; exact hk) (by omega)
  refine ⟨N * 2 ^ (e - e' - (w + 1 : ℕ) + k), by rw [hdiv]; exact hstores, ?_⟩
  -- the mantissa against the exact quotient of the mantissas
  have hNk : Q ≤ N * 2 ^ k + 1 ∧ N * 2 ^ k ≤ Q + 2 := by
    have hmod := Nat.div_add_mod Q (2 ^ k)
    have hrest := Nat.mod_lt Q (Nat.two_pow_pos k)
    obtain rfl | rfl : k = 0 ∨ k = 1 := by omega
    · simp only [pow_zero, Nat.div_one, Nat.mul_one] at *
      omega
    · simp only [pow_one] at *
      omega
  generalize hc : (2 : ℚ) ^ (e - e' - (w + 1 : ℕ)) = c
  have hcpos : 0 < c := by
    rw [← hc]
    positivity
  have hmpos : (0 : ℚ) < m' := by exact_mod_cast hm'
  have hquotient : (m : ℚ) * 2 ^ e / (m' * 2 ^ e') = m * 2 ^ (w + 1) / m' * c := by
    rw [← hc, zpow_sub₀ two_ne_zero, zpow_sub₀ two_ne_zero, zpow_natCast]
    field_simp
  have hT1 : (Q : ℚ) ≤ m * 2 ^ (w + 1) / m' := by
    rw [le_div_iff₀ hmpos]
    exact_mod_cast hfloor
  have hT2 : (m : ℚ) * 2 ^ (w + 1) / m' < Q + 1 := by
    rw [div_lt_iff₀ hmpos, add_mul, one_mul]
    exact_mod_cast hfloor'
  have hvalue : (N : ℚ) * 2 ^ (e - e' - (w + 1 : ℕ) + k) = N * 2 ^ k * c := by
    rw [zpow_add₀ two_ne_zero, zpow_natCast, hc]
    ring
  have hN1' : (Q : ℚ) ≤ N * 2 ^ k + 1 := by exact_mod_cast hNk.1
  have hN2' : (N : ℚ) * 2 ^ k ≤ Q + 2 := by exact_mod_cast hNk.2
  have hQ1' : (2 : ℚ) ^ w ≤ Q := by exact_mod_cast hQ1
  rw [hvalue, hquotient]
  generalize (m : ℚ) * 2 ^ (w + 1) / m' = T at *
  have herror : |N * 2 ^ k - T| ≤ 2 := abs_le.2 ⟨by linarith, by linarith⟩
  have hunit : (2 : ℚ) ^ w * 2 ^ (1 - (w : ℤ)) = 2 := by
    rw [← zpow_natCast, ← zpow_add₀ two_ne_zero, add_sub_cancel, zpow_one]
  have hpos : (0 : ℚ) < 2 ^ (1 - (w : ℤ)) := by positivity
  calc |N * 2 ^ k * c - T * c| = |N * 2 ^ k - T| * c := by
        rw [← sub_mul, abs_mul, abs_of_pos hcpos]
    _ ≤ 2 * c := mul_le_mul_of_nonneg_right herror hcpos.le
    _ = 2 ^ w * 2 ^ (1 - (w : ℤ)) * c := by rw [hunit]
    _ ≤ T * 2 ^ (1 - (w : ℤ)) * c :=
        mul_le_mul_of_nonneg_right
          (mul_le_mul_of_nonneg_right (hQ1'.trans hT1) hpos.le) hcpos.le
    _ = T * c * 2 ^ (1 - (w : ℤ)) := mul_right_comm _ _ _

end

end Floats
