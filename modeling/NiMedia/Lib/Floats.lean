/-
  Floating-point interchange formats.

  Lean's own model of floating-point numbers (`Float.Model`) says what number a
  bit pattern stands for (`unpack`), and how a number is encoded (`pack`).

  * `unpack_inj`: only NaNs have several bit patterns.
  * `Positive lo hi x`: the number `x` is positive, and its most significant
    digit is at a position from `lo` to `hi`; with a rule for each operation,
    from `positive_round`.
-/
import Mathlib

namespace Floats

open Float.Model Float.Model.UnpackedFloat

variable {spec : Format}

/-! ## Bit patterns -/

theorem unpack_isNaNBits {b : BitVec spec.numBits} (h : isNaNBits b) :
    unpack spec b = .notANumber := by
  simp only [isNaNBits, decide_eq_true_eq] at h
  rw [UnpackedFloat.unpack]
  simp only [h.1, h.2, if_true, if_false]

/-- Only NaNs have several bit patterns. -/
theorem unpack_inj (he : 2 ≤ spec.exponentBits) {a b : BitVec spec.numBits}
    (h : unpack spec a = unpack spec b) : a = b ∨ unpack spec a = .notANumber := by
  by_cases ha : isNaNBits a
  · exact .inr (unpack_isNaNBits ha)
  · by_cases hb : isNaNBits b
    · exact .inr (h.trans (unpack_isNaNBits hb))
    · left
      have hpack := congrArg (pack spec) h
      rwa [pack_unpack a he, pack_unpack b he, if_neg ha, if_neg hb] at hpack

/-! ## Rounding positive numbers -/

theorem shiftRight_succ (em : ExtendedMantissa) (k : ℕ) :
    em >>> (k + 1) = (em >>> k).shiftRightOne := rfl

theorem mantissa_shiftRight (em : ExtendedMantissa) : ∀ k : ℕ,
    (em >>> k).mantissa = em.mantissa / 2 ^ k
  | 0 => (Nat.div_one _).symm
  | k + 1 => by
    rw [shiftRight_succ, ExtendedMantissa.shiftRightOne, mantissa_shiftRight em k,
      Nat.div_div_eq_div_mul, pow_succ]

theorem roundedMantissa_bounds (em : ExtendedMantissa) :
    em.mantissa ≤ em.roundedMantissa ∧ em.roundedMantissa ≤ em.mantissa + 1 := by
  obtain ⟨m, r, s⟩ := em
  cases r <;> cases s <;>
    simp only [ExtendedMantissa.roundedMantissa, ExtendedMantissa.accuracy,
      Accuracy.roundToNearestEven] <;> omega

/-- A positive number with a mantissa of the format's precision, and with its
    most significant digit between the positions `lo` and `hi`. -/
def Positive (spec : Format) (lo hi : ℤ) (x : UnpackedFloat) : Prop :=
  ∃ m e h, x = .finite .positive m e h ∧ m < 2 ^ spec.mantissaBits ∧
    lo ≤ totalExponent m e ∧ totalExponent m e ≤ hi

variable (spec) in
/-- Where the mantissa is short enough, rounding does nothing. -/
theorem shiftToTargetExponent_short {m : ℕ} {e : ℤ}
    (h : spec.targetExponent (totalExponent m e) ≤ e) :
    shiftToTargetExponent spec m e .exact = (.ofMantissaAndAccuracy m .exact, e) := by
  have hk : (spec.targetExponent (totalExponent m e) - e).toNat = 0 := by omega
  simp only [shiftToTargetExponent, shiftToExponent, hk, Nat.cast_zero, add_zero]
  rfl

theorem targetExponent_of_le {t : ℤ} (h : spec.minExponent + spec.mantissaBits ≤ t) :
    spec.targetExponent t = t - spec.mantissaBits := by
  rw [Format.targetExponent]; omega

theorem totalExponent_eq {m k : ℕ} (h1 : 2 ^ k ≤ m) (h2 : m < 2 ^ (k + 1)) (e : ℤ) :
    totalExponent m e = k + 1 + e := by
  have hm : m ≠ 0 := by have := Nat.two_pow_pos k; omega
  rw [totalExponent, (Nat.log2_eq_iff hm).2 ⟨h1, h2⟩]

theorem round_short {m : ℕ} {e : ℤ} (hm : 0 < m)
    (h : spec.targetExponent (totalExponent m e) ≤ e) :
    roundWithAccuracy spec .positive m e .exact = .finite .positive m e hm := by
  have hr : (ExtendedMantissa.ofMantissaAndAccuracy m .exact).roundedMantissa = m := rfl
  have hm' : (ExtendedMantissa.ofMantissaAndAccuracy m .exact).mantissa = m := rfl
  simp only [roundWithAccuracy, shiftToTargetExponent_short spec h, hr, hm', dif_neg hm.ne']

variable (spec) in
/-- The first shift of a mantissa that is too long leaves `p` digits of it. -/
theorem shiftToTargetExponent_long {m k : ℕ} {e : ℤ}
    (hlog : m.log2 = spec.mantissaBitsWithoutImplicit + k)
    (h : spec.minExponent + spec.mantissaBits ≤ totalExponent m e) :
    ∃ em, shiftToTargetExponent spec m e .exact = (em, e + k) ∧ em.mantissa = m / 2 ^ k := by
  have hp : spec.mantissaBits = spec.mantissaBitsWithoutImplicit + 1 := Nat.add_comm _ _
  have htotal : totalExponent m e = m.log2 + 1 + e := rfl
  have hk : (spec.targetExponent (totalExponent m e) - e).toNat = k := by
    rw [targetExponent_of_le h]; omega
  refine ⟨ExtendedMantissa.ofMantissaAndAccuracy m .exact >>> k, ?_, mantissa_shiftRight _ k⟩
  simp only [shiftToTargetExponent, shiftToExponent, hk]

variable (spec) in
/-- **Rounding** a positive number moves its most significant digit by one
    position at most. -/
theorem positive_round {m : ℕ} {e : ℤ} (hm : 0 < m)
    (h : spec.minExponent + spec.mantissaBits ≤ totalExponent m e) :
    Positive spec (totalExponent m e) (totalExponent m e + 1)
      (roundWithAccuracy spec .positive m e .exact) := by
  have hp : spec.mantissaBits = spec.mantissaBitsWithoutImplicit + 1 := Nat.add_comm _ _
  have hlog := Nat.log2_self_le hm.ne'
  have hlog' := Nat.lt_log2_self (n := m)
  have htotal : totalExponent m e = m.log2 + 1 + e := rfl
  have htarget := targetExponent_of_le h
  by_cases hshort : m.log2 ≤ spec.mantissaBitsWithoutImplicit
  · refine ⟨m, e, hm, round_short hm (by omega), lt_of_lt_of_le hlog' ?_, le_rfl, by omega⟩
    exact Nat.pow_le_pow_right (by decide) (by omega)
  · have hlong : spec.mantissaBitsWithoutImplicit ≤ m.log2 := by omega
    obtain ⟨k, hk⟩ := Nat.exists_eq_add_of_le hlong
    obtain ⟨em, hem, hq⟩ := shiftToTargetExponent_long spec hk h
    obtain ⟨hr1, hr2⟩ := roundedMantissa_bounds em
    rw [hk] at hlog hlog'
    -- the mantissa is rounded up to a power of two at most
    have hq1 : 2 ^ spec.mantissaBitsWithoutImplicit ≤ em.mantissa := by
      rw [hq, Nat.le_div_iff_mul_le (Nat.two_pow_pos k), ← pow_add]; exact hlog
    have hq2 : em.mantissa < 2 ^ (spec.mantissaBitsWithoutImplicit + 1) := by
      rw [hq, Nat.div_lt_iff_lt_mul (Nat.two_pow_pos k), ← pow_add]
      exact lt_of_lt_of_eq hlog' (by ring)
    rcases Nat.lt_or_ge em.roundedMantissa (2 ^ (spec.mantissaBitsWithoutImplicit + 1)) with hr | hr
    · have hte := totalExponent_eq (hq1.trans hr1) hr (e + k)
      have hpos : 0 < em.roundedMantissa := by
        have := Nat.two_pow_pos spec.mantissaBitsWithoutImplicit; omega
      have hs := shiftToTargetExponent_short spec (m := em.roundedMantissa) (e := e + k)
        (by rw [targetExponent_of_le (by omega)]; omega)
      refine ⟨em.roundedMantissa, e + k, hpos, ?_, by rw [hp]; exact hr, by omega, by omega⟩
      simp only [roundWithAccuracy, hem, hs]
      exact dif_neg hpos.ne'
    · obtain hr : em.roundedMantissa = 2 ^ (spec.mantissaBitsWithoutImplicit + 1) := by omega
      have hpow : (2 ^ (spec.mantissaBitsWithoutImplicit + 1)).log2 =
          spec.mantissaBitsWithoutImplicit + 1 := Nat.log2_two_pow
      have hte : totalExponent (2 ^ (spec.mantissaBitsWithoutImplicit + 1)) (e + k) =
          spec.mantissaBitsWithoutImplicit + 1 + 1 + (e + k) := by rw [totalExponent, hpow]; omega
      obtain ⟨em', hem', hq'⟩ := shiftToTargetExponent_long spec (e := e + k) hpow
        (by omega)
      have hq'' : em'.mantissa = 2 ^ spec.mantissaBitsWithoutImplicit := by
        rw [hq', pow_one, pow_succ, Nat.mul_div_cancel _ (by decide)]
      have hpos := Nat.two_pow_pos spec.mantissaBitsWithoutImplicit
      have hte' := totalExponent_eq (le_refl (2 ^ spec.mantissaBitsWithoutImplicit))
        (Nat.pow_lt_pow_right (by decide) (Nat.lt_succ_self _)) (e + k + (1 : ℕ))
      refine ⟨2 ^ spec.mantissaBitsWithoutImplicit, e + k + (1 : ℕ), hpos, ?_, ?_, by omega,
        by omega⟩
      · simp only [roundWithAccuracy, hem, hr, hem', hq'']
        exact dif_neg hpos.ne'
      · rw [hp]; exact Nat.pow_lt_pow_right (by decide) (Nat.lt_succ_self _)

theorem log2_shiftLeft {m : ℕ} (hm : 0 < m) (k : ℕ) : (m <<< k).log2 = m.log2 + k := by
  have hlog := Nat.log2_self_le hm.ne'
  have hlog' := Nat.lt_log2_self (n := m)
  have hne : m <<< k ≠ 0 := by
    rw [Nat.shiftLeft_eq]; exact (Nat.mul_pos hm (Nat.two_pow_pos k)).ne'
  rw [Nat.log2_eq_iff hne, Nat.shiftLeft_eq, pow_add, Nat.add_right_comm, pow_add _ _ k]
  exact ⟨Nat.mul_le_mul_right _ hlog, Nat.mul_lt_mul_of_pos_right hlog' (Nat.two_pow_pos k)⟩

/-- Decreasing the exponent leaves the most significant digit where it is. -/
theorem totalExponent_decrease {m : ℕ} (hm : 0 < m) (e : ℤ) (k : ℕ) :
    totalExponent (m <<< k) (e - k) = totalExponent m e := by
  rw [totalExponent, totalExponent, log2_shiftLeft hm]; omega

theorem shiftLeft_pos {m : ℕ} (hm : 0 < m) (k : ℕ) : 0 < m <<< k := by
  rw [Nat.shiftLeft_eq]; exact Nat.mul_pos hm (Nat.two_pow_pos k)

variable (spec) in
theorem positive_round' {m : ℕ} {e : ℤ} (hm : 0 < m)
    (h : spec.minExponent + spec.mantissaBits ≤ totalExponent m e) :
    Positive spec (totalExponent m e) (totalExponent m e + 1)
      (UnpackedFloat.round spec .positive m e) := by
  generalize hk : (e - spec.targetExponent (totalExponent m e)).toNat = k
  have hte := totalExponent_decrease hm e k
  have hround := positive_round spec (shiftLeft_pos hm k) (e := e - k) (by rw [hte]; exact h)
  rw [hte] at hround
  simp only [UnpackedFloat.round, decreaseExponent, hk]
  exact hround

section
variable {lo hi lo' hi' : ℤ} {x y : UnpackedFloat}

theorem positive_mul (hx : Positive spec lo hi x) (hy : Positive spec lo' hi' y)
    (h : spec.minExponent + spec.mantissaBits ≤ lo + lo' - 1) :
    Positive spec (lo + lo' - 1) (hi + hi' + 1) (UnpackedFloat.mul spec x y) := by
  obtain ⟨m, e, hm, rfl, -, h1, h2⟩ := hx
  obtain ⟨m', e', hm', rfl, -, h1', h2'⟩ := hy
  have hmm : 0 < m * m' := Nat.mul_pos hm hm'
  -- the product of numbers of `a` and `b` digits has `a + b - 1` or `a + b` digits
  have hlo : m.log2 + m'.log2 ≤ (m * m').log2 := by
    rw [Nat.le_log2 hmm.ne', pow_add]
    exact Nat.mul_le_mul (Nat.log2_self_le hm.ne') (Nat.log2_self_le hm'.ne')
  have hhi : (m * m').log2 < m.log2 + 1 + (m'.log2 + 1) := by
    rw [Nat.log2_lt hmm.ne', pow_add]
    exact Nat.mul_lt_mul'' Nat.lt_log2_self Nat.lt_log2_self
  simp only [totalExponent] at h1 h2 h1' h2'
  obtain ⟨n, d, hn, hr, hlt, h3, h4⟩ := positive_round spec hmm (e := e + e')
    (by simp only [totalExponent]; omega)
  simp only [totalExponent] at h3 h4
  exact ⟨n, d, hn, hr, hlt, by simp only [totalExponent]; omega,
    by simp only [totalExponent]; omega⟩

theorem positive_add (hx : Positive spec lo hi x) (hy : Positive spec lo' hi' y)
    (h : spec.minExponent + spec.mantissaBits ≤ lo') :
    Positive spec lo' (max hi hi' + 2) (UnpackedFloat.add spec x y) := by
  obtain ⟨m, e, hm, rfl, -, h1, h2⟩ := hx
  obtain ⟨m', e', hm', rfl, -, h1', h2'⟩ := hy
  generalize hk : (e - min e e').toNat = k
  generalize hk' : (e' - min e e').toNat = k'
  have hlog := log2_shiftLeft hm k
  have hlog' := log2_shiftLeft hm' k'
  have hsum : 0 < m <<< k + m' <<< k' := Nat.add_pos_left (shiftLeft_pos hm k) _
  have hlo : m'.log2 + k' ≤ (m <<< k + m' <<< k').log2 := by
    rw [← hlog', Nat.le_log2 hsum.ne']
    exact (Nat.log2_self_le (shiftLeft_pos hm' k').ne').trans (Nat.le_add_left _ _)
  have hhi : (m <<< k + m' <<< k').log2 < max (m.log2 + k) (m'.log2 + k') + 2 := by
    have hle := Nat.lt_log2_self (n := m <<< k)
    have hle' := Nat.lt_log2_self (n := m' <<< k')
    have hp := Nat.pow_le_pow_right (n := 2) (by decide)
      (Nat.succ_le_succ (le_max_left (m.log2 + k) (m'.log2 + k')))
    have hp' := Nat.pow_le_pow_right (n := 2) (by decide)
      (Nat.succ_le_succ (le_max_right (m.log2 + k) (m'.log2 + k')))
    rw [hlog] at hle
    rw [hlog'] at hle'
    rw [Nat.log2_lt hsum.ne', pow_succ]
    simp only [Nat.succ_eq_add_one] at hp hp'
    omega
  have hcast : UnpackedFloat.Sign.apply .positive ((m <<< k : ℕ) : ℤ) +
      UnpackedFloat.Sign.apply .positive ((m' <<< k' : ℕ) : ℤ) =
      ((m <<< k + m' <<< k' : ℕ) : ℤ) := by
    simp only [Sign.apply]; push_cast; rfl
  have hcompare : compare ((m <<< k + m' <<< k' : ℕ) : ℤ) 0 = .gt := by
    rw [Int.compare_eq_gt]; exact_mod_cast hsum
  simp only [totalExponent] at h1 h2 h1' h2'
  obtain ⟨n, d, hn, hr, hlt, h3, h4⟩ := positive_round' spec hsum (e := min e e')
    (by simp only [totalExponent]; omega)
  simp only [totalExponent] at h3 h4
  refine ⟨n, d, hn, ?_, hlt, by simp only [totalExponent]; omega,
    by simp only [totalExponent]; omega⟩
  simp only [UnpackedFloat.add, decreaseExponent, hk, hk', hcast, UnpackedFloat.normalize,
    hcompare, Int.toNat_natCast]
  exact hr

theorem Positive.mono (h : Positive spec lo hi x) (hlo : lo' ≤ lo) (hhi : hi ≤ hi') :
    Positive spec lo' hi' x := by
  obtain ⟨m, e, hm, rfl, hlt, h1, h2⟩ := h
  exact ⟨m, e, hm, rfl, hlt, hlo.trans h1, h2.trans hhi⟩

end

variable (spec) in
theorem positive_ofNat {n : ℕ} (hn : 1 ≤ n) (h : spec.minExponent + spec.mantissaBits ≤ 1) :
    Positive spec (n.log2 + 1) (n.log2 + 2) (UnpackedFloat.ofNat spec n) := by
  have hcompare : compare (n : ℤ) 0 = .gt := by rw [Int.compare_eq_gt]; omega
  have hte : totalExponent n 0 = n.log2 + 1 := by rw [totalExponent, add_zero]
  have hround := positive_round' spec hn (e := 0) (by rw [hte]; omega)
  rw [hte, add_assoc] at hround
  simp only [UnpackedFloat.ofNat, UnpackedFloat.ofInt, UnpackedFloat.normalize, hcompare,
    Int.toNat_natCast]
  exact hround

/-- Truncation of a number that has digits before and after the point. -/
theorem toInt_positive {m : ℕ} {e : ℤ} (hm : 0 < m) (he : e ≤ 0) (a b : ℤ) :
    UnpackedFloat.toInt a b (.finite .positive m e hm) = ((m / 2 ^ (-e).toNat : ℕ) : ℤ) := by
  have h0 : (e - 0).toNat = 0 := by omega
  have h1 : (0 - (e - ((0 : ℕ) : ℤ))).toNat = (-e).toNat := by omega
  simp only [UnpackedFloat.toInt, roundToInt, decreaseExponent, shiftToExponent, h0, h1,
    mantissa_shiftRight, Sign.apply]
  rfl

end Floats
