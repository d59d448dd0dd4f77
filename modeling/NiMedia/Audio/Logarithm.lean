/-
  The exponent of a rate, by a logarithm (`audio/ieee80.h`, `double_to_ieee_80`).

  The exponent is `log( val ) / log( 2.0 ) + 16383.0`, truncated.  The function
  `log` of the platform is not exact, and the quotient and the sum are rounded;
  near a power of two this could go either way.

  * `logTruncates_of_near`: if `log` is accurate to a few units in the last
    place, the exponent is the right one, or the next one.
  * `ieee80_survives`: so a whole rate is read back as it was written.
-/
import NiMedia.Audio.Ieee80Exact
import Mathlib.Analysis.SpecialFunctions.Log.Base

namespace NiMedia

open Words Float.Model Floats Double

/-- The platform's logarithm of `n` is accurate to eight units in the last place. -/
def Platform.logNear (P : Platform) (n : ℕ) : Prop :=
  ∃ v : ℚ, Stores v (P.log (.ofNat n)) ∧ |(v : ℝ) - Real.log n| ≤ Real.log n / 2 ^ 50

/-! ## The quotient -/

/-- A quotient of approximations. -/
theorem abs_div_sub_le {a b x y ε : ℝ} (hx : 0 ≤ x) (hy : 0 < y) (hε : 0 ≤ ε) (hε' : ε ≤ 1 / 4)
    (ha : |a - x| ≤ ε * x) (hb : |b - y| ≤ ε * y) :
    |a / b - x / y| ≤ x / y * (4 * ε) := by
  obtain ⟨ha1, ha2⟩ := abs_le.1 ha
  obtain ⟨hb1, hb2⟩ := abs_le.1 hb
  have hbpos : 0 < b := by nlinarith
  rw [div_sub_div _ _ hbpos.ne' hy.ne', abs_div, abs_of_pos (mul_pos hbpos hy),
    div_le_iff₀ (mul_pos hbpos hy)]
  have hrhs : x / y * (4 * ε) * (b * y) = 4 * ε * x * b := by
    field_simp
  have hεx : 0 ≤ ε * x := mul_nonneg hε hx
  have hεxy : 0 ≤ ε * x * y := mul_nonneg hεx hy.le
  have hlow : ε * x * (3 / 4 * y) ≤ ε * x * b := by
    refine mul_le_mul_of_nonneg_left ?_ hεx
    nlinarith
  have hay1 := mul_le_mul_of_nonneg_right ha1 hy.le
  have hay2 := mul_le_mul_of_nonneg_right ha2 hy.le
  have hbx1 := mul_le_mul_of_nonneg_right hb1 hx
  have hbx2 := mul_le_mul_of_nonneg_right hb2 hx
  have hsplit : a * y - b * x = (a - x) * y - (b - y) * x := by ring
  rw [hrhs, hsplit]
  exact abs_le.2 ⟨by linarith, by linarith⟩

section
variable {P : Platform} {n : ℕ}

theorem log_pos_of_two_le (hn : 2 ≤ n) : 0 < Real.log n := Real.log_pos (by exact_mod_cast hn)

theorem Platform.logNear.pos {v : ℚ} (hn : 2 ≤ n)
    (h : |(v : ℝ) - Real.log n| ≤ Real.log n / 2 ^ 50) : 0 < v := by
  have hlog := log_pos_of_two_le hn
  have hlow := (abs_le.1 h).1
  have hv : (0 : ℝ) < v := by linarith
  exact_mod_cast hv

/-- The quotient of the logarithms, for a rate that is not one. -/
theorem quotient_near (h2 : P.logNear 2) (h : P.logNear n) (hn : 2 ≤ n) (hlt : n < 2 ^ 53) :
    ∃ q : ℚ, Stores q (.div (P.log (.ofNat n)) (P.log (.ofNat 2))) ∧ 0 < q ∧ q < 64 ∧
      |(q : ℝ) - Real.logb 2 n| ≤ 2 ^ (-41 : ℤ) := by
  obtain ⟨v, hv, hvnear⟩ := h
  obtain ⟨w, hw, hwnear⟩ := h2
  have hvpos := Platform.logNear.pos hn hvnear
  have hwpos := Platform.logNear.pos le_rfl hwnear
  have hlog := log_pos_of_two_le hn
  rw [Nat.cast_ofNat] at hwnear
  have hlog2 : 0 < Real.log 2 := Real.log_pos (by norm_num)
  have hlog2n : Real.log 2 ≤ Real.log n := Real.log_le_log (by norm_num) (by exact_mod_cast hn)
  have hlogb : Real.logb 2 n = Real.log n / Real.log 2 := rfl
  have hlogb1 : 1 ≤ Real.logb 2 n := by
    rw [hlogb, le_div_iff₀ hlog2, one_mul]
    exact hlog2n
  have hlogb53 : Real.logb 2 n < 53 := by
    have hn' : (n : ℝ) < 2 ^ (53 : ℝ) := by exact_mod_cast hlt
    exact (Real.logb_lt_iff_lt_rpow (by norm_num) (by positivity)).2 hn'
  -- the dividend is not small against the divisor
  have hmin : (2 : ℚ) ^ (Format.minExponent .binary64 +
      (Format.mantissaBitsWithoutImplicit .binary64 : ℤ) + 1) * w ≤ v := by
    have hexp : Format.minExponent .binary64 +
        (Format.mantissaBitsWithoutImplicit .binary64 : ℤ) + 1 = -1021 := rfl
    have hpow : (2 : ℚ) ^ (-1021 : ℤ) ≤ 2 ^ (-1 : ℤ) :=
      zpow_le_zpow_right₀ (by norm_num) (by decide)
    have hhalf : (w : ℝ) ≤ 2 * v := by
      have h1 := (abs_le.1 hvnear).1
      have h2 := (abs_le.1 hwnear).2
      linarith
    have hhalf' : w ≤ 2 * v := by exact_mod_cast hhalf
    rw [hexp]
    refine (mul_le_mul_of_nonneg_right hpow hwpos.le).trans ?_
    rw [zpow_neg_one]
    linarith
  obtain ⟨q, hq, hqnear⟩ := hv.div_near hw hvpos hwpos hmin
  have hratio := abs_div_sub_le (ε := 1 / 2 ^ 50) hlog.le hlog2 (by positivity) (by norm_num)
    (by rwa [one_div_mul_eq_div]) (by rwa [one_div_mul_eq_div])
  rw [← hlogb] at hratio
  have hqnear' : |(q : ℝ) - v / w| ≤ v / w * 2 ^ (-51 : ℤ) := by
    have hcast : ((|q - v / w| : ℚ) : ℝ) ≤
        ((v / w * 2 ^ (1 - (Format.mantissaBitsWithoutImplicit .binary64 : ℤ)) : ℚ) : ℝ) := by
      exact_mod_cast hqnear
    push_cast at hcast
    exact hcast
  generalize (v : ℝ) / w = r at hratio hqnear'
  have hnear : |(q : ℝ) - Real.logb 2 n| ≤ 2 ^ (-41 : ℤ) := by
    obtain ⟨h1, h2⟩ := abs_le.1 hratio
    obtain ⟨h3, h4⟩ := abs_le.1 hqnear'
    norm_num at h1 h2 h3 h4 ⊢
    exact abs_le.2 ⟨by linarith, by linarith⟩
  obtain ⟨h1, h2⟩ := abs_le.1 hnear
  norm_num at h1 h2
  have hqpos : (0 : ℝ) < q := by linarith
  have hqlt : (q : ℝ) < 64 := by linarith
  have hqpos' : 0 < q := by exact_mod_cast hqpos
  have hqlt' : q < 64 := by exact_mod_cast hqlt
  exact ⟨q, Stores.fit hq (by linarith), hqpos', hqlt', hnear⟩

/-! ## The sum -/

/-- Rounding does not go below an integer that is passed by little: its last
    digit is worth more than that. -/
theorem floor_sum {q : ℚ} {x : Double} (hx : Stores q x) (hpos : 0 < q) (hlt : q < 64) {k : ℕ}
    (hk : 1 ≤ k) (hlow : (k : ℚ) - 1 / 2 ^ 41 ≤ q) (hup : q ≤ k + 1 + 1 / 2 ^ 41) :
    ∃ s, Stores s (.add x (.ofNat 16383)) ∧ (16383 + k : ℕ) ≤ s ∧ s < (16383 + k + 2 : ℕ) := by
  have hbias := stores_ofNat (n := 16383) (by decide)
  obtain ⟨m, e, hm, hvalue, hadd⟩ := hx.add_eq_round hbias hpos (by norm_num)
  have hk' : (1 : ℚ) ≤ k := by exact_mod_cast hk
  have ht1 : (2 : ℚ) ^ (13 : ℤ) ≤ m * 2 ^ e := by
    rw [hvalue]
    norm_num
    linarith
  have ht2 : (m : ℚ) * 2 ^ e < 2 ^ (15 : ℤ) := by
    rw [hvalue]
    norm_num
    linarith
  have hdigits := value_bounds hm rfl e
  have hlog := hdigits.2.trans_le' ht1
  rw [zpow_lt_zpow_iff_right₀ (by norm_num)] at hlog
  obtain ⟨N, E, hstores, hE1, hE2, hnear⟩ := round_near .binary64 (e := e) hm (by
    have hexp : Format.minExponent .binary64 +
        (Format.mantissaBitsWithoutImplicit .binary64 : ℤ) = -1022 := rfl
    rw [hexp]
    omega)
  have hw : (Format.mantissaBitsWithoutImplicit .binary64 : ℤ) = 52 := rfl
  rw [hw] at hE1 hE2
  have hE3 := hE2.trans_le' ht1
  have hE4 := hE1.trans_lt ht2
  rw [zpow_lt_zpow_iff_right₀ (by norm_num)] at hE3 hE4
  -- the last digit is at the position `-d`
  obtain ⟨d, rfl⟩ : ∃ d : ℕ, E = -d := ⟨(-E).toNat, by omega⟩
  have hdle : d ≤ 39 := by omega
  have hunit : (2 : ℚ) ^ (-(d : ℤ)) = 1 / 2 ^ d := by
    rw [zpow_neg, zpow_natCast, one_div]
  have hsmall : (1 : ℚ) / 2 ^ d ≤ 1 / 4 := by
    refine one_div_le_one_div_of_le (by norm_num) ?_
    have hpow : (2 : ℚ) ^ 2 ≤ 2 ^ d := pow_le_pow_right₀ (by norm_num) (by omega)
    linarith
  have hlarge : (1 : ℚ) / 2 ^ 39 ≤ 1 / 2 ^ d :=
    one_div_le_one_div_of_le (by positivity) (pow_le_pow_right₀ (by norm_num) hdle)
  rw [hunit] at hnear hstores
  rw [hvalue] at hnear
  obtain ⟨hnear1, hnear2⟩ := abs_le.1 hnear
  have hupper : (N : ℚ) * (1 / 2 ^ d) < (16383 + k + 2 : ℕ) := by
    push_cast
    linarith
  refine ⟨N * (1 / 2 ^ d), ?_, ?_, hupper⟩
  · have h64 : (N : ℚ) * (1 / 2 ^ d) < 2 ^ 64 := by linarith
    rw [Double.add, hadd]
    exact Stores.fit hstores h64
  · have hgap : ((16383 + k : ℕ) : ℚ) - 1 / 2 ^ d < N * (1 / 2 ^ d) := by
      push_cast
      linarith
    have hd : (0 : ℚ) < 2 ^ d := by positivity
    have hlt' : (16383 + k) * 2 ^ d < N + 1 := by
      have h : ((16383 + k : ℕ) : ℚ) * 2 ^ d - 1 < N := by
        rw [mul_one_div, lt_div_iff₀ hd, sub_mul, one_div_mul_cancel hd.ne'] at hgap
        exact hgap
      have h' : (((16383 + k) * 2 ^ d : ℕ) : ℚ) < (N + 1 : ℕ) := by
        push_cast at h ⊢
        linarith
      exact_mod_cast h'
    rw [mul_one_div, le_div_iff₀ hd]
    exact_mod_cast Nat.le_of_lt_succ hlt'

/-! ## The exponent -/

/-- `(short)` of a number that has digits before the point. -/
theorem short_stores {s : ℚ} {x : Double} (hx : Stores s x) {K : ℕ} (hlow : (K : ℚ) ≤ s)
    (hup : s < K + 2) (hK : K + 2 ≤ 2 ^ 15) : P.short x = K ∨ P.short x = K + 1 := by
  have hK' : (K : ℚ) + 2 ≤ 2 ^ 15 := by exact_mod_cast hK
  have hlt : s < 2 ^ (Format.mantissaBitsWithoutImplicit .binary64 + 1) := by
    have hw : Format.mantissaBitsWithoutImplicit .binary64 + 1 = 53 := rfl
    rw [hw]
    linarith
  have htoInt := hx.toInt hlt 0 0
  have hfinite : x.isFinite = true := by
    rcases hx with ⟨-, rfl⟩ | ⟨m, e, hm, rfl, -⟩ <;> rfl
  have hfloor1 : (K : ℤ) ≤ ⌊s⌋ := Int.le_floor.2 (by exact_mod_cast hlow)
  have hfloor2 : ⌊s⌋ < K + 2 := Int.floor_lt.2 (by exact_mod_cast hup)
  rw [Platform.short, Platform.toInteger, htoInt, if_pos ⟨hfinite, by omega, by omega⟩,
    wrap_of_range (by norm_num; omega) (by norm_num; omega)]
  omega

/-- **The exponent** is the position of the first digit, or the next one. -/
theorem logTruncates_of_near (h2 : P.logNear 2) (h : P.logNear n) (hn : 1 ≤ n)
    (hlt : n < 2 ^ 53) : P.logTruncates n := by
  have hlog53 : n.log2 < 53 := (Nat.log2_lt (by omega)).2 hlt
  rw [Platform.logTruncates, biasedLog]
  rcases hn.eq_or_lt with rfl | hn2
  · -- the logarithm of one is zero
    obtain ⟨v, hv, hvnear⟩ := h
    obtain ⟨w, hw, hwnear⟩ := h2
    have hwpos := Platform.logNear.pos le_rfl hwnear
    rw [Nat.cast_one, Real.log_one, zero_div, sub_zero] at hvnear
    have hv0 : (v : ℝ) = 0 := abs_nonpos_iff.1 hvnear
    obtain rfl : v = 0 := by exact_mod_cast hv0
    have hdiv : Double.div (P.log (.ofNat 1)) (P.log (.ofNat 2)) = .zero .positive := by
      rw [hv.unique (stores_zero _)]
      rcases hw with ⟨rfl, -⟩ | ⟨m, e, hm, hx, -⟩
      · exact absurd hwpos (lt_irrefl _)
      · rw [hx]
        rfl
    have hsum : Double.add (.zero .positive) (.ofNat 16383) = .ofNat 16383 := rfl
    have hbias := stores_ofNat (n := 16383) (by decide)
    have hshort := short_stores (P := P) hbias (K := 16383) le_rfl (by norm_num) (by decide)
    have hlog1 : Nat.log2 1 = 0 := by decide
    rw [hdiv, hsum, hlog1]
    exact hshort
  · obtain ⟨q, hq, hqpos, hqlt, hqnear⟩ := quotient_near h2 h hn2 hlt
    obtain ⟨hnear1, hnear2⟩ := abs_le.1 hqnear
    have hne : n ≠ 0 := by omega
    have hpos : (0 : ℝ) < n := by exact_mod_cast hn
    have hlogb1 : (n.log2 : ℝ) ≤ Real.logb 2 n := by
      rw [Real.le_logb_iff_rpow_le (by norm_num) hpos, Real.rpow_natCast]
      exact_mod_cast Nat.log2_self_le hne
    have hlogb2 : Real.logb 2 n < (n.log2 + 1 : ℕ) := by
      rw [Real.logb_lt_iff_lt_rpow (by norm_num) hpos, Real.rpow_natCast]
      exact_mod_cast Nat.lt_log2_self
    push_cast at hlogb2
    norm_num at hnear1 hnear2
    have hlow : (((n.log2 : ℚ) - 1 / 2 ^ 41 : ℚ) : ℝ) ≤ q := by
      push_cast
      linarith
    have hup : (q : ℝ) ≤ ((n.log2 + 1 + 1 / 2 ^ 41 : ℚ) : ℝ) := by
      push_cast
      linarith
    have hlog1 : 1 ≤ n.log2 := (Nat.le_log2 hne).2 hn2
    obtain ⟨s, hs, hs1, hs2⟩ := floor_sum hq hqpos hqlt hlog1 (Rat.cast_le.1 hlow)
      (Rat.cast_le.1 hup)
    have hshort := short_stores (P := P) hs hs1 (by exact_mod_cast hs2) (by omega)
    push_cast at hshort
    exact hshort

/-- **A whole rate** survives the format, on a platform with an accurate
    logarithm. -/
theorem ieee80_survives (h2 : P.logNear 2) (h : P.logNear n) (hn : 1 ≤ n) (hlt : n < 2 ^ 53) :
    ∃ bs, doubleToIeee80 P (.ofNat n) = .ok bs ∧ ieee80ToDouble bs = .ofNat n :=
  ieee80_exact (logTruncates_of_near h2 h hn hlt) hn hlt

end

/-! ## A platform -/

/-- A positive number, rounded down. -/
noncomputable def Double.down (r : ℝ) : Double :=
  let k := Int.log 2 r
  let m := ⌊r * 2 ^ (52 - k)⌋₊
  if hm : 0 < m then .finite .positive m (k - 52) hm else .zero .positive

/-- The number that a double is, if it is positive. -/
noncomputable def Double.toReal : Double → ℝ
  | .finite .positive m e _ => m * 2 ^ e
  | _ => 0

/-- A platform whose logarithm is the one of the reals, rounded down. -/
noncomputable def Platform.real : Platform where
  log x := .down (Real.log x.toReal)
  unrepresentable _ := 0

theorem Double.toReal_of_stores {v : ℚ} {x : Double} (h : Stores v x) : x.toReal = v := by
  rcases h with ⟨rfl, rfl⟩ | ⟨m, e, hm, rfl, -, rfl⟩
  · exact Rat.cast_zero.symm
  · rw [Double.toReal]
    push_cast
    rfl

theorem Double.down_zero : Double.down 0 = .zero .positive := by
  simp [Double.down]

theorem Double.down_near {r : ℝ} (hr : 0 < r) :
    ∃ v, Stores v (Double.down r) ∧ |(v : ℝ) - r| ≤ r / 2 ^ 50 := by
  have hlow := Int.zpow_log_le_self (b := 2) (by norm_num) hr
  have hup := Int.lt_zpow_succ_log_self (b := 2) (by norm_num) r
  push_cast at hlow hup
  unfold Double.down
  simp only
  generalize Int.log 2 r = k at hlow hup ⊢
  have hscale : (0 : ℝ) < 2 ^ (52 - k) := by positivity
  have hback : (2 : ℝ) ^ (k - 52) * 2 ^ (52 - k) = 1 := by
    rw [← zpow_add₀ two_ne_zero, sub_add_sub_cancel, sub_self, zpow_zero]
  have hmant1 : (2 : ℝ) ^ 52 ≤ r * 2 ^ (52 - k) := by
    have h := mul_le_mul_of_nonneg_right hlow hscale.le
    rw [← zpow_add₀ two_ne_zero, add_sub_cancel] at h
    exact_mod_cast h
  have hmant2 : r * 2 ^ (52 - k) < (2 : ℝ) ^ 53 := by
    have h := mul_lt_mul_of_pos_right hup hscale
    rw [← zpow_add₀ two_ne_zero, add_right_comm, add_sub_cancel] at h
    exact_mod_cast h
  have hfloor1 := Nat.floor_le (mul_nonneg hr.le hscale.le)
  have hfloor2 := Nat.lt_floor_add_one (r * 2 ^ (52 - k))
  have hlow52 : 2 ^ 52 ≤ ⌊r * 2 ^ (52 - k)⌋₊ := Nat.le_floor (by exact_mod_cast hmant1)
  have hlt53 : ⌊r * 2 ^ (52 - k)⌋₊ < 2 ^ 53 :=
    (Nat.floor_lt (mul_nonneg hr.le hscale.le)).2 (by exact_mod_cast hmant2)
  generalize ⌊r * 2 ^ (52 - k)⌋₊ = m at *
  have hm : 0 < m := by omega
  rw [dif_pos hm]
  refine ⟨m * 2 ^ (k - 52), stores_finite hm ((Nat.log2_eq_iff hm.ne').2 ⟨hlow52, hlt53⟩), ?_⟩
  -- less than one unit of the mantissa is lost
  have hvalue : r = r * 2 ^ (52 - k) * 2 ^ (k - 52) := by
    rw [mul_assoc, mul_comm ((2 : ℝ) ^ (52 - k)), hback, mul_one]
  have hunit : (0 : ℝ) < 2 ^ (k - 52) := by positivity
  generalize r * 2 ^ (52 - k) = t at *
  push_cast
  rw [hvalue, ← sub_mul, abs_mul, abs_of_pos hunit, mul_div_right_comm]
  refine mul_le_mul_of_nonneg_right (abs_le.2 ⟨?_, ?_⟩) hunit.le
  · linarith
  · linarith

theorem logNear_real {n : ℕ} (hn : 1 ≤ n) (hlt : n < 2 ^ 53) : Platform.real.logNear n := by
  have htoReal : (Double.ofNat n).toReal = n := by
    rw [Double.toReal_of_stores (stores_ofNat hlt)]
    push_cast
    rfl
  have hlog : Platform.real.log (.ofNat n) = .down (Real.log n) :=
    congrArg (fun r => Double.down (Real.log r)) htoReal
  rw [Platform.logNear, hlog]
  rcases hn.eq_or_lt with rfl | hn2
  · refine ⟨0, ?_, by simp⟩
    rw [Nat.cast_one, Real.log_one, Double.down_zero]
    exact stores_zero _
  · exact Double.down_near (log_pos_of_two_le hn2)

/-- A sample rate of compact discs. -/
theorem ieee80_survives_44100 : ∃ bs, doubleToIeee80 Platform.real (.ofNat 44100) = .ok bs ∧
    ieee80ToDouble bs = .ofNat 44100 :=
  ieee80_survives (logNear_real (by decide) (by decide)) (logNear_real (by decide) (by decide))
    (by decide) (by decide)

end NiMedia
