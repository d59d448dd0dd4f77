/-
  Rates that survive the IEEE 80 bit format (`audio/ieee80.h`).

  A whole rate of up to 53 bits has a mantissa of 53 bits at most: all the
  arithmetic of both conversions is exact on it.  The exponent is found by a
  logarithm, which may be rounded up to the next integer; the mantissa is not
  normal then, but it has room.

  * `ieee80_exact`: the rate that is read back is the one that was written.
-/
import NiMedia.Lib.ExactFloats
import NiMedia.Audio.Ieee80

namespace NiMedia

open Bytes Words Float.Model Floats

namespace Double

/-! ## Exact doubles -/

abbrev Stores (v : ℚ) (x : Double) : Prop := Floats.Stores .binary64 v x

section
variable {n m j : ℕ} {k : ℤ} {u v : ℚ} {x y : Double}

/-- `double` has the numbers of 53 bits. -/
theorem has_of_lt (hn : n < 2 ^ 53) (hk : -1022 ≤ k) : Has .binary64 (n * 2 ^ k) := by
  refine ⟨⟨n, k, by rw [Nat.abs_cast]; exact_mod_cast hn, rfl⟩, ?_⟩
  rcases Nat.eq_zero_or_pos n with rfl | hpos
  · exact .inl (by rw [Nat.cast_zero, zero_mul])
  · have hle : (1 : ℚ) ≤ n := by exact_mod_cast hpos
    have hpow : (2 : ℚ) ^ (-1022 : ℤ) ≤ 2 ^ k := zpow_le_zpow_right₀ (by norm_num) hk
    exact .inr (hpow.trans (le_mul_of_one_le_left (by positivity) hle))

theorem fit_of_stores (h : Stores v x) (hv : v < 2 ^ 64) : fit x = x := by
  rcases h with ⟨-, rfl⟩ | ⟨m, e, hm, rfl, hlog, rfl⟩
  · rfl
  · have hlt := (value_bounds hm hlog e).1.trans_lt hv
    rw [← zpow_natCast, zpow_lt_zpow_iff_right₀ (by norm_num)] at hlt
    have htotal : totalExponent m e = m.log2 + 1 + e := rfl
    exact if_neg (by omega)

theorem Stores.fit (h : Stores v x) (hv : v < 2 ^ 64) : Stores v (fit x) := by
  rw [fit_of_stores h hv]
  exact h

theorem stores_ofNat (hn : n < 2 ^ 53) : Stores n (ofNat n) := by
  have hlt : (n : ℚ) < 2 ^ 64 := by
    have h : n < 2 ^ 64 := by omega
    exact_mod_cast h
  rcases Nat.eq_zero_or_pos n with rfl | hpos
  · exact .inl ⟨Nat.cast_zero, rfl⟩
  · have hcompare : compare (n : ℤ) 0 = .gt := by
      rw [Int.compare_eq_gt]
      omega
    have hround := stores_round hpos (has_of_lt (k := 0) hn (by decide))
    rw [zpow_zero, mul_one] at hround
    refine Stores.fit ?_ hlt
    simpa only [UnpackedFloat.ofNat, UnpackedFloat.ofInt, UnpackedFloat.normalize, hcompare,
      Int.toNat_natCast] using hround

theorem stores_pow2 (hlo : -1022 ≤ k) (hhi : k ≤ 63) : Stores (2 ^ k) (pow2 k) := by
  have hround : Floats.Stores .binary64 _ _ :=
    stores_round Nat.one_pos (has_of_lt (n := 1) (k := k) (by decide) hlo)
  rw [Nat.cast_one, one_mul] at hround
  refine Stores.fit hround ?_
  rw [← zpow_natCast, zpow_lt_zpow_iff_right₀ (by norm_num)]
  omega

/-- The operations, where the result is `n` at the exponent `k`. -/
theorem Stores.mul' (hx : Stores u x) (hy : Stores v y) (h : u * v = n * 2 ^ k)
    (hn : n < 2 ^ 53) (hk : -1022 ≤ k) (hlt : u * v < 2 ^ 64) :
    Stores (n * 2 ^ k) (Double.mul x y) := by
  rw [← h]
  exact Stores.fit (hx.mul hy (by rw [h]; exact has_of_lt hn hk)) hlt

theorem Stores.add' (hx : Stores u x) (hy : Stores v y) (h : u + v = n * 2 ^ k)
    (hn : n < 2 ^ 53) (hk : -1022 ≤ k) (hlt : u + v < 2 ^ 64) :
    Stores (n * 2 ^ k) (Double.add x y) := by
  rw [← h]
  exact Stores.fit (hx.add hy (by rw [h]; exact has_of_lt hn hk)) hlt

theorem Stores.sub' (hx : Stores u x) (hy : Stores v y) (h : u - v = n * 2 ^ k)
    (hn : n < 2 ^ 53) (hk : -1022 ≤ k) (hlt : u - v < 2 ^ 64) :
    Stores (n * 2 ^ k) (Double.sub x y) := by
  rw [← h]
  exact Stores.fit (hx.sub hy (by rw [h]; exact has_of_lt hn hk)) hlt

end

end Double

open Double

/-! ## Conversions of exact doubles -/

section
variable {P : Platform} {N j A : ℕ} {x : Double}

theorem floor_shifted (N j : ℕ) : ⌊(N : ℚ) * 2 ^ (-(j : ℤ))⌋ = (N / 2 ^ j : ℕ) := by
  rw [zpow_neg, zpow_natCast, ← div_eq_mul_inv]
  exact_mod_cast Rat.floor_natCast_div_natCast N (2 ^ j)

theorem shifted_lt (hN : N < 2 ^ 53) (j : ℕ) : (N : ℚ) * 2 ^ (-(j : ℤ)) < 2 ^ 53 := by
  have hpow : (2 : ℚ) ^ (-(j : ℤ)) ≤ 1 := zpow_le_one_of_nonpos₀ (by norm_num) (by omega)
  have hlt : (N : ℚ) < 2 ^ 53 := by exact_mod_cast hN
  exact (mul_le_of_le_one_right (Nat.cast_nonneg N) hpow).trans_lt hlt

/-- `(unsigned long)` truncates. -/
theorem ulong_stores (h : Stores (N * 2 ^ (-(j : ℤ))) x) (hN : N < 2 ^ 53) :
    P.ulong x = N / 2 ^ j := by
  have htoInt := h.toInt (shifted_lt hN j) 0 0
  rw [floor_shifted] at htoInt
  have hle : N / 2 ^ j ≤ N := Nat.div_le_self N _
  have hfinite : x.isFinite = true := by
    rcases h with ⟨-, rfl⟩ | ⟨m, e, hm, rfl, -⟩ <;> rfl
  generalize N / 2 ^ j = q at htoInt hle ⊢
  rw [Platform.ulong, Platform.toInteger, htoInt, if_pos ⟨hfinite, by omega, by omega⟩]
  omega

theorem stores_dpow2to31 : Stores (2 ^ 31) dpow2to31 := by
  have h := stores_ofNat (n := 0x80000000) (by decide)
  have hcast : ((0x80000000 : ℕ) : ℚ) = 2 ^ 31 := by norm_num
  rw [hcast] at h
  exact h

/-- A number below 2³² is truncated, bit 31 by itself. -/
theorem myDoubleToUlong_stores (h : Stores (N * 2 ^ (-(j : ℤ))) x) (hN : N < 2 ^ 53)
    (hj : j ≤ 1000) (hlt : N / 2 ^ j < 2 ^ 32) : myDoubleToUlong P x = .ok (N / 2 ^ j) := by
  have hzero : x.lt (Double.ofNat 0) = false := by
    have hiff := h.lt_iff (stores_ofNat (n := 0) (by decide))
    rw [Nat.cast_zero] at hiff
    exact Bool.eq_false_iff.2 fun hx => absurd (hiff.1 hx) (not_lt.2 h.nonneg)
  have hpow : (0 : ℚ) < 2 ^ (-(j : ℤ)) := by positivity
  have hone : (2 : ℚ) ^ j * 2 ^ (-(j : ℤ)) = 1 := by
    rw [zpow_neg, zpow_natCast, mul_inv_cancel₀ (by positivity)]
  rw [myDoubleToUlong, hzero, if_neg (by decide)]
  by_cases hsmall : x.lt dpow2to31 = true
  · rw [if_pos hsmall, ulong_stores h hN]
    rfl
  · rw [if_neg hsmall]
    -- the rest is below 2³¹
    have hbig : 2 ^ 31 * 2 ^ j ≤ N := by
      rw [h.lt_iff stores_dpow2to31, not_lt] at hsmall
      have hle : (2 : ℚ) ^ 31 * 2 ^ j * 2 ^ (-(j : ℤ)) ≤ N * 2 ^ (-(j : ℤ)) := by
        rw [mul_assoc, hone, mul_one]
        exact hsmall
      exact_mod_cast le_of_mul_le_mul_right hle hpow
    have hsub : Stores ((N - 2 ^ 31 * 2 ^ j : ℕ) * 2 ^ (-(j : ℤ))) (Double.sub x dpow2to31) := by
      refine h.sub' stores_dpow2to31 ?_ (by omega) (by omega) ?_
      · rw [Nat.cast_sub hbig]
        push_cast
        rw [sub_mul, mul_assoc, hone]
        norm_num
      · have := shifted_lt hN j
        linarith
    have hdiv : (N - 2 ^ 31 * 2 ^ j) / 2 ^ j = N / 2 ^ j - 2 ^ 31 := by
      rw [Nat.mul_comm, Nat.sub_mul_div]
    rw [ulong_stores hsub (by omega), hdiv]
    have hle : 2 ^ 31 ≤ N / 2 ^ j := (Nat.le_div_iff_mul_le (Nat.two_pow_pos j)).2 hbig
    have hor := Nat.two_pow_add_eq_or_of_lt (i := 31) (b := N / 2 ^ j - 2 ^ 31) (by omega) 1
    rw [Nat.mul_one] at hor
    have hulpow : ulpow2to31 = 2 ^ 31 := rfl
    rw [hulpow, ← hor]
    exact congrArg Except.ok (by omega)

/-- The other way, bit 31 by itself. -/
theorem myUlongToDouble_stores (hA : A < 2 ^ 32) : Stores A (myUlongToDouble A) := by
  unfold myUlongToDouble
  by_cases hbit : A &&& ulpow2to31 ≠ 0
  · rw [if_pos hbit]
    have hlow : A &&& (2 ^ 64 - 1 - ulpow2to31) = A % 2 ^ 31 := by
      have hmask : ∀ i < 32, (2 ^ 64 - 1 - ulpow2to31).testBit i = decide (i < 31) := by decide
      apply Nat.eq_of_testBit_eq
      intro i
      rw [Nat.testBit_and, Nat.testBit_mod_two_pow]
      rcases Nat.lt_or_ge i 32 with hi | hi
      · rw [hmask i hi, Bool.and_comm]
      · have hA' : A.testBit i = false := by
          refine Nat.testBit_eq_false_of_lt (hA.trans_le ?_)
          exact Nat.pow_le_pow_right (by decide) hi
        rw [hA', Bool.false_and, Bool.and_false]
    have hhigh : 2 ^ 31 ≤ A := by
      by_contra hlt
      refine hbit (Nat.eq_of_testBit_eq fun i => ?_)
      have hulpow : ulpow2to31 = 2 ^ 31 := rfl
      rw [Nat.testBit_and, hulpow, Nat.testBit_two_pow, Nat.zero_testBit]
      by_cases hi : 31 = i
      · subst hi
        rw [Nat.testBit_eq_false_of_lt (by omega), Bool.false_and]
      · rw [decide_eq_false hi, Bool.and_false]
    rw [hlow]
    have hsum : (2 : ℚ) ^ 31 + (A % 2 ^ 31 : ℕ) = A * 2 ^ (0 : ℤ) := by
      have hmod : 2 ^ 31 + A % 2 ^ 31 = A := by omega
      rw [zpow_zero, mul_one]
      exact_mod_cast hmod
    have hA' : (A : ℚ) < 2 ^ 32 := by exact_mod_cast hA
    have h := stores_dpow2to31.add' (stores_ofNat (n := A % 2 ^ 31) (by omega)) hsum (by omega)
      (by decide) (by rw [hsum, zpow_zero, mul_one]; linarith)
    rwa [zpow_zero, mul_one] at h
  · rw [if_neg hbit]
    exact stores_ofNat (by omega)

end

/-! ## Rates -/

/-- The exponent of a rate is found, or the next one. -/
def Platform.logTruncates (P : Platform) (n : ℕ) : Prop :=
  biasedLog P (.ofNat n) = 16383 + n.log2 ∨ biasedLog P (.ofNat n) = 16383 + n.log2 + 1

section
variable {P : Platform} {n : ℕ}

/-- A rate at the exponent that is found: `N` with `j` digits behind the point. -/
theorem scaled_rate (hn : 1 ≤ n) (hlt : n < 2 ^ 53) {e : ℕ} (he : e = n.log2 ∨ e = n.log2 + 1) :
    ∃ N j : ℕ, N < 2 ^ 53 ∧ j ≤ 22 ∧ 0 < N / 2 ^ j ∧ N / 2 ^ j < 2 ^ 32 ∧
      (n : ℚ) * 2 ^ (31 - (e : ℤ)) = N * 2 ^ (-(j : ℤ)) := by
  have hlow := Nat.log2_self_le (n := n) (by omega)
  have hup := Nat.lt_log2_self (n := n)
  have hlog : n.log2 < 53 := (Nat.log2_lt (by omega)).2 hlt
  rcases Nat.le_total e 31 with hle | hle
  · obtain ⟨d, hd⟩ := Nat.exists_eq_add_of_le hle
    have hN : n * 2 ^ d < 2 ^ 32 := by
      calc n * 2 ^ d < 2 ^ (n.log2 + 1) * 2 ^ d :=
            Nat.mul_lt_mul_of_pos_right hup (Nat.two_pow_pos d)
        _ = 2 ^ (n.log2 + 1 + d) := (pow_add 2 _ _).symm
        _ ≤ 2 ^ 32 := Nat.pow_le_pow_right (by decide) (by omega)
    refine ⟨n * 2 ^ d, 0, by omega, by decide, ?_, ?_, ?_⟩
    · rw [pow_zero, Nat.div_one]
      exact Nat.mul_pos hn (Nat.two_pow_pos d)
    · rw [pow_zero, Nat.div_one]
      exact hN
    · have hexp : 31 - (e : ℤ) = d := by omega
      rw [hexp, zpow_natCast]
      push_cast
      simp
  · obtain ⟨j, rfl⟩ := Nat.exists_eq_add_of_le hle
    refine ⟨n, j, hlt, by omega, ?_, ?_, ?_⟩
    · refine Nat.div_pos (le_trans ?_ hlow) (Nat.two_pow_pos j)
      exact Nat.pow_le_pow_right (by decide) (by omega)
    · rw [Nat.div_lt_iff_lt_mul (Nat.two_pow_pos j), ← pow_add]
      exact hup.trans_le (Nat.pow_le_pow_right (by decide) (by omega))
    · have hexp : 31 - ((31 + j : ℕ) : ℤ) = -j := by omega
      rw [hexp]

/-- The digits before the point, and those behind it. -/
theorem split_scaled (N : ℕ) {j : ℕ} (hj : j ≤ 22) :
    (N : ℚ) * 2 ^ (-(j : ℤ)) - (N / 2 ^ j : ℕ) = (N % 2 ^ j : ℕ) * 2 ^ (-(j : ℤ)) ∧
      ((N % 2 ^ j : ℕ) : ℚ) * 2 ^ (-(j : ℤ)) * 2 ^ (32 : ℤ) =
        ((N % 2 ^ j * 2 ^ (32 - j) : ℕ) : ℚ) := by
  constructor
  · have hmod : (N : ℚ) = 2 ^ j * (N / 2 ^ j : ℕ) + (N % 2 ^ j : ℕ) := by
      exact_mod_cast (Nat.div_add_mod N (2 ^ j)).symm
    rw [zpow_neg, zpow_natCast]
    field_simp
    linarith
  · have hexp : -(j : ℤ) + 32 = (32 - j : ℕ) := by omega
    rw [mul_assoc, ← zpow_add₀ two_ne_zero, hexp, zpow_natCast]
    push_cast
    rfl

/-- The fields of a rate, and the digits that they hold. -/
theorem ieee80Fields_rate (hn : 1 ≤ n) (hlt : n < 2 ^ 53) {e : ℕ}
    (he : e = n.log2 ∨ e = n.log2 + 1) (hlog : biasedLog P (.ofNat n) = 16383 + e) :
    ∃ A C : ℕ, ieee80Fields P (.ofNat n) = .ok (16383 + e, A, C) ∧ 0 < A ∧ A < 2 ^ 32 ∧
      C < 2 ^ 32 ∧ (C : ℚ) * 2 ^ (-63 : ℤ) + A * 2 ^ (-31 : ℤ) = n * 2 ^ (-(e : ℤ)) := by
  have hlog2 : n.log2 < 53 := (Nat.log2_lt (by omega)).2 hlt
  obtain ⟨N, j, hN, hj, hpos, hA, hvalue⟩ := scaled_rate hn hlt he
  obtain ⟨hbehind, hshifted⟩ := split_scaled N hj
  have hmod : N % 2 ^ j < 2 ^ j := Nat.mod_lt N (Nat.two_pow_pos j)
  have hC : N % 2 ^ j * 2 ^ (32 - j) < 2 ^ 32 := by
    calc N % 2 ^ j * 2 ^ (32 - j) < 2 ^ j * 2 ^ (32 - j) :=
          Nat.mul_lt_mul_of_pos_right hmod (Nat.two_pow_pos _)
      _ = 2 ^ (j + (32 - j)) := (pow_add 2 _ _).symm
      _ = 2 ^ 32 := by rw [Nat.add_sub_cancel' (by omega)]
  have hAq : ((N / 2 ^ j : ℕ) : ℚ) < 2 ^ 32 := by exact_mod_cast hA
  have hCq : ((N % 2 ^ j * 2 ^ (32 - j) : ℕ) : ℚ) < 2 ^ 32 := by exact_mod_cast hC
  have hscaled := shifted_lt hN j
  -- val *= pow( 2.0, 31.0 + 16383.0 - exp )
  have hval : Stores (N * 2 ^ (-(j : ℤ)))
      (Double.mul (.ofNat n) (.pow2 (31 + 16383 - (16383 + e)))) := by
    have hexp : (31 : ℤ) + 16383 - (16383 + e) = 31 - e := by omega
    rw [hexp]
    refine (stores_ofNat hlt).mul' (stores_pow2 (by omega) (by omega)) hvalue hN (by omega) ?_
    rw [hvalue]
    linarith
  have hmant1 := myDoubleToUlong_stores (P := P) hval hN (by omega) hA
  -- val -= myUlongToDouble( mant1 )
  have hrest := hval.sub' (myUlongToDouble_stores hA) hbehind (by
    have := Nat.mod_le N (2 ^ j)
    omega) (by omega) (by
    have := (myUlongToDouble_stores hA).nonneg
    linarith)
  -- val *= pow( 2.0, 32.0 )
  have hlast := hrest.mul' (stores_pow2 (k := 32) (by decide) (by decide))
    (n := N % 2 ^ j * 2 ^ (32 - j)) (k := -((0 : ℕ) : ℤ)) (by rw [hshifted]; simp) (by omega)
    (by decide) (by rw [hshifted]; linarith)
  have hmant0 := myDoubleToUlong_stores (P := P) hlast (by omega) (by decide)
    (by rw [pow_zero, Nat.div_one]; exact hC)
  rw [pow_zero, Nat.div_one] at hmant0
  refine ⟨N / 2 ^ j, N % 2 ^ j * 2 ^ (32 - j), ?_, hpos, hA, hC, ?_⟩
  · rw [ieee80Fields, not_beq_zero (ofNat_pos hn (by omega)), if_neg (by decide)]
    simp only [hlog, hmant1, hmant0, Simulation.ok_bind]
    rfl
  · rw [← hshifted, ← hbehind]
    have hsplit : (2 : ℚ) ^ (31 - (e : ℤ)) = 2 ^ 31 * 2 ^ (-(e : ℤ)) := by
      rw [sub_eq_add_neg, zpow_add₀ two_ne_zero]
      rfl
    rw [hsplit] at hvalue
    have hdigits : (n : ℚ) * 2 ^ (-(e : ℤ)) = N * 2 ^ (-(j : ℤ)) * 2 ^ (-31 : ℤ) := by
      rw [← hvalue]
      norm_num
      ring
    rw [hdigits]
    norm_num
    ring

/-- What is read from the fields of a positive number. -/
theorem ieee80ToDouble_fields {exp A C : ℕ} (hexp : exp < 2 ^ 15) (hA : A < 2 ^ 32)
    (hC : C < 2 ^ 32) (hpos : 0 < A) :
    ieee80ToDouble (beBytes 2 exp ++ (beBytes 4 A ++ beBytes 4 C)) =
      .mul (.add (.mul (myUlongToDouble C) (.pow2 (-63))) (.mul (myUlongToDouble A) (.pow2 (-31))))
        (.pow2 ((exp : ℤ) - 16383)) := by
  have hlast : slice (beBytes 4 C) 0 4 = beBytes 4 C := by
    rw [slice, List.drop_zero, List.take_of_length_le (by rw [length_beBytes])]
  have hexp' : exp % 256 ^ 2 = exp := Nat.mod_eq_of_lt (by omega)
  have hA' : A % 256 ^ 4 = A := Nat.mod_eq_of_lt (by omega)
  have hC' : C % 256 ^ 4 = C := Nat.mod_eq_of_lt (by omega)
  unfold ieee80ToDouble
  simp (disch := simp) only [slice_head, slice_skip, length_beBytes, Nat.reduceSub, hlast,
    beNat_beBytes, hexp', hA', hC', Nat.mod_eq_of_lt hexp, hpos.ne', false_and, if_false,
    if_neg (Nat.not_le.2 hexp)]

/-- **A whole rate** of up to 53 bits is read back as it was written. -/
theorem ieee80_exact (hlog : P.logTruncates n) (hn : 1 ≤ n) (hlt : n < 2 ^ 53) :
    ∃ bs, doubleToIeee80 P (.ofNat n) = .ok bs ∧ ieee80ToDouble bs = .ofNat n := by
  have hlog2 : n.log2 < 53 := (Nat.log2_lt (by omega)).2 hlt
  obtain ⟨e, he, hbiased⟩ : ∃ e : ℕ, (e = n.log2 ∨ e = n.log2 + 1) ∧
      biasedLog P (.ofNat n) = 16383 + e := by
    rcases hlog with h | h
    · exact ⟨n.log2, .inl rfl, h⟩
    · exact ⟨n.log2 + 1, .inr rfl, by rw [h]; push_cast; ring⟩
  obtain ⟨A, C, hfields, hpos, hA, hC, hvalue⟩ := ieee80Fields_rate hn hlt he hbiased
  have hAq : (A : ℚ) < 2 ^ 32 := by exact_mod_cast hA
  have hCq : (C : ℚ) < 2 ^ 32 := by exact_mod_cast hC
  have hn64 : (n : ℚ) < 2 ^ 53 := by exact_mod_cast hlt
  obtain ⟨bs, hbs⟩ : ∃ bs, doubleToIeee80 P (.ofNat n) = .ok bs := by
    rw [doubleToIeee80, not_lt_zero (ofNat_pos hn (by omega))]
    simp only [Bool.false_eq_true, if_false, hfields]
    exact ⟨_, rfl⟩
  refine ⟨bs, hbs, ?_⟩
  obtain ⟨exp, mant1, mant0, hf, rfl⟩ := doubleToIeee80_pos (ofNat_pos hn (by omega)) hbs
  rw [hfields] at hf
  obtain ⟨rfl, rfl, rfl⟩ : 16383 + (e : ℤ) = exp ∧ A = mant1 ∧ C = mant0 := by
    cases hf
    exact ⟨rfl, rfl, rfl⟩
  have hexp : ((16383 + (e : ℤ)) % 2 ^ 16).toNat = 16383 + e := by omega
  rw [hexp, ieee80ToDouble_fields (by omega) hA hC hpos]
  have hexp' : ((16383 + e : ℕ) : ℤ) - 16383 = e := by omega
  rw [hexp']
  -- the digits of both halves do not overlap
  have hlow : Stores (C * 2 ^ (-63 : ℤ)) (.mul (myUlongToDouble C) (.pow2 (-63))) :=
    (myUlongToDouble_stores hC).mul' (stores_pow2 (by decide) (by decide)) rfl (by omega)
      (by decide) (by norm_num; linarith)
  have hhigh : Stores (A * 2 ^ (-31 : ℤ)) (.mul (myUlongToDouble A) (.pow2 (-31))) :=
    (myUlongToDouble_stores hA).mul' (stores_pow2 (by decide) (by decide)) rfl (by omega)
      (by decide) (by norm_num; linarith)
  have hpow : (2 : ℚ) ^ (-(e : ℤ)) ≤ 1 := zpow_le_one_of_nonpos₀ (by norm_num) (by omega)
  have hsum := hlow.add' hhigh hvalue hlt (by omega) (by
    rw [hvalue]
    have := mul_le_of_le_one_right (Nat.cast_nonneg (α := ℚ) n) hpow
    linarith)
  have hproduct : (n : ℚ) * 2 ^ (-(e : ℤ)) * 2 ^ (e : ℤ) = n * 2 ^ (0 : ℤ) := by
    rw [mul_assoc, ← zpow_add₀ two_ne_zero, neg_add_cancel]
  have hresult := hsum.mul' (stores_pow2 (k := e) (by omega) (by omega)) hproduct hlt (by decide)
    (by rw [hproduct, zpow_zero, mul_one]; linarith)
  rw [zpow_zero, mul_one] at hresult
  exact hresult.unique (stores_ofNat hlt)

end

end NiMedia
