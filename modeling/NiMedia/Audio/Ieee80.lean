/-
  Sample rates as IEEE 80 bit numbers (`audio/ieee80.h`).

  Arithmetic on `double` is that of Lean's model of binary64, rounded to nearest
  even.  Two things are left to the platform: the function `log` of its library,
  and what a conversion to an integer type gives that cannot represent the value.

  * `ieee80_pos`: a rate that is not zero is read back as a positive number.
-/
import NiMedia.Lib.Floats
import NiMedia.Lib.Simulation
import NiMedia.Lib.Words
import NiMedia.Pcm.Format

namespace NiMedia

open Bytes Words Float.Model Floats

/-! ## Doubles -/

abbrev Double := UnpackedFloat

namespace Double

/-- A result beyond the range is infinite. -/
def fit : Double → Double
  | .finite s m e h => if 1024 < totalExponent m e then .infinity s else .finite s m e h
  | x => x

def ofNat (n : ℕ) : Double := fit (UnpackedFloat.ofNat .binary64 n)

def add (x y : Double) : Double := fit (UnpackedFloat.add .binary64 x y)

def sub (x y : Double) : Double := fit (UnpackedFloat.sub .binary64 x y)

def mul (x y : Double) : Double := fit (UnpackedFloat.mul .binary64 x y)

def div (x y : Double) : Double := fit (UnpackedFloat.div .binary64 x y)

/-- `pow( 2.0, k )`. -/
def pow2 (k : ℤ) : Double := fit (UnpackedFloat.round .binary64 .positive 1 k)

/-- `std::to_string( double )`: six decimals, rounded to nearest even. -/
def toString : Double → String
  | .notANumber => "nan"
  | .infinity s => sign s ++ "inf"
  | .zero s => sign s ++ "0.000000"
  | .finite s m e _ =>
    let n := m * 10 ^ 6 * 2 ^ e.toNat
    let d := 2 ^ (-e).toNat
    let q := n / d
    let r := n % d
    let q := if d < 2 * r ∨ d = 2 * r ∧ q % 2 = 1 then q + 1 else q
    sign s ++ Nat.repr (q / 10 ^ 6) ++ "." ++ ((Nat.repr (10 ^ 6 + q % 10 ^ 6)).drop 1).toString
where
  sign : UnpackedFloat.Sign → String
    | .negative => "-"
    | .positive => ""

end Double

/-- What the source leaves to the platform. -/
structure Platform where
  log : Double → Double
  unrepresentable : Double → ℤ

namespace Platform

variable (P : Platform)

/-- The conversion to an integer type with the values from `lo` to `hi`. -/
def toInteger (lo hi : ℤ) (x : Double) : ℤ :=
  if x.isFinite ∧ lo ≤ x.toInt 0 0 ∧ x.toInt 0 0 ≤ hi then x.toInt 0 0 else P.unrepresentable x

/-- `(short) x`. -/
def short (x : Double) : ℤ := wrap 16 (P.toInteger (-2 ^ 15) (2 ^ 15 - 1) x)

/-- `(unsigned long) x`, of 64 bits, and `size_t( x )`. -/
def ulong (x : Double) : ℕ := (P.toInteger 0 (2 ^ 64 - 1) x % 2 ^ 64).toNat

end Platform

/-! ## Conversions -/

def ulpow2to31 : ℕ := 0x80000000

def dpow2to31 : Double := .ofNat 0x80000000

def myUlongToDouble (ul : ℕ) : Double :=
  if ul &&& ulpow2to31 ≠ 0 then
    .add dpow2to31 (.ofNat (ul &&& (2 ^ 64 - 1 - ulpow2to31)))
  else .ofNat ul

def myDoubleToUlong (P : Platform) (val : Double) : Except RuntimeError ℕ :=
  if val.lt (Double.ofNat 0) then throw ⟨"IEEE80:DoubleToUlong: val < 0"⟩
  else if val.lt dpow2to31 then pure (P.ulong val)
  else pure (ulpow2to31 ||| P.ulong (.sub val dpow2to31))

def ieee80ToDouble (p : List UInt8) : Double :=
  let exp : ℕ := beNat (slice p 0 2) % 2 ^ 15
  let sign := 2 ^ 15 ≤ beNat (slice p 0 2)
  let mant1 := beNat (slice p 2 4)
  let mant0 := beNat (slice p 6 4)
  if mant1 = 0 ∧ mant0 = 0 ∧ exp = 0 ∧ ¬ sign then .ofNat 0
  else
    let val := Double.mul (myUlongToDouble mant0) (.pow2 (-63))
    let val := Double.add val (.mul (myUlongToDouble mant1) (.pow2 (-31)))
    let val := Double.mul val (.pow2 ((exp : ℤ) - 16383))
    if sign then val.neg else val

/-- `log( val ) / log( 2.0 ) + 16383.0`, as a `short`. -/
def biasedLog (P : Platform) (val : Double) : ℤ :=
  P.short (.add (.div (P.log val) (P.log (.ofNat 2))) (.ofNat 16383))

/-- `exp`, `mant1` and `mant0` of a number that is not negative. -/
def ieee80Fields (P : Platform) (val : Double) : Except RuntimeError (ℤ × ℕ × ℕ) :=
  if val.beq (Double.ofNat 0) then pure (0, 0, 0)
  else do
    let exp := biasedLog P val
    let val := Double.mul val (.pow2 (31 + 16383 - exp))
    let mant1 ← myDoubleToUlong P val
    let val := Double.sub val (myUlongToDouble mant1)
    let mant0 ← myDoubleToUlong P (.mul val (.pow2 32))
    pure (exp, mant1, mant0)

def doubleToIeee80 (P : Platform) (val : Double) : Except RuntimeError (List UInt8) := do
  let negative := val.lt (Double.ofNat 0)
  let sign := if negative then 1 else 0
  let (exp, mant1, mant0) ← ieee80Fields P (if negative then val.neg else val)
  let exp : ℕ := (exp % 2 ^ 16).toNat
  pure (UInt8.ofNat (sign <<< 7 ||| exp >>> 8) :: UInt8.ofNat exp ::
    (beBytes 4 mant1 ++ beBytes 4 mant0))

/-! ## Positive rates -/

/-- The logarithm is accurate to within one, after the conversion to `short`. -/
def Platform.logAccurate (P : Platform) : Prop :=
  ∀ n, 1 ≤ n → n < 2 ^ 64 → ∃ e : ℤ, biasedLog P (.ofNat n) = 16383 + e ∧
    (n.log2 : ℤ) ≤ e + 1 ∧ e ≤ n.log2 + 1

/-- `log( 2.0 )`. -/
def ln2 : Double := .finite .positive 0x162E42FEFA39EF (-53) (by decide)

/-- A platform whose logarithm is that of the power of two below. -/
def Platform.powersOfTwo : Platform where
  log
    | .finite _ m e _ => .mul (.ofNat (totalExponent m e - 1).toNat) ln2
    | _ => .notANumber
  unrepresentable _ := 0

namespace Double

/-- A positive finite number, with its most significant digit between the
    positions `lo` and `hi`. -/
abbrev Pos (lo hi : ℤ) (x : Double) : Prop := Positive .binary64 lo hi x

section
variable {lo hi lo' hi' : ℤ} {x y : Double}

theorem minimum : Format.minExponent .binary64 + (Format.mantissaBits .binary64 : ℤ) = -1021 := rfl

theorem fit_of_pos (h : Pos lo hi x) (hhi : hi ≤ 1024) : fit x = x := by
  obtain ⟨m, e, hm, rfl, -, -, h2⟩ := h
  exact if_neg (by omega)

theorem mul_pos (hx : Pos lo hi x) (hy : Pos lo' hi' y) (hlo : -1021 ≤ lo + lo' - 1)
    (hhi : hi + hi' + 1 ≤ 1024) : Pos (lo + lo' - 1) (hi + hi' + 1) (mul x y) := by
  have h := positive_mul hx hy (by rw [minimum]; exact hlo)
  rw [mul, fit_of_pos h hhi]
  exact h

theorem add_pos (hx : Pos lo hi x) (hy : Pos lo' hi' y) (hlo : -1021 ≤ lo')
    (hhi : max hi hi' + 2 ≤ 1024) : Pos lo' (max hi hi' + 2) (add x y) := by
  have h := positive_add hx hy (by rw [minimum]; exact hlo)
  rw [add, fit_of_pos h hhi]
  exact h

theorem ofNat_pos {n : ℕ} (h1 : 1 ≤ n) (h : n < 2 ^ 64) :
    Pos (n.log2 + 1) (n.log2 + 2) (ofNat n) := by
  have hlog := (Nat.log2_lt (by omega)).2 h
  have hpos := positive_ofNat .binary64 h1 (by rw [minimum]; decide)
  rw [ofNat, fit_of_pos hpos (by omega)]
  exact hpos

theorem pow2_pos {k : ℤ} (hlo : -1022 ≤ k) (hhi : k ≤ 1022) : Pos (k + 1) (k + 2) (pow2 k) := by
  have hte : totalExponent 1 k = k + 1 := by
    have hlog : Nat.log2 1 = 0 := by decide
    rw [totalExponent, hlog]; omega
  have h := positive_round' .binary64 (m := 1) (e := k) (by decide)
    (by rw [hte, minimum]; omega)
  rw [hte, add_assoc] at h
  rw [pow2, fit_of_pos h (by omega)]
  exact h

/-- `0.0` or a positive number. -/
theorem add_pos_of_zero (hx : x = .zero .positive ∨ Pos lo hi x) (hy : Pos lo' hi' y)
    (hlo : -1021 ≤ lo') (hhi : max hi hi' + 2 ≤ 1024) :
    Pos lo' (max hi hi' + 2) (add x y) := by
  rcases hx with rfl | hx
  · obtain ⟨m, e, hm, rfl, hlt, h1, h2⟩ := hy
    have hy : Pos lo' (max hi hi' + 2) (.finite .positive m e hm) :=
      ⟨m, e, hm, rfl, hlt, h1, by omega⟩
    have hadd : add (.zero .positive) (.finite .positive m e hm) =
        fit (.finite .positive m e hm) := rfl
    rw [hadd, fit_of_pos hy (by omega)]
    exact hy
  · exact add_pos hx hy hlo hhi

theorem not_lt_zero (h : Pos lo hi x) : x.lt (ofNat 0) = false := by
  obtain ⟨m, e, hm, rfl, -⟩ := h; rfl

theorem not_beq_zero (h : Pos lo hi x) : x.beq (ofNat 0) = false := by
  obtain ⟨m, e, hm, rfl, -⟩ := h; rfl

theorem not_le_zero (h : Pos lo hi x) : x.le (ofNat 0) = false := by
  obtain ⟨m, e, hm, rfl, -⟩ := h; rfl

end

end Double

open Double

theorem dpow2to31_eq : dpow2to31 = .finite .positive (2 ^ 52) (-21) (by decide) := rfl

/-- An `unsigned long` of 32 bits, if it is not zero. -/
theorem myUlongToDouble_pos {ul : ℕ} (h1 : 1 ≤ ul) (h : ul < 2 ^ 32) :
    Pos 1 36 (myUlongToDouble ul) := by
  have hofNat : ∀ n, 1 ≤ n → n < 2 ^ 32 → Pos 1 34 (ofNat n) := by
    intro n h1 h
    have hlog := (Nat.log2_lt (by omega)).2 h
    exact (ofNat_pos h1 (by omega)).mono (by omega) (by omega)
  unfold myUlongToDouble
  split_ifs with hbit
  · have htop : Pos 1 34 dpow2to31 := hofNat _ (by decide) (by decide)
    have hle : ul &&& (2 ^ 64 - 1 - ulpow2to31) ≤ ul := Nat.and_le_left
    rcases Nat.eq_zero_or_pos (ul &&& (2 ^ 64 - 1 - ulpow2to31)) with h0 | h0
    · rw [h0]
      exact Positive.mono (x := add dpow2to31 (ofNat 0)) ⟨2 ^ 52, -21, by decide, rfl, by decide,
        by decide, by decide⟩ le_rfl (show (32 : ℤ) ≤ 36 by decide)
    · exact add_pos htop (hofNat _ h0 (by omega)) (by decide) (by decide)
  · exact (hofNat ul h1 h).mono le_rfl (by decide)

theorem lt_dpow2to31 {m : ℕ} {e : ℤ} {hm : 0 < m}
    (h : UnpackedFloat.lt (.finite .positive m e hm) dpow2to31 = true) :
    e < -21 ∨ e = -21 ∧ m < 2 ^ 52 := by
  rw [dpow2to31_eq] at h
  simp only [UnpackedFloat.lt, UnpackedFloat.compare] at h
  rcases lt_trichotomy e (-21) with he | rfl | he
  · exact .inl he
  · rw [Int.compare_eq_eq.2 rfl] at h
    have h : some (compare m (2 ^ 52)) = some .lt := beq_iff_eq.1 h
    exact .inr ⟨rfl, Nat.compare_eq_lt.1 (Option.some.inj h)⟩
  · rw [Int.compare_eq_gt.2 he] at h
    cases h

/-- The low bits of a number below 2³¹, truncated. -/
theorem ulong_pos {P : Platform} {m : ℕ} {e : ℤ} {hm : 0 < m} (hlt : m < 2 ^ 53)
    (h1 : 1 ≤ totalExponent m e) (h : e < -21 ∨ e = -21 ∧ m < 2 ^ 52) :
    P.ulong (.finite .positive m e hm) % 2 ^ 32 ≠ 0 := by
  have htoInt := toInt_positive hm (show e ≤ 0 by omega) 0 0
  have hlog := Nat.log2_self_le hm.ne'
  rw [totalExponent] at h1
  obtain ⟨k, rfl⟩ : ∃ k : ℕ, e = -k := ⟨(-e).toNat, by omega⟩
  have hk : (-(-(k : ℤ))).toNat = k := by omega
  rw [hk] at htoInt
  have hpos : 1 ≤ m / 2 ^ k := by
    rw [Nat.one_le_div_iff (Nat.two_pow_pos k)]
    exact (Nat.pow_le_pow_right (by decide) (by omega)).trans hlog
  have hsmall : m / 2 ^ k < 2 ^ 31 := by
    rw [Nat.div_lt_iff_lt_mul (Nat.two_pow_pos k), ← pow_add]
    rcases h with h | ⟨h, hm'⟩
    · exact hlt.trans_le (Nat.pow_le_pow_right (by decide) (by omega))
    · exact hm'.trans_le (Nat.pow_le_pow_right (by decide) (by omega))
  have hfinite : (UnpackedFloat.finite .positive m (-k) hm).isFinite = true := rfl
  rw [Platform.ulong, Platform.toInteger, htoInt, if_pos ⟨hfinite, by omega, by omega⟩]
  omega

/-- A number with a digit before the point is converted to a number whose low 32
    bits are not all zero. -/
theorem myDoubleToUlong_pos {P : Platform} {lo hi : ℤ} {x : Double} (h : Pos lo hi x) (hlo : 1 ≤ lo)
    {ul : ℕ} (hul : myDoubleToUlong P x = .ok ul) : ul % 2 ^ 32 ≠ 0 := by
  rw [myDoubleToUlong, not_lt_zero h, if_neg (by decide)] at hul
  obtain ⟨m, e, hm, rfl, hlt, h1, -⟩ := h
  by_cases hx : UnpackedFloat.lt (.finite .positive m e hm) dpow2to31 = true
  · rw [if_pos hx] at hul
    cases hul
    exact ulong_pos hlt (hlo.trans h1) (lt_dpow2to31 hx)
  · rw [if_neg hx] at hul
    cases hul
    -- bit 31 is set
    have hbit : ∀ n, ((ulpow2to31 ||| n) % 2 ^ 32).testBit 31 = true := by
      intro n
      have h31 : ulpow2to31 = 2 ^ 31 := rfl
      rw [Nat.testBit_mod_two_pow, Nat.testBit_or, h31, Nat.testBit_two_pow_self]
      rfl
    intro h0
    have := hbit (P.ulong (sub (.finite .positive m e hm) dpow2to31))
    rw [h0] at this
    cases this

theorem ieee80Fields_pos {P : Platform} {lo hi : ℤ} {x : Double} (h : Pos lo hi x) {exp : ℤ}
    {mant1 mant0 : ℕ} (hf : ieee80Fields P x = .ok (exp, mant1, mant0)) :
    exp = biasedLog P x ∧ myDoubleToUlong P (mul x (pow2 (31 + 16383 - exp))) = .ok mant1 := by
  rw [ieee80Fields, not_beq_zero h, if_neg (by decide)] at hf
  simp only at hf
  cases h1 : myDoubleToUlong P (mul x (pow2 (31 + 16383 - biasedLog P x))) with
  | error e => rw [h1] at hf; cases hf
  | ok m =>
    rw [h1] at hf
    simp only [Simulation.ok_bind] at hf
    generalize myDoubleToUlong P _ = r at hf
    cases r with
    | error e => cases hf
    | ok m' => cases hf; exact ⟨rfl, h1⟩

/-- The bytes of a positive number. -/
theorem doubleToIeee80_pos {P : Platform} {lo hi : ℤ} {x : Double} (h : Pos lo hi x)
    {bs : List UInt8} (hbs : doubleToIeee80 P x = .ok bs) :
    ∃ exp mant1 mant0, ieee80Fields P x = .ok (exp, mant1, mant0) ∧
      bs = beBytes 2 (exp % 2 ^ 16).toNat ++ (beBytes 4 mant1 ++ beBytes 4 mant0) := by
  rw [doubleToIeee80, not_lt_zero h] at hbs
  simp only [Bool.false_eq_true, if_false] at hbs
  cases hf : ieee80Fields P x with
  | error e => rw [hf] at hbs; cases hbs
  | ok r =>
    obtain ⟨exp, mant1, mant0⟩ := r
    rw [hf] at hbs
    cases hbs
    refine ⟨exp, mant1, mant0, rfl, ?_⟩
    simp only [beBytes, leBytes, Nat.zero_shiftLeft, Nat.zero_or, Nat.shiftRight_eq_div_pow]
    rfl

theorem ieee80ToDouble_pos (exp mant1 mant0 : ℕ) (h1 : 16000 ≤ exp) (h2 : exp < 17000)
    (hmant : mant1 % 2 ^ 32 ≠ 0) :
    ∃ lo hi, Pos lo hi
      (ieee80ToDouble (beBytes 2 exp ++ (beBytes 4 mant1 ++ beBytes 4 mant0))) := by
  have hlast : slice (beBytes 4 mant0) 0 4 = beBytes 4 mant0 := by
    rw [slice, List.drop_zero, List.take_of_length_le (by rw [length_beBytes])]
  have h4 : ∀ n : ℕ, n % 256 ^ 4 = n % 2 ^ 32 := fun n => rfl
  have hexp : exp % 256 ^ 2 = exp := Nat.mod_eq_of_lt (by omega)
  have hexp' : exp % 2 ^ 15 = exp := Nat.mod_eq_of_lt (by omega)
  have hmod : ∀ n : ℕ, n % 2 ^ 32 < 2 ^ 32 := fun n => Nat.mod_lt n (by decide)
  unfold ieee80ToDouble
  simp (disch := simp) only [slice_head, slice_skip, length_beBytes, Nat.reduceSub, hlast,
    beNat_beBytes, h4, hexp, hexp', hmant, false_and, if_false]
  rw [if_neg (show ¬ 2 ^ 15 ≤ exp by omega)]
  have hlow : mul (myUlongToDouble (mant0 % 2 ^ 32)) (pow2 (-63)) = .zero .positive ∨
      Pos (1 + (-63 + 1) - 1) (36 + (-63 + 2) + 1)
        (mul (myUlongToDouble (mant0 % 2 ^ 32)) (pow2 (-63))) := by
    rcases Nat.eq_zero_or_pos (mant0 % 2 ^ 32) with h0 | h0
    · rw [h0]; exact .inl rfl
    · exact .inr (mul_pos (myUlongToDouble_pos h0 (hmod _)) (pow2_pos (by decide) (by decide))
        (by decide) (by decide))
  have hhigh := mul_pos (myUlongToDouble_pos (Nat.pos_of_ne_zero hmant) (hmod mant1))
    (pow2_pos (k := -31) (by decide) (by decide)) (by decide) (by decide)
  exact ⟨_, _, mul_pos (add_pos_of_zero hlow hhigh (by decide) (by decide))
    (pow2_pos (by omega) (by omega)) (by omega) (by omega)⟩

set_option maxRecDepth 10000 in
theorem powersOfTwo_quotient : ∀ k < 66, Platform.powersOfTwo.short
    (.add (.div (.mul (.ofNat k) ln2) (Platform.powersOfTwo.log (.ofNat 2))) (.ofNat 16383)) =
      16383 + k := by decide

theorem logAccurate_powersOfTwo : Platform.powersOfTwo.logAccurate := by
  intro n h1 h
  have hlog := (Nat.log2_lt (by omega)).2 h
  obtain ⟨m, e, hm, he, -, hlo, hhi⟩ := ofNat_pos h1 h
  have hk := powersOfTwo_quotient (totalExponent m e - 1).toNat (by omega)
  refine ⟨(totalExponent m e - 1).toNat, ?_, by omega, by omega⟩
  rw [biasedLog, he]
  exact hk

/-- **A positive rate** is read back as a positive number. -/
theorem ieee80_pos {P : Platform} (hP : P.logAccurate) {n : ℕ} (h1 : 1 ≤ n) (h : n < 2 ^ 64)
    {bs : List UInt8} (hbs : doubleToIeee80 P (ofNat n) = .ok bs) :
    (ieee80ToDouble bs).le (ofNat 0) = false := by
  have hlog := (Nat.log2_lt (by omega)).2 h
  obtain ⟨e, he, he1, he2⟩ := hP n h1 h
  obtain ⟨exp, mant1, mant0, hf, rfl⟩ := doubleToIeee80_pos (ofNat_pos h1 h) hbs
  obtain ⟨rfl, hmant1⟩ := ieee80Fields_pos (ofNat_pos h1 h) hf
  have hscaled := mul_pos (ofNat_pos h1 h) (pow2_pos (k := 31 + 16383 - biasedLog P (ofNat n))
    (by omega) (by omega)) (by omega) (by omega)
  have hne := myDoubleToUlong_pos hscaled (by omega) hmant1
  obtain ⟨lo, hi, hpos⟩ := ieee80ToDouble_pos (biasedLog P (ofNat n) % 2 ^ 16).toNat mant1
    mant0 (by omega) (by omega) hne
  exact not_le_zero hpos

/-- The rate zero is read back as zero. -/
theorem ieee80_zero (P : Platform) :
    ∃ bs, doubleToIeee80 P (ofNat 0) = .ok bs ∧ (ieee80ToDouble bs).le (ofNat 0) = true :=
  ⟨List.replicate 10 0, rfl, rfl⟩

theorem length_doubleToIeee80 {P : Platform} {x : Double} {bs : List UInt8}
    (h : doubleToIeee80 P x = .ok bs) : bs.length = 10 := by
  unfold doubleToIeee80 at h
  simp only at h
  generalize ieee80Fields P _ = r at h
  cases r with
  | error e => cases h
  | ok r => cases h; simp only [List.length_cons, List.length_append, length_beBytes]

end NiMedia
