/-
  Rounding to a number of significant bits, to nearest and to even.

  The numbers are rationals, without a bound on the exponent, and beside them
  the infinities and the result of an invalid operation (`Number`).

  * `rnd_of_representable`: a number that has `p` bits is not changed.
  * `rnd_mono`: rounding is monotone, so that a result is bounded by what the
    bound is rounded to.
  * `rnd_int_add`: what a number less than one does to an integer of `p` bits.
-/
import Mathlib.Algebra.Order.Archimedean.Basic
import Mathlib.Algebra.Order.Round
import Mathlib.Data.Int.Log
import Mathlib.Data.Rat.Floor
import Mathlib.Tactic

namespace Rounding

/-! ## Integers -/

/-- The integer nearest to `q`, the even one if there are two. -/
def roundEven (q : ℚ) : ℤ :=
  if Int.fract q < 1 / 2 ∨ (Int.fract q = 1 / 2 ∧ Even ⌊q⌋) then ⌊q⌋ else ⌊q⌋ + 1

theorem floor_le_roundEven (q : ℚ) : ⌊q⌋ ≤ roundEven q := by
  unfold roundEven; split_ifs <;> omega

theorem roundEven_le_floor_add_one (q : ℚ) : roundEven q ≤ ⌊q⌋ + 1 := by
  unfold roundEven; split_ifs <;> omega

@[simp] theorem roundEven_intCast (n : ℤ) : roundEven n = n := by
  simp [roundEven]

theorem roundEven_mono {q r : ℚ} (h : q ≤ r) : roundEven q ≤ roundEven r := by
  rcases (Int.floor_le_floor h).lt_or_eq with hlt | heq
  · have h1 := roundEven_le_floor_add_one q
    have h2 := floor_le_roundEven r
    omega
  · have hfract : Int.fract q ≤ Int.fract r := by
      rw [Int.fract, Int.fract, heq]; linarith
    unfold roundEven
    rw [heq]
    split_ifs with h1 h2 h2
    · exact le_rfl
    · omega
    · -- `r` is rounded down, so `q` is
      exfalso
      apply h1
      rcases h2 with h2 | ⟨h2, heven⟩
      · exact Or.inl (hfract.trans_lt h2)
      · rcases hfract.lt_or_eq with h3 | h3
        · exact Or.inl (h3.trans_eq h2)
        · exact Or.inr ⟨h3.trans h2, heven⟩
    · exact le_rfl

theorem roundEven_neg (q : ℚ) : roundEven (-q) = -roundEven q := by
  by_cases hq : Int.fract q = 0
  · have hint : q = ⌊q⌋ := by
      have := Int.floor_add_fract q
      rw [hq, add_zero] at this
      exact this.symm
    rw [hint, ← Int.cast_neg, roundEven_intCast, roundEven_intCast]
  · have hfract : Int.fract (-q) = 1 - Int.fract q := Int.fract_neg hq
    have hfloor : ⌊-q⌋ = -⌊q⌋ - 1 := by
      have h1 := Int.floor_add_fract (-q)
      have h2 := Int.floor_add_fract q
      rw [hfract] at h1
      have h3 : ((⌊-q⌋ : ℤ) : ℚ) = ((-⌊q⌋ - 1 : ℤ) : ℚ) := by push_cast; linarith
      exact_mod_cast h3
    have heven : Even (-⌊q⌋ - 1) ↔ ¬ Even ⌊q⌋ := by
      rw [Int.even_sub_one, even_neg]
    unfold roundEven
    simp only [hfract, hfloor, heven]
    rcases lt_trichotomy (Int.fract q) (1 / 2) with h | h | h
    · rw [if_neg, if_pos (Or.inl h)]
      · ring
      · rintro (h1 | ⟨h1, -⟩) <;> linarith
    · rw [h]
      by_cases he : Even ⌊q⌋
      · norm_num [he]
      · norm_num [he]; ring
    · rw [if_pos (Or.inl (by linarith)), if_neg]
      · ring
      · rintro (h1 | ⟨h1, -⟩) <;> linarith

/-- What is less than one half beyond an integer is rounded down, and one half is
    if the integer is even. -/
theorem roundEven_add {n : ℤ} {d : ℚ} (h0 : 0 ≤ d) (h1 : d ≤ 1 / 2) :
    roundEven (n + d) = if d = 1 / 2 ∧ ¬ Even n then n + 1 else n := by
  have hfloor : ⌊(n : ℚ) + d⌋ = n := by
    rw [Int.floor_eq_iff]; constructor <;> linarith
  have hfract : Int.fract ((n : ℚ) + d) = d := by
    rw [Int.fract, hfloor]; ring
  unfold roundEven
  rw [hfloor, hfract]
  rcases h1.lt_or_eq with h | h
  · rw [if_pos (Or.inl h), if_neg (fun he => h.ne he.1)]
  · by_cases he : Even n <;> simp [h, he]

/-- The integer nearest to `q`, the one that is farther from zero if there are
    two. -/
def roundAway (q : ℚ) : ℤ := if 0 ≤ q then round q else -round (-q)

theorem roundAway_eq_iff {q : ℚ} (hq : 0 ≤ q) {n : ℤ} :
    roundAway q = n ↔ (n : ℚ) - 1 / 2 ≤ q ∧ q < n + 1 / 2 := by
  rw [roundAway, if_pos hq, round_eq_iff, Set.mem_Ico]

/-! ## Significant bits -/

section
variable (p : ℕ)

/-- The distance of the numbers of `p` bits around `x`. -/
def quantum (x : ℚ) : ℚ := 2 ^ (Int.log 2 |x| + 1 - p)

/-- `x` to `p` significant bits. -/
def rnd (x : ℚ) : ℚ := roundEven (x / quantum p x) * quantum p x

/-- The numbers that have `p` significant bits. -/
def Representable (x : ℚ) : Prop := ∃ m e : ℤ, |m| < 2 ^ p ∧ x = m * 2 ^ e

end

section
variable {p : ℕ} {x y : ℚ}

theorem quantum_pos (p : ℕ) (x : ℚ) : 0 < quantum p x := by
  unfold quantum; positivity

theorem quantum_neg (p : ℕ) (x : ℚ) : quantum p (-x) = quantum p x := by
  rw [quantum, abs_neg, quantum]

theorem rnd_neg (p : ℕ) (x : ℚ) : rnd p (-x) = -rnd p x := by
  rw [rnd, quantum_neg, neg_div, roundEven_neg, rnd]
  push_cast
  ring

@[simp] theorem rnd_zero (p : ℕ) : rnd p 0 = 0 := by
  have h : roundEven 0 = 0 := roundEven_intCast 0
  rw [rnd, zero_div, h]
  simp

theorem rnd_of_multiple {n : ℤ} (h : x / quantum p x = n) : rnd p x = x := by
  rw [rnd, h, roundEven_intCast, ← h, div_mul_cancel₀ _ (quantum_pos p x).ne']

/-- **A number of `p` bits** is not changed. -/
theorem rnd_of_representable (h : Representable p x) : rnd p x = x := by
  obtain ⟨m, e, hm, rfl⟩ := h
  by_cases hm0 : m = 0
  · rw [hm0]; simp
  · have hpos : (0 : ℚ) < |(m : ℚ) * 2 ^ e| := by positivity
    have hle := Int.zpow_log_le_self (b := 2) (by norm_num) hpos
    -- the exponent of the last of the `p` bits is at most `e`
    have hexp : Int.log 2 |(m : ℚ) * 2 ^ e| + 1 - p ≤ e := by
      have habs : |(m : ℚ) * 2 ^ e| < 2 ^ ((p : ℤ) + e) := by
        have hmq : |(m : ℚ)| < 2 ^ p := by exact_mod_cast hm
        rw [abs_mul, abs_of_pos (show (0 : ℚ) < 2 ^ e by positivity), zpow_add₀ two_ne_zero,
          zpow_natCast]
        exact mul_lt_mul_of_pos_right hmq (by positivity)
      have hlt := hle.trans_lt habs
      push_cast at hlt
      rw [zpow_lt_zpow_iff_right₀ (by norm_num)] at hlt
      omega
    obtain ⟨j, hj⟩ := Int.le.dest hexp
    have hsplit : (2 : ℚ) ^ e = 2 ^ j * quantum p ((m : ℚ) * 2 ^ e) := by
      rw [quantum, ← zpow_natCast, ← zpow_add₀ two_ne_zero, add_comm, hj]
    have hdiv : (m : ℚ) * 2 ^ e / quantum p ((m : ℚ) * 2 ^ e) = ((m * 2 ^ j : ℤ) : ℚ) := by
      rw [div_eq_iff (quantum_pos p _).ne']
      push_cast
      rw [mul_assoc, ← hsplit]
    exact rnd_of_multiple hdiv

theorem quantum_of_mem {k : ℤ} (h1 : 2 ^ k ≤ |x|) (h2 : |x| < 2 ^ (k + 1)) :
    quantum p x = 2 ^ (k + 1 - p) := by
  have hpos : (0 : ℚ) < |x| := lt_of_lt_of_le (by positivity) h1
  have hk : Int.log 2 |x| = k := by
    apply le_antisymm
    · have := (Int.lt_zpow_iff_log_lt (b := 2) (by norm_num) hpos).1 (by exact_mod_cast h2)
      omega
    · exact (Int.zpow_le_iff_le_log (b := 2) (by norm_num) hpos).1 (by exact_mod_cast h1)
  rw [quantum, hk]

theorem pow_mul_quantum (p : ℕ) (x : ℚ) : 2 ^ p * quantum p x = 2 ^ (Int.log 2 |x| + 1) := by
  rw [quantum, ← zpow_natCast, ← zpow_add₀ two_ne_zero]
  congr 1
  ring

/-- Rounding does not reach beyond the next power of two. -/
theorem rnd_le_pow (hx : 0 < x) : rnd p x ≤ 2 ^ (Int.log 2 |x| + 1) := by
  have hlt : x < 2 ^ (Int.log 2 |x| + 1) := by
    have := Int.lt_zpow_succ_log_self (b := 2) (by norm_num) |x|
    rw [abs_of_pos hx] at this ⊢
    exact_mod_cast this
  have hdiv : x / quantum p x ≤ ((2 ^ p : ℤ) : ℚ) := by
    rw [div_le_iff₀ (quantum_pos p x)]
    push_cast
    rw [pow_mul_quantum]
    exact hlt.le
  have hround := roundEven_mono hdiv
  rw [roundEven_intCast] at hround
  rw [rnd, ← pow_mul_quantum p]
  exact mul_le_mul_of_nonneg_right (by exact_mod_cast hround) (quantum_pos p x).le

theorem pow_le_rnd (hp : 0 < p) (hx : 0 < x) : 2 ^ Int.log 2 |x| ≤ rnd p x := by
  obtain ⟨p, rfl⟩ : ∃ k, p = k + 1 := ⟨p - 1, by omega⟩
  have hle : (2 : ℚ) ^ Int.log 2 |x| ≤ x := by
    rw [abs_of_pos hx]
    exact_mod_cast Int.zpow_log_le_self (b := 2) (by norm_num) hx
  have hpow : (2 : ℚ) ^ p * quantum (p + 1) x = 2 ^ Int.log 2 |x| := by
    rw [quantum, ← zpow_natCast, ← zpow_add₀ two_ne_zero]
    congr 1
    push_cast
    ring
  have hdiv : ((2 ^ p : ℤ) : ℚ) ≤ x / quantum (p + 1) x := by
    rw [le_div_iff₀ (quantum_pos _ x)]
    push_cast
    rw [hpow]
    exact hle
  have hround := roundEven_mono hdiv
  rw [roundEven_intCast] at hround
  rw [rnd, ← hpow]
  exact mul_le_mul_of_nonneg_right (by exact_mod_cast hround) (quantum_pos _ x).le

theorem rnd_mono_pos (hp : 0 < p) (hx : 0 < x) (h : x ≤ y) : rnd p x ≤ rnd p y := by
  have hy : 0 < y := hx.trans_le h
  have hlog : Int.log 2 |x| ≤ Int.log 2 |y| := by
    rw [abs_of_pos hx, abs_of_pos hy]
    exact Int.log_mono_right hx h
  rcases hlog.lt_or_eq with hlt | heq
  · calc rnd p x ≤ 2 ^ (Int.log 2 |x| + 1) := rnd_le_pow hx
      _ ≤ 2 ^ Int.log 2 |y| := zpow_le_zpow_right₀ (by norm_num) (by omega)
      _ ≤ rnd p y := pow_le_rnd hp hy
  · have hq : quantum p x = quantum p y := by rw [quantum, heq, quantum]
    have hround := roundEven_mono (div_le_div_of_nonneg_right h (quantum_pos p y).le)
    rw [rnd, rnd, hq]
    exact mul_le_mul_of_nonneg_right (by exact_mod_cast hround) (quantum_pos p y).le

theorem rnd_pos (hp : 0 < p) (hx : 0 < x) : 0 < rnd p x :=
  lt_of_lt_of_le (by positivity) (pow_le_rnd hp hx)

/-- **Rounding is monotone.** -/
theorem rnd_mono (hp : 0 < p) (h : x ≤ y) : rnd p x ≤ rnd p y := by
  rcases lt_trichotomy x 0 with hx | rfl | hx
  · rcases lt_trichotomy y 0 with hy | rfl | hy
    · have := rnd_mono_pos hp (neg_pos.2 hy) (neg_le_neg h)
      rw [rnd_neg, rnd_neg] at this
      exact neg_le_neg_iff.1 this
    · have := rnd_pos hp (neg_pos.2 hx)
      rw [rnd_neg] at this
      rw [rnd_zero]; linarith
    · have h1 := rnd_pos hp (neg_pos.2 hx)
      have h2 := rnd_pos hp hy
      rw [rnd_neg] at h1
      linarith
  · rcases h.lt_or_eq with hy | hy
    · rw [rnd_zero]; exact (rnd_pos hp hy).le
    · rw [hy]
  · exact rnd_mono_pos hp hx h

/-- A result is at most a number of `p` bits that bounds what is rounded. -/
theorem rnd_le (hp : 0 < p) (hy : Representable p y) (h : x ≤ y) : rnd p x ≤ y :=
  (rnd_mono hp h).trans_eq (rnd_of_representable hy)

theorem le_rnd (hp : 0 < p) (hx : Representable p x) (h : x ≤ y) : x ≤ rnd p y :=
  (rnd_of_representable hx).symm.trans_le (rnd_mono hp h)

end

/-! ## One half more than an integer -/

section
variable {p : ℕ}

theorem representable_int {i : ℤ} (h : |i| < 2 ^ p) : Representable p i :=
  ⟨i, 0, h, by simp⟩

theorem representable_two_pow (hp : 0 < p) (k : ℤ) : Representable p (2 ^ k) := by
  refine ⟨1, k, ?_, by simp⟩
  rw [abs_one]
  exact one_lt_pow₀ (by norm_num) hp.ne'

theorem Representable.neg {x : ℚ} (h : Representable p x) : Representable p (-x) := by
  obtain ⟨m, e, hm, rfl⟩ := h
  exact ⟨-m, e, by rwa [abs_neg], by push_cast; ring⟩

/-- The exponent may be changed. -/
theorem Representable.mul_two_pow {x : ℚ} (h : Representable p x) (k : ℤ) :
    Representable p (x * 2 ^ k) := by
  obtain ⟨m, e, hm, rfl⟩ := h
  exact ⟨m, e + k, hm, by rw [mul_assoc, ← zpow_add₀ two_ne_zero]⟩

/-- A number of `p` bits is a multiple of the distance of the numbers around it. -/
theorem Representable.multiple {x : ℚ} (h : Representable p x) :
    ∃ n : ℤ, x = n * quantum p x := by
  have hrnd := rnd_of_representable h
  exact ⟨_, hrnd.symm⟩

/-- A small integer and one half have a sum of `p` bits. -/
theorem representable_add_half {i : ℤ} (h0 : 0 ≤ i) (h : i < 2 ^ (p - 1)) (hp : 0 < p) :
    Representable p (i + 1 / 2) := by
  obtain ⟨p, rfl⟩ : ∃ k, p = k + 1 := ⟨p - 1, by omega⟩
  refine ⟨2 * i + 1, -1, ?_, by push_cast; ring⟩
  rw [abs_of_nonneg (by omega), pow_succ]
  rw [Nat.add_sub_cancel] at h
  omega

/-- The numbers of `p` bits are as far apart at `i + 1 / 2` as at `i`, where all
    their bits are before the point. -/
theorem quantum_add_half {i : ℤ} (h : 2 ^ (p - 1) ≤ i) :
    ∃ k : ℕ, quantum p i = 2 ^ k ∧ quantum p (i + 1 / 2) = 2 ^ k := by
  have hi : (0 : ℚ) < i := by
    have hpow : (0 : ℤ) < 2 ^ (p - 1) := by positivity
    exact_mod_cast hpow.trans_le h
  obtain ⟨k, hk⟩ : ∃ k : ℕ, Int.log 2 |(i : ℚ)| + 1 = (p + k : ℕ) := by
    have hlog : ((p - 1 : ℕ) : ℤ) ≤ Int.log 2 |(i : ℚ)| := by
      rw [abs_of_pos hi, ← Int.zpow_le_iff_le_log (by norm_num) hi, zpow_natCast]
      exact_mod_cast h
    exact ⟨(Int.log 2 |(i : ℚ)| + 1 - p).toNat, by omega⟩
  have hlow : (2 : ℚ) ^ Int.log 2 |(i : ℚ)| ≤ i := by
    rw [abs_of_pos hi]
    exact_mod_cast Int.zpow_log_le_self (b := 2) (by norm_num) hi
  -- the integer after `i` is at most the next power of two
  have hup : (i : ℚ) + 1 ≤ 2 ^ (p + k) := by
    have hlt := Int.lt_zpow_succ_log_self (b := 2) (by norm_num) |(i : ℚ)|
    rw [hk, abs_of_pos hi] at hlt
    have hint : i + 1 ≤ (2 : ℤ) ^ (p + k) := by exact_mod_cast hlt
    exact_mod_cast hint
  have hexp : ((p + k : ℕ) : ℤ) - p = k := by omega
  refine ⟨k, by rw [quantum, hk, hexp, zpow_natCast], ?_⟩
  have habs : |(i : ℚ) + 1 / 2| = i + 1 / 2 := abs_of_pos (by linarith)
  rw [quantum_of_mem (k := Int.log 2 |(i : ℚ)|), hk, hexp, zpow_natCast]
  · rw [habs]; linarith
  · rw [habs, hk, zpow_natCast]; linarith

/-- **One half more** than an integer of `p` bits is rounded down to the integer,
    unless all bits are before the point and the integer is odd. -/
theorem floor_rnd_add_half (hp : 0 < p) {i : ℤ} (h0 : 0 ≤ i) (hrep : Representable p i) :
    ⌊rnd p (i + 1 / 2)⌋ = if i < 2 ^ (p - 1) ∨ Even i then i else i + 1 := by
  by_cases hsmall : i < 2 ^ (p - 1)
  · rw [if_pos (Or.inl hsmall), rnd_of_representable (representable_add_half h0 hsmall hp),
      Int.floor_eq_iff]
    constructor <;> linarith
  · obtain ⟨k, hq, hq'⟩ := quantum_add_half (Int.not_lt.1 hsmall)
    obtain ⟨n, hn⟩ := hrep.multiple
    rw [hq] at hn
    have hin : i = n * 2 ^ k := by exact_mod_cast hn
    have hdiv : ((i : ℚ) + 1 / 2) / 2 ^ k = n + 1 / 2 / 2 ^ k := by
      rw [hn]; field_simp
    have hpow : (1 : ℚ) ≤ 2 ^ k := one_le_pow₀ (by norm_num)
    have hhalf : (1 : ℚ) / 2 / 2 ^ k ≤ 1 / 2 := div_le_self (by norm_num) hpow
    rw [rnd, hq', hdiv, roundEven_add (by positivity) hhalf]
    -- one half is left over where the numbers around `i` are the integers
    cases k with
    | zero =>
      obtain rfl : n = i := by rw [hin, pow_zero, mul_one]
      by_cases he : Even n
      · simp [he]
      · rw [if_pos ⟨by norm_num, he⟩, if_neg (not_or.2 ⟨hsmall, he⟩), pow_zero, mul_one,
          Int.floor_intCast]
    | succ k =>
      have heven : Even i := by
        rw [hin, pow_succ]
        exact (even_two.mul_left _).mul_left _
      have hlt : (1 : ℚ) / 2 / 2 ^ (k + 1) < 1 / 2 :=
        div_lt_self (by norm_num) (one_lt_pow₀ (by norm_num) (Nat.succ_ne_zero k))
      rw [if_neg (fun h => hlt.ne h.1), if_pos (Or.inr heven), ← hn, Int.floor_intCast]

end

/-! ## Floating-point numbers -/

/-- What a floating-point number stands for. -/
inductive Number where
  | notANumber
  | infinity (negative : Bool)
  | finite (q : ℚ)
  deriving DecidableEq

namespace Number

/-- The number of an IEEE value; the zeros are one number. -/
def ofFloat : Float.Model.UnpackedFloat → Number
  | .notANumber => notANumber
  | .infinity .negative => infinity true
  | .infinity .positive => infinity false
  | .zero _ => finite 0
  | .finite s m e _ => finite (s.apply m * 2 ^ e)

/-- `a < b`; what is not a number is not ordered. -/
def less : Number → Number → Bool
  | finite a, finite b => decide (a < b)
  | infinity s, finite _ => s
  | finite _, infinity s => !s
  | infinity s, infinity t => s && !t
  | _, _ => false

def neg : Number → Number
  | notANumber => notANumber
  | infinity s => infinity !s
  | finite a => finite (-a)

variable (p : ℕ)

def add : Number → Number → Number
  | finite a, finite b => finite (rnd p (a + b))
  | infinity s, finite _ => infinity s
  | finite _, infinity s => infinity s
  | infinity s, infinity t => if s = t then infinity s else notANumber
  | _, _ => notANumber

def sub (a b : Number) : Number := add p a b.neg

def mul : Number → Number → Number
  | finite a, finite b => finite (rnd p (a * b))
  | infinity s, finite a => if a = 0 then notANumber else infinity (s ^^ decide (a < 0))
  | finite a, infinity s => if a = 0 then notANumber else infinity (s ^^ decide (a < 0))
  | infinity s, infinity t => infinity (s ^^ t)
  | _, _ => notANumber

/-- The integer part. -/
def truncate : Number → Option ℤ
  | finite a => some (if 0 ≤ a then ⌊a⌋ else ⌈a⌉)
  | _ => none

end Number

end Rounding
