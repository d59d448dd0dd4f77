/-
  Machine words: flipping the top bit, clearing the lowest bit, signed
  wraparound, and operations that may wrap around.
-/
import Mathlib.Data.Nat.Bitwise
import Mathlib.Tactic.Ring

namespace Words

/-! ## The top bit -/

theorem xor_two_pow {m n : ℕ} (h : n < 2 ^ (m + 1)) :
    n ^^^ 2 ^ m = if n < 2 ^ m then n + 2 ^ m else n - 2 ^ m := by
  have hpos : 0 < 2 ^ m := Nat.two_pow_pos m
  have hlow : (n ^^^ 2 ^ m) % 2 ^ m = n % 2 ^ m := by
    rw [Nat.xor_mod_two_pow, Nat.mod_self, Nat.xor_zero]
  have hhigh : (n ^^^ 2 ^ m) / 2 ^ m = n / 2 ^ m ^^^ 1 := by
    rw [Nat.xor_div_two_pow, Nat.div_self hpos]
  have hsplit := Nat.div_add_mod (n ^^^ 2 ^ m) (2 ^ m)
  rw [hlow, hhigh] at hsplit
  split_ifs with hn
  · rw [Nat.div_eq_of_lt hn, Nat.mod_eq_of_lt hn] at hsplit
    simp only [Nat.zero_xor, Nat.mul_one] at hsplit
    omega
  · have h1 : n / 2 ^ m = 1 := by
      rw [pow_succ] at h
      exact Nat.div_eq_of_lt_le (by omega) (by omega)
    have h2 := Nat.div_add_mod n (2 ^ m)
    rw [h1] at hsplit h2
    simp only [Nat.xor_self, Nat.mul_zero, Nat.zero_add] at hsplit
    omega

/-- `v` with its top bit flipped. -/
def flipTop {w : ℕ} (v : BitVec w) : BitVec w := v ^^^ BitVec.intMin w

section
variable {w : ℕ}

@[simp] theorem flipTop_flipTop (v : BitVec w) : flipTop (flipTop v) = v := by
  rw [flipTop, flipTop, BitVec.xor_assoc, BitVec.xor_self, BitVec.xor_zero]

theorem flipTop_injective {u v : BitVec w} (h : flipTop u = flipTop v) : u = v := by
  rw [← flipTop_flipTop u, h, flipTop_flipTop]

theorem getLsbD_flipTop (v : BitVec w) (i : ℕ) :
    (flipTop v).getLsbD i = (v.getLsbD i ^^ decide (i + 1 = w)) := by
  rw [flipTop, BitVec.getLsbD_xor, BitVec.getLsbD_intMin]

theorem toNat_flipTop (hw : 0 < w) (v : BitVec w) :
    (flipTop v).toNat = if v.toNat < 2 ^ (w - 1) then v.toNat + 2 ^ (w - 1)
      else v.toNat - 2 ^ (w - 1) := by
  rw [flipTop, BitVec.toNat_xor, BitVec.toNat_intMin_of_pos hw, xor_two_pow]
  rw [Nat.sub_add_cancel hw]; exact v.isLt

/-- Flipping the top bit turns two's complement into offset binary. -/
theorem toInt_add_two_pow (hw : 0 < w) (v : BitVec w) :
    v.toInt + 2 ^ (w - 1) = ((flipTop v).toNat : ℤ) := by
  have h2 : 2 ^ w = 2 * 2 ^ (w - 1) := by rw [← pow_succ', Nat.sub_add_cancel hw]
  have hlt : v.toNat < 2 * 2 ^ (w - 1) := h2 ▸ v.isLt
  have hcast : (2 : ℤ) ^ (w - 1) = ((2 ^ (w - 1) : ℕ) : ℤ) := by push_cast; rfl
  rw [toNat_flipTop hw, BitVec.toInt_eq_toNat_cond, h2, hcast]
  generalize 2 ^ (w - 1) = M at hlt
  split_ifs <;> omega

end

/-! ## The lowest bit -/

/-- Masking with all bits but the lowest rounds down to an even number. -/
theorem and_even_mask {x k : ℕ} (hx : x < 2 ^ (k + 1)) :
    x &&& (2 ^ (k + 1) - 2) = x / 2 * 2 := by
  have hdiv : (2 ^ (k + 1) - 2) / 2 ^ 1 = 2 ^ k - 1 := by rw [pow_succ]; omega
  have hmod : (2 ^ (k + 1) - 2) % 2 ^ 1 = 0 := by rw [pow_succ]; omega
  have hhigh : (x &&& (2 ^ (k + 1) - 2)) / 2 ^ 1 = x / 2 := by
    rw [Nat.and_div_two_pow, hdiv, Nat.and_two_pow_sub_one_eq_mod, pow_one]
    rw [pow_succ] at hx
    exact Nat.mod_eq_of_lt (by omega)
  have hlow : (x &&& (2 ^ (k + 1) - 2)) % 2 ^ 1 = 0 := by
    rw [Nat.and_mod_two_pow, hmod, Nat.and_zero]
  omega

/-! ## Signed wraparound -/

/-- `x` on a signed two's complement word of `w` bits. -/
def wrap (w : ℕ) (x : ℤ) : ℤ := x.bmod (2 ^ w)

theorem wrap_of_range {w : ℕ} {x : ℤ} (h0 : -2 ^ w ≤ x) (h1 : x < 2 ^ w) :
    wrap (w + 1) x = x := by
  have h2 : ((2 ^ (w + 1) : ℕ) : ℤ) = 2 * 2 ^ w := by push_cast; ring
  rw [wrap]
  apply Int.bmod_eq_of_le <;> rw [h2] <;> omega

/-- A number that is too large for the word comes out below zero. -/
theorem wrap_of_ge {w : ℕ} {x : ℤ} (h0 : 2 ^ w ≤ x) (h1 : x < 2 ^ w + 2 ^ (w + 1)) :
    wrap (w + 1) x = x - 2 ^ (w + 1) := by
  have h2 : ((2 : ℤ) ^ (w + 1)) = 2 * 2 ^ w := by ring
  have hcast : ((2 ^ (w + 1) : ℕ) : ℤ) = 2 ^ (w + 1) := by push_cast; ring
  have hstep : wrap (w + 1) (x - 2 ^ (w + 1)) = wrap (w + 1) x := by
    rw [wrap, wrap, ← hcast]
    exact Int.sub_bmod_right _ _
  rw [← hstep]
  exact wrap_of_range (by omega) (by omega)

/-- A number that is too small for the word comes out above zero. -/
theorem wrap_of_lt {w : ℕ} {x : ℤ} (h0 : x < -2 ^ w) (h1 : -2 ^ w - 2 ^ (w + 1) ≤ x) :
    wrap (w + 1) x = x + 2 ^ (w + 1) := by
  have h2 : ((2 : ℤ) ^ (w + 1)) = 2 * 2 ^ w := by ring
  have hcast : ((2 ^ (w + 1) : ℕ) : ℤ) = 2 ^ (w + 1) := by push_cast; ring
  have hstep : wrap (w + 1) (x + 2 ^ (w + 1)) = wrap (w + 1) x := by
    rw [wrap, wrap, ← hcast]
    exact Int.add_bmod_right _ _
  rw [← hstep]
  exact wrap_of_range (by omega) (by omega)

theorem wrap_lt (w : ℕ) (x : ℤ) : wrap (w + 1) x < 2 ^ w := by
  have h2 : ((2 ^ (w + 1) : ℕ) : ℤ) = 2 * 2 ^ w := by push_cast; ring
  have hbmod := Int.bmod_lt (x := x) (Nat.two_pow_pos (w + 1))
  rw [h2] at hbmod
  rw [wrap]
  omega

/-- A number that is not negative gets smaller, unless the word holds it. -/
theorem wrap_natCast (w n : ℕ) : wrap (w + 1) n ≤ n ∧ (wrap (w + 1) n = n ↔ n < 2 ^ w) := by
  by_cases hn : n < 2 ^ w
  · have hcast : (n : ℤ) < 2 ^ w := by exact_mod_cast hn
    have hpos : (0 : ℤ) ≤ 2 ^ w := by exact_mod_cast Nat.zero_le (2 ^ w)
    have heq : wrap (w + 1) n = n := wrap_of_range (by omega) hcast
    exact ⟨heq.le, iff_of_true heq hn⟩
  · have hlt := wrap_lt w n
    have hle : (2 : ℤ) ^ w ≤ n := by exact_mod_cast not_lt.1 hn
    exact ⟨(hlt.trans_le hle).le, iff_of_false (hlt.trans_le hle).ne hn⟩

/-! ## Operations -/

/-- An operation on integers: what the machine computes, and the exact value. -/
structure Operation where
  result : ℤ
  value : ℤ

namespace Operation

def isExact (op : Operation) : Prop := op.result = op.value

/-- In a signed word, a value that is not negative. -/
def signed (w n : ℕ) : Operation := ⟨wrap w n, n⟩

/-- In an unsigned word. -/
def unsigned (w n : ℕ) : Operation := ⟨(n % 2 ^ w : ℕ), n⟩

theorem signed_isExact {w n : ℕ} : (signed (w + 1) n).isExact ↔ n < 2 ^ w := (wrap_natCast w n).2

theorem unsigned_isExact {w n : ℕ} : (unsigned w n).isExact ↔ n < 2 ^ w := by
  have hpos : 0 < 2 ^ w := Nat.two_pow_pos w
  have hcast : (unsigned w n).isExact ↔ n % 2 ^ w = n := Nat.cast_inj
  rw [hcast, Nat.mod_eq_iff_lt hpos.ne']

end Operation

end Words
