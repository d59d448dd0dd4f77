/-
  Sequences that are cut into blocks.

  * `start bs k` is where block `k` starts in the concatenation;
    `getD_flatten` reads the concatenation in a block.
  * `blockAt bs t` is the block that holds position `t`, or the number of
    blocks behind the end; `blockAt_spec` says where it lies.
-/
import Mathlib.Data.List.GetD
import Mathlib.Data.Nat.Basic
import Mathlib.Order.Basic

namespace Blocks

variable {α : Type}

/-- The position of the first element of block `k`. -/
def start (bs : List (List α)) (k : ℕ) : ℕ := (bs.take k).flatten.length

/-- The block that holds position `t`. -/
def blockAt : List (List α) → ℕ → ℕ
  | [], _ => 0
  | b :: bs, t => if t < b.length then 0 else blockAt bs (t - b.length) + 1

variable {bs : List (List α)} {b : List α} {k t : ℕ}

theorem start_zero (bs : List (List α)) : start bs 0 = 0 := by
  rw [start, List.take_zero, List.flatten_nil, List.length_nil]

theorem start_cons_succ (b : List α) (bs : List (List α)) (k : ℕ) :
    start (b :: bs) (k + 1) = b.length + start bs k := by
  rw [start, start, List.take_succ_cons, List.flatten_cons, List.length_append]

theorem start_succ (h : bs[k]? = some b) : start bs (k + 1) = start bs k + b.length := by
  rw [start, start, List.take_add_one, h, List.flatten_append, List.length_append,
    Option.toList_some, List.flatten_singleton]

theorem start_of_length_le (h : bs.length ≤ k) : start bs k = bs.flatten.length := by
  rw [start, List.take_of_length_le h]

theorem start_mono {j k : ℕ} (h : j ≤ k) (bs : List (List α)) : start bs j ≤ start bs k := by
  induction k with
  | zero =>
    obtain rfl := Nat.le_zero.1 h
    exact le_rfl
  | succ k ih =>
    rcases Nat.eq_or_lt_of_le h with rfl | hlt
    · exact le_rfl
    · refine (ih (Nat.le_of_lt_succ hlt)).trans ?_
      cases hk : bs[k]? with
      | none =>
        have hlen := List.getElem?_eq_none_iff.1 hk
        rw [start_of_length_le hlen, start_of_length_le (hlen.trans (Nat.le_succ k))]
      | some b =>
        rw [start_succ hk]
        exact Nat.le_add_right _ _

theorem start_le (bs : List (List α)) (k : ℕ) : start bs k ≤ bs.flatten.length := by
  rcases Nat.le_total k bs.length with h | h
  · rw [← start_of_length_le le_rfl]
    exact start_mono h bs
  · rw [start_of_length_le h]

/-- `n` blocks of at most `m` elements. -/
theorem start_add_le {m : ℕ} (h : ∀ b ∈ bs, b.length ≤ m) (k n : ℕ) :
    start bs (k + n) ≤ start bs k + n * m := by
  induction n with
  | zero => exact Nat.le_add_right _ _
  | succ n ih =>
    have hnext : start bs (k + n + 1) ≤ start bs (k + n) + m := by
      cases hb : bs[k + n]? with
      | none =>
        have hlen := List.getElem?_eq_none_iff.1 hb
        rw [start_of_length_le hlen, start_of_length_le (hlen.trans (Nat.le_succ _))]
        exact Nat.le_add_right _ _
      | some b =>
        rw [start_succ hb]
        exact Nat.add_le_add_left (h b (List.mem_of_getElem? hb)) _
    rw [Nat.succ_mul, ← Nat.add_assoc, ← Nat.add_assoc]
    exact hnext.trans (Nat.add_le_add_right ih m)

/-- The concatenation, read in block `k`. -/
theorem getD_flatten (h : bs[k]? = some b) {j : ℕ} (hj : j < b.length) (d : α) :
    bs.flatten.getD (start bs k + j) d = b.getD j d := by
  induction bs generalizing k with
  | nil => cases h
  | cons c bs ih =>
    cases k with
    | zero =>
      obtain rfl : c = b := Option.some.inj h
      rw [start_zero, Nat.zero_add, List.flatten_cons, List.getD_append _ _ _ _ hj]
    | succ k =>
      rw [start_cons_succ, List.flatten_cons, Nat.add_assoc,
        List.getD_append_right _ _ _ _ (Nat.le_add_right _ _), Nat.add_sub_cancel_left]
      exact ih h

/-- Where the block that holds `t` lies. -/
theorem blockAt_spec (h : t < bs.flatten.length) :
    ∃ b, bs[blockAt bs t]? = some b ∧ start bs (blockAt bs t) ≤ t ∧
      t < start bs (blockAt bs t) + b.length := by
  induction bs generalizing t with
  | nil => exact absurd h (Nat.not_lt_zero t)
  | cons c bs ih =>
    by_cases ht : t < c.length
    · rw [blockAt, if_pos ht, start_zero]
      exact ⟨c, rfl, Nat.zero_le t, by omega⟩
    · rw [List.flatten_cons, List.length_append] at h
      obtain ⟨b, hb, hle, hlt⟩ := ih (t := t - c.length) (by omega)
      rw [blockAt, if_neg ht, start_cons_succ]
      exact ⟨b, hb, by omega, by omega⟩

theorem blockAt_of_length_le (h : bs.flatten.length ≤ t) : blockAt bs t = bs.length := by
  induction bs generalizing t with
  | nil => rfl
  | cons c bs ih =>
    rw [List.flatten_cons, List.length_append] at h
    rw [blockAt, if_neg (by omega), ih (by omega), List.length_cons]

theorem blockAt_replicate (h : 0 < b.length) (n t : ℕ) :
    blockAt (List.replicate n b) t = min (t / b.length) n := by
  induction n generalizing t with
  | zero => exact (Nat.min_zero _).symm
  | succ n ih =>
    rw [List.replicate_succ, blockAt, ih]
    by_cases ht : t < b.length
    · rw [if_pos ht, Nat.div_eq_of_lt ht, Nat.zero_min]
    · rw [if_neg ht, Nat.div_eq_sub_div h (not_lt.1 ht), Nat.add_min_add_right]

theorem blockAt_le (bs : List (List α)) (t : ℕ) : blockAt bs t ≤ bs.length := by
  rcases Nat.lt_or_ge t bs.flatten.length with h | h
  · obtain ⟨b, hb, -, -⟩ := blockAt_spec h
    exact (List.getElem?_eq_some_iff.1 hb).1.le
  · exact (blockAt_of_length_le h).le

theorem start_blockAt_le (bs : List (List α)) (t : ℕ) : start bs (blockAt bs t) ≤ t := by
  rcases Nat.lt_or_ge t bs.flatten.length with h | h
  · obtain ⟨b, -, hle, -⟩ := blockAt_spec h
    exact hle
  · rw [blockAt_of_length_le h, start_of_length_le (Nat.le_refl _)]
    exact h

theorem blockAt_mono {s t : ℕ} (h : s ≤ t) (bs : List (List α)) : blockAt bs s ≤ blockAt bs t := by
  induction bs generalizing s t with
  | nil => exact le_rfl
  | cons c bs ih =>
    rw [blockAt, blockAt]
    by_cases hs : s < c.length
    · rw [if_pos hs]
      exact Nat.zero_le _
    · rw [if_neg hs, if_neg (by omega)]
      exact Nat.succ_le_succ (ih (by omega))

end Blocks
