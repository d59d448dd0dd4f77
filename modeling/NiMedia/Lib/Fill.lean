/-
  Loops that fill a buffer.

  * `store` is an assignment to an element, `forLoop` a counting loop over a
    buffer; both fail where an element is not there.
  * `Fills body off seg`: the program puts `seg` in place of what is at offset
    `off`, and leaves the rest.  `Fills.forLoop`: a loop whose passes fill equal
    pieces, one behind the other, fills them all.
-/
import NiMedia.Lib.Bytes

namespace Fill

open Bytes

variable {α : Type}

def store (i : ℕ) (x : α) (buf : List α) : Option (List α) :=
  if i < buf.length then some (buf.set i x) else none

/-- `for ( i = 0; i < n; ++i ) body( i )`. -/
def forLoop (body : ℕ → List α → Option (List α)) : ℕ → List α → Option (List α)
  | 0, buf => some buf
  | n + 1, buf => (forLoop body n buf).bind (body n)

/-- A loop fails if one of its passes always does. -/
theorem forLoop_eq_none {body : ℕ → List α → Option (List α)} {i n : ℕ} (hi : i < n)
    (h : ∀ buf, body i buf = none) (buf : List α) : forLoop body n buf = none := by
  induction n with
  | zero => omega
  | succ n ih =>
    rw [forLoop]
    rcases Nat.lt_or_eq_of_le (Nat.le_of_lt_succ hi) with hlt | rfl
    · rw [ih hlt]
      rfl
    · cases forLoop body i buf with
      | none => rfl
      | some buf => exact h buf

/-- The program puts `seg` at offset `off`. -/
def Fills (body : List α → Option (List α)) (off : ℕ) (seg : List α) : Prop :=
  ∀ pre old post, pre.length = off → old.length = seg.length →
    body (pre ++ (old ++ post)) = some (pre ++ (seg ++ post))

theorem fills_store (i : ℕ) (x : α) : Fills (store i x) i [x] := by
  rintro pre old post rfl hlen
  obtain ⟨y, rfl⟩ := List.length_eq_one_iff.1 hlen
  rw [store, if_pos (by simp)]
  simp

theorem Fills.forLoop {body : ℕ → List α → Option (List α)} {off L n : ℕ} {seg : ℕ → List α}
    (h : ∀ i < n, Fills (body i) (off + i * L) (seg i)) (hlen : ∀ i < n, (seg i).length = L) :
    Fills (forLoop body n) off ((List.range n).flatMap seg) := by
  induction n with
  | zero =>
    intro pre old post _ hold
    obtain rfl := List.length_eq_zero_iff.1 hold
    rfl
  | succ n ih =>
    intro pre old post hpre hold
    have hsegs := length_flatMap_range n fun i hi => hlen i (by omega)
    rw [length_flatMap_range (n + 1) hlen, Nat.succ_mul] at hold
    have hfirst := ih (fun i hi => h i (by omega)) (fun i hi => hlen i (by omega)) pre
      (old.take (n * L)) (old.drop (n * L) ++ post) hpre
      (by rw [hsegs, List.length_take]; omega)
    rw [← List.append_assoc (old.take _), List.take_append_drop] at hfirst
    have hlast := h n (Nat.lt_succ_self n) (pre ++ (List.range n).flatMap seg) (old.drop (n * L))
      post (by rw [List.length_append, hpre, hsegs])
      (by rw [List.length_drop, hlen n (Nat.lt_succ_self n)]; omega)
    rw [Fill.forLoop, hfirst, Option.bind_some, ← List.append_assoc pre, hlast, List.range_succ,
      List.flatMap_append, List.flatMap_singleton]
    simp only [List.append_assoc]

/-- A buffer of the right size is filled altogether. -/
theorem Fills.whole {body : List α → Option (List α)} {seg old : List α} (h : Fills body 0 seg)
    (hlen : old.length = seg.length) : body old = some seg := by
  have := h [] old [] rfl hlen
  simpa using this

end Fill
