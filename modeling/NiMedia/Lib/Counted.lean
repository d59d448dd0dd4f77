/-
  Objects that count their references.

  An object lives at an address from its allocation, with one reference, to the
  release of the last one; addresses are not used again.  An access to an object
  that does not live fails.

  * `alloc`, `addRef`, `get`, `release`: what they leave at the addresses.
  * `addRef_release`: a reference that is taken and given back changes nothing.
-/
import Mathlib.Logic.Function.Basic
import Mathlib.Data.Nat.Notation

namespace Counted

/-- The objects that live, with their references.  None lives without one. -/
structure Heap (α : Type) where
  cells : ℕ → Option (ℕ × α)
  next : ℕ
  fresh : ∀ p, next ≤ p → cells p = none
  counted : ∀ p n x, cells p = some (n, x) → 0 < n

namespace Heap

variable {α : Type} {H : Heap α} {p n : ℕ} {x : α}

theorem ext {H G : Heap α} (hcells : H.cells = G.cells) (hnext : H.next = G.next) : H = G := by
  cases H
  cases G
  cases hcells
  cases hnext
  rfl

theorem lt_next (h : H.cells p = some (n, x)) : p < H.next := by
  by_contra hp
  rw [H.fresh p (Nat.not_lt.1 hp)] at h
  cases h

/-- No object. -/
def empty : Heap α where
  cells _ := none
  next := 0
  fresh _ _ := rfl
  counted _ _ _ h := by cases h

/-! ## Changes at one address -/

def put (H : Heap α) (p n : ℕ) (x : α) (hp : p < H.next) (hn : 0 < n) : Heap α where
  cells := Function.update H.cells p (some (n, x))
  next := H.next
  fresh q hq := by
    rw [Function.update_of_ne (Nat.ne_of_gt (Nat.lt_of_lt_of_le hp hq))]
    exact H.fresh q hq
  counted q m y h := by
    by_cases hqp : q = p
    · subst hqp
      rw [Function.update_self] at h
      cases h
      exact hn
    · rw [Function.update_of_ne hqp] at h
      exact H.counted q m y h

def free (H : Heap α) (p : ℕ) : Heap α where
  cells := Function.update H.cells p none
  next := H.next
  fresh q hq := by
    by_cases hqp : q = p
    · rw [hqp, Function.update_self]
    · rw [Function.update_of_ne hqp]
      exact H.fresh q hq
  counted q m y h := by
    by_cases hqp : q = p
    · rw [hqp, Function.update_self] at h
      cases h
    · rw [Function.update_of_ne hqp] at h
      exact H.counted q m y h

/-! ## Operations -/

/-- A new object, with the reference of the one who makes it. -/
def alloc (x : α) (H : Heap α) : ℕ × Heap α :=
  (H.next, {
    cells := Function.update H.cells H.next (some (1, x))
    next := H.next + 1
    fresh := fun q hq => by
      rw [Function.update_of_ne (by omega)]
      exact H.fresh q (by omega)
    counted := fun q m y h => by
      by_cases hq : q = H.next
      · rw [hq, Function.update_self] at h
        cases h
        exact Nat.one_pos
      · rw [Function.update_of_ne hq] at h
        exact H.counted q m y h })

def addRef (p : ℕ) (H : Heap α) : Option (Heap α) :=
  match h : H.cells p with
  | none => none
  | some (n, x) => some (H.put p (n + 1) x (lt_next h) (Nat.succ_pos n))

def get (p : ℕ) (H : Heap α) : Option α := (H.cells p).map Prod.snd

/-- The object is returned if this was the last reference: it dies. -/
def release (p : ℕ) (H : Heap α) : Option (Option α × Heap α) :=
  match h : H.cells p with
  | none => none
  | some (n, x) =>
    if hn : n = 1 then some (some x, H.free p)
    else some (none, H.put p (n - 1) x (lt_next h)
      (Nat.sub_pos_of_lt (Nat.lt_of_le_of_ne (H.counted p n x h) (Ne.symm hn))))

theorem alloc_fst (x : α) (H : Heap α) : (H.alloc x).1 = H.next := rfl

theorem cells_alloc (x : α) (H : Heap α) :
    (H.alloc x).2.cells = Function.update H.cells H.next (some (1, x)) := rfl

theorem cells_alloc_self (x : α) (H : Heap α) : (H.alloc x).2.cells H.next = some (1, x) := by
  rw [cells_alloc, Function.update_self]

/-- An object that dies at once leaves nothing behind. -/
theorem cells_alloc_free (x : α) (H : Heap α) :
    ((H.alloc x).2.free H.next).cells = H.cells := by
  funext q
  by_cases hq : q = H.next
  · rw [hq, H.fresh H.next (Nat.le_refl _)]
    exact Function.update_self _ _ _
  · exact (Function.update_of_ne hq _ _).trans (Function.update_of_ne hq _ _)

theorem get_eq (h : H.cells p = some (n, x)) : H.get p = some x := by
  rw [get, h]
  rfl

theorem addRef_eq (h : H.cells p = some (n, x)) :
    H.addRef p = some (H.put p (n + 1) x (lt_next h) (Nat.succ_pos n)) := by
  unfold addRef
  split
  · next h' =>
    rw [h] at h'
    cases h'
  · next m y h' =>
    rw [h] at h'
    cases h'
    rfl

/-- The last reference. -/
theorem release_one (h : H.cells p = some (1, x)) : H.release p = some (some x, H.free p) := by
  unfold release
  split
  · next h' =>
    rw [h] at h'
    cases h'
  · next m y h' =>
    rw [h] at h'
    cases h'
    rfl

/-- One reference of several. -/
theorem release_succ (h : H.cells p = some (n + 1, x)) (hn : 0 < n) :
    H.release p = some (none, H.put p n x (lt_next h) hn) := by
  unfold release
  split
  · next h' =>
    rw [h] at h'
    cases h'
  · next m y h' =>
    rw [h] at h'
    cases h'
    rw [dif_neg (by omega)]
    rfl

/-- **A reference that is taken and given back** changes nothing. -/
theorem addRef_release (h : H.cells p = some (n, x)) :
    ((H.addRef p).bind fun G => G.release p) = some (none, H) := by
  have hcells : (H.put p (n + 1) x (lt_next h) (Nat.succ_pos n)).cells p = some (n + 1, x) :=
    Function.update_self _ _ _
  rw [addRef_eq h, Option.bind_some, release_succ hcells (H.counted p n x h)]
  refine congrArg some (Prod.ext rfl (ext ?_ rfl))
  -- both changes are at the address, which holds what it held
  funext q
  by_cases hq : q = p
  · rw [hq]
    exact (Function.update_self _ _ _).trans h.symm
  · exact (Function.update_of_ne hq _ _).trans (Function.update_of_ne hq _ _)

end Heap

end Counted
