/-
  Machines that answer requests: a step takes a state and a request to an answer
  and a new state.

  * `run`: the answers to a list of requests; `after`: the state that they leave.
  * `Along step P s is`: `P` holds of every state and request of the run.
    `along_of_inv` is the invariant rule.
  * `run_eq_of_sim`: machines whose steps give the same answers, in states that
    are related again, answer all requests alike.  `along_of_run_eq` is the
    converse, for steps whose answers tell that `Q` holds.
-/
import Mathlib.Data.List.Basic

namespace Machine

variable {σ τ ι ο : Type}

/-- The answers to the requests. -/
def run (step : σ → ι → ο × σ) : σ → List ι → List ο
  | _, [] => []
  | s, i :: is => (step s i).1 :: run step (step s i).2 is

/-- The state after the requests. -/
def after (step : σ → ι → ο × σ) : σ → List ι → σ
  | s, [] => s
  | s, i :: is => after step (step s i).2 is

/-- `P` holds of the states in which the requests are taken. -/
def Along (step : σ → ι → ο × σ) (P : σ → ι → Prop) : σ → List ι → Prop
  | _, [] => True
  | s, i :: is => P s i ∧ Along step P (step s i).2 is

variable {step : σ → ι → ο × σ} {P Q : σ → ι → Prop}

/-- The invariant rule, for requests that are taken in states with `P`. -/
theorem along_of_inv (Inv : σ → Prop) (hstep : ∀ s i, Inv s → P s i → Inv (step s i).2)
    (hQ : ∀ s i, Inv s → P s i → Q s i) {s : σ} {is : List ι} (hs : Inv s)
    (h : Along step P s is) : Along step Q s is := by
  induction is generalizing s with
  | nil => exact trivial
  | cons i is ih => exact ⟨hQ s i hs h.1, ih (hstep s i hs h.1) h.2⟩

theorem after_of_inv (Inv : σ → Prop) (hstep : ∀ s i, Inv s → Inv (step s i).2) {s : σ}
    (hs : Inv s) (is : List ι) : Inv (after step s is) := by
  induction is generalizing s with
  | nil => exact hs
  | cons i is ih => exact ih (hstep s i hs)

/-- Steps that answer each request by a function of the request. -/
theorem run_eq_map (Inv : σ → Prop) {f : ι → ο}
    (hstep : ∀ s i, Inv s → (step s i).1 = f i ∧ Inv (step s i).2) {s : σ} (hs : Inv s)
    (is : List ι) : run step s is = is.map f := by
  induction is generalizing s with
  | nil => rfl
  | cons i is ih =>
    obtain ⟨hanswer, hinv⟩ := hstep s i hs
    rw [run, List.map_cons, hanswer, ih hinv]

/-- What every step answers. -/
theorem forall_mem_run {A : ο → Prop} (h : ∀ s i, A (step s i).1) (s : σ) (is : List ι) :
    ∀ o ∈ run step s is, A o := by
  induction is generalizing s with
  | nil => exact fun o ho => absurd ho List.not_mem_nil
  | cons i is ih =>
    intro o ho
    rcases List.mem_cons.1 ho with rfl | ho
    · exact h s i
    · exact ih _ o ho

theorem along_of_forall {R : ι → Prop} {is : List ι} (h : ∀ i ∈ is, R i) (s : σ) :
    Along step (fun _ i => R i) s is := by
  induction is generalizing s with
  | nil => exact trivial
  | cons i is ih =>
    exact ⟨h i List.mem_cons_self, ih (fun j hj => h j (List.mem_cons_of_mem i hj)) _⟩

theorem Along.and {s : σ} {is : List ι} (hP : Along step P s is) (hQ : Along step Q s is) :
    Along step (fun s i => P s i ∧ Q s i) s is := by
  induction is generalizing s with
  | nil => exact trivial
  | cons i is ih => exact ⟨⟨hP.1, hQ.1⟩, ih hP.2 hQ.2⟩

theorem along_congr (h : ∀ s i, P s i ↔ Q s i) (s : σ) (is : List ι) :
    Along step P s is ↔ Along step Q s is := by
  induction is generalizing s with
  | nil => exact Iff.rfl
  | cons i is ih => exact and_congr (h s i) (ih _)

/-- Steps that give the same answers, and keep the states related. -/
theorem run_eq_of_sim {step' : τ → ι → ο × τ} (R : σ → τ → Prop)
    (h : ∀ s t i, R s t → P s i →
      (step s i).1 = (step' t i).1 ∧ R (step s i).2 (step' t i).2)
    {s : σ} {t : τ} {is : List ι} (hR : R s t) (hP : Along step P s is) :
    run step s is = run step' t is := by
  induction is generalizing s t with
  | nil => rfl
  | cons i is ih =>
    obtain ⟨hanswer, hR'⟩ := h s t i hR hP.1
    rw [run, run, hanswer, ih hR' hP.2]

/-- Steps that are taken in states with `Q` if they give the same answers, and
    keep the states related then. -/
theorem along_of_run_eq {step' : τ → ι → ο × τ} {B : ι → Prop} (R : σ → τ → Prop)
    (hQ : ∀ s t i, R s t → B i → (step s i).1 = (step' t i).1 → Q s i)
    (hR : ∀ s t i, R s t → B i → Q s i → R (step s i).2 (step' t i).2)
    {s : σ} {t : τ} {is : List ι} (hst : R s t) (hB : ∀ i ∈ is, B i)
    (h : run step s is = run step' t is) : Along step Q s is := by
  induction is generalizing s t with
  | nil => exact trivial
  | cons i is ih =>
    obtain ⟨hanswer, hrun⟩ := List.cons.inj h
    have hBi := hB i List.mem_cons_self
    have hq := hQ s t i hst hBi hanswer
    exact ⟨hq, ih (hR s t i hst hBi hq) (fun j hj => hB j (List.mem_cons_of_mem i hj)) hrun⟩

end Machine
