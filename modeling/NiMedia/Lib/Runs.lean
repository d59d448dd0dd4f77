/-
  Relations of steps that answer requests as a machine does.

  A step relation leaves open how a request is served: how much is fetched at
  once, say, or what is kept for later.  `Serves` says that it makes no
  difference, in states that are related to those of a machine.

  * `Runs step s is os s'`: a run, with its requests and its answers.
  * `Serves.runs`: the answers of any run are those of the machine.
  * `Serves.exists_runs`: all requests are served.
-/
import NiMedia.Lib.Machine

namespace Machine

variable {σ τ ι ο : Type}

/-- The requests of a run, the answers to them, and the states that it joins. -/
inductive Runs (step : σ → ι → ο → σ → Prop) : σ → List ι → List ο → σ → Prop
  | nil {s : σ} : Runs step s [] [] s
  | cons {s s' s'' : σ} {i : ι} {o : ο} {is : List ι} {os : List ο} (h : step s i o s')
    (hs : Runs step s' is os s'') : Runs step s (i :: is) (o :: os) s''

/-- In related states, where the machine takes requests with `P`: each request is
    served, with the answer of the machine. -/
structure Serves (step : σ → ι → ο → σ → Prop) (step' : τ → ι → ο × τ) (P : τ → ι → Prop)
    (R : σ → τ → Prop) : Prop where
  total : ∀ {s t i}, R s t → P t i → ∃ o s', step s i o s'
  answer : ∀ {s t i o s'}, R s t → P t i → step s i o s' →
    o = (step' t i).1 ∧ R s' (step' t i).2

section
variable {step : σ → ι → ο → σ → Prop} {step' : τ → ι → ο × τ} {P : τ → ι → Prop}
  {R : σ → τ → Prop} {s s' : σ} {t : τ} {is : List ι} {os : List ο}

/-- **Any run** answers as the machine. -/
theorem Serves.runs (h : Serves step step' P R) (hR : R s t) (hP : Along step' P t is)
    (hrun : Runs step s is os s') : os = run step' t is ∧ R s' (after step' t is) := by
  induction hrun generalizing t with
  | nil => exact ⟨rfl, hR⟩
  | cons hstep _ ih =>
    obtain ⟨hi, his⟩ := hP
    obtain ⟨ho, hR'⟩ := h.answer hR hi hstep
    obtain ⟨hos, hlast⟩ := ih hR' his
    exact ⟨by rw [run, ho, hos], hlast⟩

/-- **All requests** are served. -/
theorem Serves.exists_runs (h : Serves step step' P R) (hR : R s t) (hP : Along step' P t is) :
    ∃ os s', Runs step s is os s' := by
  induction is generalizing s t with
  | nil => exact ⟨[], s, .nil⟩
  | cons i is ih =>
    obtain ⟨hi, his⟩ := hP
    obtain ⟨o, s₁, hstep⟩ := h.total hR hi
    obtain ⟨os, s', hrun⟩ := ih (h.answer hR hi hstep).2 his
    exact ⟨o :: os, s', .cons hstep hrun⟩

/-- What is served, and that it is served. -/
theorem Serves.run_iff (h : Serves step step' P R) (hR : R s t) (hP : Along step' P t is) :
    (∃ s', Runs step s is os s') ↔ os = run step' t is := by
  constructor
  · rintro ⟨s', hrun⟩
    exact (h.runs hR hP hrun).1
  · rintro rfl
    obtain ⟨os, s', hrun⟩ := h.exists_runs hR hP
    rw [← (h.runs hR hP hrun).1]
    exact ⟨s', hrun⟩

end

end Machine
