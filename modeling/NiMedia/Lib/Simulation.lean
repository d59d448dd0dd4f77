/-
  Forward simulation between programs over two kinds of state.

  A program is a state transformer that may fail with an error; its loops are
  those of `Loop`.

  * `Agree P`: two results are the same error, or values related by `P`.
  * `Sim R Q m n`: from states related by `R`, the results of `m` and `n`
    agree, their values and states being related by `Q`; with the rules for
    `pure`, `throw`, binds and branches.
  * `iterate_sim`: loops whose passes simulate each other return together;
    `iterate_loopStep_sim` for loops over programs.
  * `runs_iff`: what the simulated program returns with some fuel, the other
    one returns with enough fuel.
-/
import NiMedia.Lib.Loop

namespace Simulation

variable {ε σ τ α β γ δ : Type}

/-- The same error, or related values. -/
def Agree (P : α → β → Prop) : Except ε α → Except ε β → Prop
  | .ok a, .ok b => P a b
  | .error e, .error e' => e = e'
  | _, _ => False

theorem Agree.mono {P Q : α → β → Prop} (hPQ : ∀ a b, P a b → Q a b) {x : Except ε α}
    {y : Except ε β} (h : Agree P x y) : Agree Q x y := by
  cases x with
  | error e => cases y with
    | error e' => exact h
    | ok b => exact h.elim
  | ok a => cases y with
    | error e' => exact h.elim
    | ok b => exact hPQ _ _ h

/-- The same value, or the same error. -/
theorem Agree.map_fst {R : σ → τ → Prop} {x : Except ε (α × σ)} {y : Except ε (α × τ)}
    (h : Agree (fun x y => x.1 = y.1 ∧ R x.2 y.2) x y) : x.map Prod.fst = y.map Prod.fst := by
  cases x with
  | error e => cases y with
    | error e' => exact congrArg Except.error h
    | ok b => exact h.elim
  | ok a => cases y with
    | error e' => exact h.elim
    | ok b => exact congrArg Except.ok h.1

theorem Agree.ok_left {P : α → β → Prop} {a : α} {y : Except ε β} (h : Agree P (.ok a) y) :
    ∃ b, y = .ok b ∧ P a b := by
  cases y with
  | error e' => exact h.elim
  | ok b => exact ⟨b, rfl, h⟩

theorem Agree.ok_right {P : α → β → Prop} {b : β} {x : Except ε α} (h : Agree P x (.ok b)) :
    ∃ a, x = .ok a ∧ P a b := by
  cases x with
  | error e' => exact h.elim
  | ok a => exact ⟨a, rfl, h⟩

/-- What is known of the results on the right. -/
theorem Agree.and_ok {P : α → β → Prop} {Q : β → Prop} {x : Except ε α} {y : Except ε β}
    (h : Agree P x y) (hy : ∀ b, y = .ok b → Q b) : Agree (fun a b => P a b ∧ Q b) x y := by
  cases x with
  | error e => cases y with
    | error e' => exact h
    | ok b => exact h.elim
  | ok a => cases y with
    | error e' => exact h.elim
    | ok b => exact ⟨h, hy b rfl⟩

/-- What holds of a result that is known. -/
theorem ok_and_iff {x : Except ε α} {a : α} (h : x = .ok a) {P : α → Prop} :
    (∃ a', x = .ok a' ∧ P a') ↔ P a := by
  constructor
  · rintro ⟨a', h', hP⟩
    obtain rfl : a = a' := Except.ok.inj (h.symm.trans h')
    exact hP
  · intro hP
    exact ⟨a, h, hP⟩

theorem ok_imp_iff {x : Except ε α} {a : α} (h : x = .ok a) {P : α → Prop} :
    (∀ a', x = .ok a' → P a') ↔ P a := by
  constructor
  · intro hP
    exact hP a h
  · intro hP a' h'
    obtain rfl : a = a' := Except.ok.inj (h.symm.trans h')
    exact hP

/-- What holds with a result that is known. -/
theorem exists_ok_iff {x : Except ε α} {a : α} (h : x = .ok a) {P : α → β → γ → δ → Prop} :
    (∃ a' b c d, x = .ok a' ∧ P a' b c d) ↔ ∃ b c d, P a b c d := by
  constructor
  · rintro ⟨a', b, c, d, h', hP⟩
    exact ⟨b, c, d, (ok_imp_iff h' (P := fun a' => P a' b c d)).2 hP a h⟩
  · rintro ⟨b, c, d, hP⟩
    exact ⟨a, b, c, d, h, hP⟩

theorem map_eq_error {x : Except ε α} {g : α → β} {e : ε} (h : x.map g = .error e) :
    x = .error e := by
  cases x with
  | error e' => cases h; rfl
  | ok a => cases h

/-- A result that is read off a run. -/
theorem exists_ok_of_map {x : Option (Except ε α)} {g : α → β} {b : β}
    (h : (x.bind Except.toOption).map g = some b) : ∃ a, x = some (.ok a) ∧ g a = b := by
  obtain ⟨a, ha, hg⟩ := Option.map_eq_some_iff.1 h
  obtain ⟨r, hr, hr'⟩ := Option.bind_eq_some_iff.1 ha
  cases r with
  | error e => cases hr'
  | ok a' => cases hr'; exact ⟨a, hr, hg⟩

/-! ## Runs -/

theorem ok_bind (a : α) (k : α → Except ε β) : (Except.ok a >>= k) = k a := rfl

/-- Two results with the same image: both are errors, the same one, or both are
    values with the same image. -/
theorem map_eq_cases {f : α → β} {x y : Except ε α} (h : x.map f = y.map f) :
    (∃ e, x = .error e ∧ y = .error e) ∨ ∃ a b, x = .ok a ∧ y = .ok b ∧ f a = f b := by
  cases x with
  | error e =>
    cases y with
    | error e' =>
      obtain rfl : e = e' := Except.error.inj h
      exact .inl ⟨e, rfl, rfl⟩
    | ok b => cases h
  | ok a =>
    cases y with
    | error e => cases h
    | ok b => exact .inr ⟨a, b, rfl, rfl, Except.ok.inj h⟩

theorem bind_eq_ok {x : Except ε α} {k : α → Except ε β} {b : β} (h : (x >>= k) = .ok b) :
    ∃ a, x = .ok a ∧ k a = .ok b := by
  cases x with
  | error e => cases h
  | ok a => exact ⟨a, rfl, h⟩

section
variable (s : σ)

theorem run_bind (m : StateT σ (Except ε) α) (k : α → StateT σ (Except ε) β) :
    (m >>= k) s = (m s).bind fun x => k x.1 x.2 := rfl

theorem run_pure (a : α) : (pure a : StateT σ (Except ε) α) s = .ok (a, s) := rfl

theorem run_liftM (x : Except ε α) :
    (liftM x : StateT σ (Except ε) α) s = x.map fun a => (a, s) := by
  cases x <;> rfl

theorem run_ite {p : Prop} [Decidable p] (m n : StateT σ (Except ε) α) :
    (if p then m else n) s = if p then m s else n s := by
  split_ifs <;> rfl

end

theorem run_bind_ok {s : σ} {m : StateT σ (Except ε) α} {k : α → StateT σ (Except ε) β}
    {y : β × σ} (h : (m >>= k) s = .ok y) : ∃ x, m s = .ok x ∧ k x.1 x.2 = .ok y := by
  rw [run_bind] at h
  exact bind_eq_ok h

/-! ## Simulation -/

/-- From states related by `R`, the results agree up to `Q`. -/
def Sim (R : σ → τ → Prop) (Q : α → σ → β → τ → Prop) (m : StateT σ (Except ε) α)
    (n : StateT τ (Except ε) β) : Prop :=
  ∀ s t, R s t → Agree (fun x y => Q x.1 x.2 y.1 y.2) (m s) (n t)

/-- The same value, and states that are related again. -/
def Same (R : σ → τ → Prop) : α → σ → α → τ → Prop := fun a s b t => a = b ∧ R s t

section
variable {R : σ → τ → Prop}

theorem Sim.pure {Q : α → σ → β → τ → Prop} {a : α} {b : β} (h : ∀ s t, R s t → Q a s b t) :
    Sim (ε := ε) R Q (Pure.pure a) (Pure.pure b) := h

theorem Sim.throw {Q : α → σ → β → τ → Prop} {e : ε} :
    Sim R Q (throw e : StateT σ (Except ε) α) (throw e) := fun _ _ _ => rfl

/-- The results of the first parts may be related by any `P`. -/
theorem Sim.bind {P : α → σ → β → τ → Prop} {Q : γ → σ → δ → τ → Prop}
    {m : StateT σ (Except ε) α} {n : StateT τ (Except ε) β} {k : α → StateT σ (Except ε) γ}
    {l : β → StateT τ (Except ε) δ} (h : Sim R P m n)
    (hk : ∀ a b, Sim (fun s t => P a s b t) Q (k a) (l b)) : Sim R Q (m >>= k) (n >>= l) := by
  intro s t hR
  have h1 := h s t hR
  change Agree _ ((m s).bind fun x => k x.1 x.2) ((n t).bind fun y => l y.1 y.2)
  cases hm : m s with
  | error e =>
    cases hn : n t with
    | error e' => rw [hm, hn] at h1; exact h1
    | ok y => rw [hm, hn] at h1; exact h1.elim
  | ok x =>
    cases hn : n t with
    | error e' => rw [hm, hn] at h1; exact h1.elim
    | ok y => rw [hm, hn] at h1; exact hk x.1 y.1 x.2 y.2 h1

/-- First parts with the same value leave the second parts to be compared at
    that value. -/
theorem Sim.bind_eq {P : α → σ → τ → Prop} {Q : γ → σ → δ → τ → Prop}
    {m : StateT σ (Except ε) α} {n : StateT τ (Except ε) α} {k : α → StateT σ (Except ε) γ}
    {l : α → StateT τ (Except ε) δ} (h : Sim R (fun a s b t => a = b ∧ P a s t) m n)
    (hk : ∀ a, Sim (P a) Q (k a) (l a)) : Sim R Q (m >>= k) (n >>= l) := by
  refine h.bind fun a b s t hP => ?_
  obtain ⟨rfl, hR⟩ := hP
  exact hk a s t hR

theorem Sim.bind_same {Q : γ → σ → δ → τ → Prop} {m : StateT σ (Except ε) α}
    {n : StateT τ (Except ε) α} {k : α → StateT σ (Except ε) γ} {l : α → StateT τ (Except ε) δ}
    (h : Sim R (Same R) m n) (hk : ∀ a, Sim R Q (k a) (l a)) : Sim R Q (m >>= k) (n >>= l) :=
  h.bind_eq hk

theorem Sim.ite {Q : α → σ → β → τ → Prop} {p : Prop} [Decidable p]
    {m m' : StateT σ (Except ε) α} {n n' : StateT τ (Except ε) β} (h : Sim R Q m n)
    (h' : Sim R Q m' n') : Sim R Q (if p then m else m') (if p then n else n') := by
  by_cases hp : p
  · rw [if_pos hp, if_pos hp]; exact h
  · rw [if_neg hp, if_neg hp]; exact h'

theorem Sim.refl (m : StateT σ (Except ε) α) : Sim (· = ·) (Same (· = ·)) m m := by
  rintro s _ rfl
  cases m s with
  | error e => rfl
  | ok x => exact ⟨rfl, rfl⟩

/-- From states that are related more closely. -/
theorem Sim.pre {R' : σ → τ → Prop} (hR : ∀ s t, R' s t → R s t) {Q : α → σ → β → τ → Prop}
    {m : StateT σ (Except ε) α} {n : StateT τ (Except ε) β} (h : Sim R Q m n) : Sim R' Q m n :=
  fun s t hR' => h s t (hR s t hR')

theorem Sim.mono {Q Q' : α → σ → β → τ → Prop} (hQ : ∀ a s b t, Q a s b t → Q' a s b t)
    {m : StateT σ (Except ε) α} {n : StateT τ (Except ε) β} (h : Sim R Q m n) : Sim R Q' m n :=
  fun s t hR => (h s t hR).mono fun _ _ => hQ _ _ _ _

end

/-! ## Loops -/

open Loop

variable {ρ ρ' : Type}

/-- Both passes go on, in related states, or both stop, with related results. -/
def NextRel (R : σ → τ → Prop) (Q : ρ → ρ' → Prop) : Next σ ρ → Next τ ρ' → Prop
  | .again s, .again t => R s t
  | .done r, .done r' => Q r r'
  | _, _ => False

section
variable {R : σ → τ → Prop} {Q : ρ → ρ' → Prop} {step : σ → Next σ ρ} {step' : τ → Next τ ρ'}

/-- **Loop simulation.** -/
theorem iterate_sim (h : ∀ s t, R s t → NextRel R Q (step s) (step' t)) :
    ∀ n s t, R s t → Option.Rel Q (iterate step n s) (iterate step' n t)
  | 0, _, _, _ => .none
  | n + 1, s, t, hR => by
    have h1 := h s t hR
    rw [iterate, iterate]
    cases hs : step s with
    | again s' =>
      cases ht : step' t with
      | again t' => rw [hs, ht] at h1; exact iterate_sim h n s' t' h1
      | done r' => rw [hs, ht] at h1; exact h1.elim
    | done r =>
      cases ht : step' t with
      | again t' => rw [hs, ht] at h1; exact h1.elim
      | done r' => rw [hs, ht] at h1; exact .some h1

end

/-! ## Results of loops -/

theorem rel_andThen {P : α → β → Prop} {Q : γ → δ → Prop} {x : Option (Except ε α)}
    {y : Option (Except ε β)} {k : α → Option (Except ε γ)} {l : β → Option (Except ε δ)}
    (h : Option.Rel (Agree P) x y) (hk : ∀ a b, P a b → Option.Rel (Agree Q) (k a) (l b)) :
    Option.Rel (Agree Q) (andThen x k) (andThen y l) := by
  cases h with
  | none => exact .none
  | @some a b h => cases a with
    | error e => cases b with
      | error e' => exact .some h
      | ok b => exact h.elim
    | ok a => cases b with
      | error e' => exact h.elim
      | ok b => exact hk a b h

section
variable {R : σ → τ → Prop} {x : Option (Except ε (α × σ))} {y : Option (Except ε (α × τ))}

theorem rel_ok_left (h : Option.Rel (Agree fun x y => x.1 = y.1 ∧ R x.2 y.2) x y) {a : α} {s : σ}
    (hx : x = some (.ok (a, s))) : ∃ t, y = some (.ok (a, t)) ∧ R s t := by
  subst hx
  cases h with
  | some h =>
    obtain ⟨⟨b, t⟩, rfl, rfl, hR⟩ := h.ok_left
    exact ⟨t, rfl, hR⟩

theorem rel_ok_right (h : Option.Rel (Agree fun x y => x.1 = y.1 ∧ R x.2 y.2) x y) {a : α} {t : τ}
    (hy : y = some (.ok (a, t))) : ∃ s, x = some (.ok (a, s)) ∧ R s t := by
  subst hy
  cases h with
  | some h =>
    obtain ⟨⟨b, s⟩, rfl, hb, hR⟩ := h.ok_right
    obtain rfl : b = a := hb
    exact ⟨s, rfl, hR⟩

theorem rel_mono {P Q : β → γ → Prop} (hPQ : ∀ b c, P b c → Q b c) {x : Option β} {y : Option γ}
    (h : Option.Rel P x y) : Option.Rel Q x y := by
  cases h with
  | none => exact .none
  | some h => exact .some (hPQ _ _ h)

theorem rel_isSome {Q : β → γ → Prop} {x : Option β} {y : Option γ} (h : Option.Rel Q x y) :
    (∃ r, x = some r) ↔ ∃ r, y = some r := by
  cases h with
  | none => exact ⟨(fun ⟨_, h⟩ => by cases h), (fun ⟨_, h⟩ => by cases h)⟩
  | some _ => exact ⟨fun _ => ⟨_, rfl⟩, fun _ => ⟨_, rfl⟩⟩

end

/-- What is returned, with enough fuel: by programs that simulate others, whose
    result does not change with more fuel. -/
theorem runs_iff {R : σ → τ → Prop} {x : ℕ → Option (Except ε (α × σ))}
    {y : ℕ → Option (Except ε (α × τ))}
    (hrel : ∀ n, Option.Rel (Agree fun x y => x.1 = y.1 ∧ R x.2 y.2) (x n) (y n))
    (hmono : ∀ n k r, y n = some r → y (n + k) = some r) {m : ℕ} {r : Except ε (α × τ)}
    (hm : y m = some r) {P : α → Prop} :
    (∃ n a s, x n = some (.ok (a, s)) ∧ P a) ↔ ∃ a t, r = .ok (a, t) ∧ P a := by
  constructor
  · rintro ⟨n, a, s, hx, hP⟩
    obtain ⟨t, hy, -⟩ := rel_ok_left (hrel n) hx
    have h1 := hmono n m _ hy
    have h2 := hmono m n _ hm
    rw [Nat.add_comm m n] at h2
    exact ⟨a, t, Option.some.inj (h2.symm.trans h1), hP⟩
  · rintro ⟨a, t, rfl, hP⟩
    obtain ⟨s, hx, -⟩ := rel_ok_right (hrel m) hm
    exact ⟨m, a, s, hx, hP⟩

/-! ## Loops of programs -/

section
variable {ι κ : Type}

/-- A loop whose body is a program: it stops with the error of its body. -/
def loopStep (body : ι → StateT σ (Except ε) (Next ι ρ)) (x : ι × σ) :
    Next (ι × σ) (Except ε (ρ × σ)) :=
  match body x.1 x.2 with
  | .error e => .done (.error e)
  | .ok (.again i, s) => .again (i, s)
  | .ok (.done r, s) => .done (.ok (r, s))

variable {R R' : σ → τ → Prop} {body : ι → StateT σ (Except ε) (Next ι ρ)}
  {body' : ι → StateT τ (Except ε) (Next ι ρ)}

/-- The same value, and states that are related by `R` if the loop goes on, and
    by `R'` if it stops. -/
def SameNext (R R' : σ → τ → Prop) : Next ι ρ → σ → Next ι ρ → τ → Prop
  | .again i, s, .again j, t => i = j ∧ R s t
  | .done r, s, .done r', t => r = r' ∧ R' s t
  | _, _, _, _ => False

/-- Loops whose bodies simulate each other do. -/
theorem iterate_loopStep_sim (h : ∀ i, Sim R (SameNext R R') (body i) (body' i)) (n : ℕ) (i : ι)
    {s : σ} {t : τ} (hR : R s t) :
    Option.Rel (Agree fun x y => x.1 = y.1 ∧ R' x.2 y.2) (iterate (loopStep body) n (i, s))
      (iterate (loopStep body') n (i, t)) := by
  refine iterate_sim (R := fun x y => x.1 = y.1 ∧ R x.2 y.2) ?_ n (i, s) (i, t) ⟨rfl, hR⟩
  rintro ⟨i, s⟩ ⟨_, t⟩ ⟨rfl, hR⟩
  have h1 := h i s t hR
  simp only [loopStep]
  cases hm : body i s with
  | error e =>
    cases hn : body' i t with
    | error e' => rw [hm, hn] at h1; exact h1
    | ok y => rw [hm, hn] at h1; exact h1.elim
  | ok x =>
    cases hn : body' i t with
    | error e' => rw [hm, hn] at h1; exact h1.elim
    | ok y =>
      rw [hm, hn] at h1
      obtain ⟨a, s'⟩ := x
      obtain ⟨b, t'⟩ := y
      cases a with
      | again i' => cases b with
        | again j' => exact h1
        | done r' => exact h1.elim
      | done r => cases b with
        | again j' => exact h1.elim
        | done r' => exact h1

end

end Simulation
