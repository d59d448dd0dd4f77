/-
  Loops as programs: a step that either goes on with a new state or stops with
  a result, run with fuel.

  * `Returns step s r`: from `s` the loop stops with `r` after finitely many
    passes; `Terminates` leaves the result open.  `returns_iff` is the fueled
    run, `Returns.inv` the invariant rule.
  * `walk next k n`: the key of the `n`-th pass of a deterministic walk, if
    there is one.  `walk_ends_iff`: a walk over finitely many keys ends iff no
    pass that may go backwards leads to a key of an earlier pass.
  * `terminates_iff_walk`: a loop whose passes follow a walk ends iff the walk
    does.
-/
import Mathlib.Data.Set.Finite.Basic
import Mathlib.Data.Fintype.Pigeonhole
import Mathlib.Order.Basic
import Mathlib.Tactic.Ring

namespace Loop

/-- What one pass of a loop does. -/
inductive Next (σ ρ : Type) where
  | again : σ → Next σ ρ
  | done : ρ → Next σ ρ

section
variable {σ ρ : Type} (step : σ → Next σ ρ)

/-- The loop with fuel for `n` passes. -/
def iterate : ℕ → σ → Option ρ
  | 0, _ => none
  | n + 1, s => match step s with
    | .again s' => iterate n s'
    | .done r => some r

/-- One program after the other, where the first one may throw or need fuel. -/
def andThen {ε α β : Type} (x : Option (Except ε α)) (k : α → Option (Except ε β)) :
    Option (Except ε β) :=
  match x with
  | none => none
  | some (.error e) => some (.error e)
  | some (.ok a) => k a

@[simp] theorem andThen_ok {ε α β : Type} (a : α) (k : α → Option (Except ε β)) :
    andThen (some (.ok a)) k = k a := rfl

@[simp] theorem andThen_error {ε α β : Type} (e : ε) (k : α → Option (Except ε β)) :
    andThen (some (.error e)) k = some (.error e) := rfl

theorem andThen_mono {ε α β : Type} {x x' : Option (Except ε α)} {k k' : α → Option (Except ε β)}
    (hx : ∀ r, x = some r → x' = some r) (hk : ∀ a r, k a = some r → k' a = some r)
    (r : Except ε β) (h : andThen x k = some r) : andThen x' k' = some r := by
  cases x with
  | none => cases h
  | some x => cases x with
    | error e => rw [hx _ rfl]; exact h
    | ok a => rw [hx _ rfl, andThen_ok]; exact hk a r h

theorem andThen_eq_ok {ε α β : Type} {x : Option (Except ε α)} {k : α → Option (Except ε β)} {b : β}
    (h : andThen x k = some (.ok b)) : ∃ a, x = some (.ok a) ∧ k a = some (.ok b) := by
  cases x with
  | none => cases h
  | some x => cases x with
    | error e => cases h
    | ok a => exact ⟨a, rfl, h⟩

/-- From `s` the loop stops with the result `r`. -/
inductive Returns : σ → ρ → Prop
  | done {s r} : step s = .done r → Returns s r
  | again {s s' r} : step s = .again s' → Returns s' r → Returns s r

/-- From `s` the loop stops after finitely many passes. -/
def Terminates (s : σ) : Prop := ∃ r, Returns step s r

variable {step}

/-- **The fueled run** computes `Returns`. -/
theorem returns_iff {s : σ} {r : ρ} : Returns step s r ↔ ∃ n, iterate step n s = some r := by
  constructor
  · intro h
    induction h with
    | done h => exact ⟨1, by simp only [iterate, h]⟩
    | again h _ ih => obtain ⟨n, hn⟩ := ih; exact ⟨n + 1, by simp only [iterate, h, hn]⟩
  · rintro ⟨n, hn⟩
    induction n generalizing s with
    | zero => cases hn
    | succ n ih =>
      cases h : step s with
      | again s' => rw [iterate, h] at hn; exact .again h (ih hn)
      | done r' => rw [iterate, h] at hn; cases hn; exact .done h

theorem Returns.of_iterate {s : σ} {r : ρ} (n : ℕ) (h : iterate step n s = some r) :
    Returns step s r := returns_iff.2 ⟨n, h⟩

theorem iterate_again {s s' : σ} (h : step s = .again s') (n : ℕ) :
    iterate step (n + 1) s = iterate step n s' := by
  rw [iterate, h]

theorem iterate_done {s : σ} {r : ρ} (h : step s = .done r) (n : ℕ) :
    iterate step (n + 1) s = some r := by
  rw [iterate, h]

theorem iterate_mono {n : ℕ} {s : σ} {r : ρ} (h : iterate step n s = some r) (k : ℕ) :
    iterate step (n + k) s = some r := by
  induction n generalizing s with
  | zero => cases h
  | succ n ih =>
    rw [Nat.succ_add, iterate]
    rw [iterate] at h
    cases hs : step s with
    | again s' => rw [hs] at h; exact ih h
    | done r' => rw [hs] at h; exact h

theorem Returns.unique {s : σ} {r r' : ρ} (h : Returns step s r) (h' : Returns step s r') :
    r = r' := by
  induction h with
  | done h => cases h' with
    | done h' => exact Next.done.inj (h.symm.trans h')
    | again h' _ => cases h.symm.trans h'
  | again h _ ih => cases h' with
    | done h' => cases h.symm.trans h'
    | again h' hr => exact ih (Next.again.inj (h.symm.trans h') ▸ hr)

/-- **Fuel**: as many passes as a measure says that decreases, and the last one. -/
theorem Returns.iterate_of_measure (I : σ → Prop) (μ : σ → ℕ)
    (hagain : ∀ s s', I s → step s = .again s' → I s' ∧ μ s' < μ s) {s : σ} {r : ρ}
    (h : Returns step s r) (hI : I s) {n : ℕ} (hn : μ s < n) : iterate step n s = some r := by
  induction h generalizing n with
  | done hstep =>
    obtain ⟨n, rfl⟩ := Nat.exists_eq_add_of_lt hn
    exact iterate_done hstep _
  | again hstep _ ih =>
    obtain ⟨hI', hlt⟩ := hagain _ _ hI hstep
    obtain ⟨n, rfl⟩ := Nat.exists_eq_succ_of_ne_zero (Nat.ne_zero_of_lt hn)
    rw [iterate_again hstep]
    exact ih hI' (by omega)

/-- A first pass that does the same. -/
theorem Returns.of_eq {s t : σ} {r : ρ} (h : step t = step s) (hr : Returns step s r) :
    Returns step t r := by
  cases hr with
  | done hs => exact .done (h.trans hs)
  | again hs hr => exact .again (h.trans hs) hr

/-- **The invariant rule.** -/
theorem Returns.inv (I : σ → Prop) (Q : ρ → Prop)
    (hagain : ∀ s s', I s → step s = .again s' → I s')
    (hdone : ∀ s r, I s → step s = .done r → Q r) {s : σ} {r : ρ} (h : Returns step s r)
    (hs : I s) : Q r := by
  induction h with
  | done h => exact hdone _ _ hs h
  | again h _ ih => exact ih (hagain _ _ hs h)

/-- A loop that goes along with another one, and may stop before it, stops if
    the other one returns a result of the kind `Q`. -/
theorem Returns.terminates_of {τ ρ' : Type} {step' : τ → Next τ ρ'} (R : σ → τ → Prop)
    (Q : ρ → Prop)
    (hagain : ∀ s t s', R s t → step s = .again s' →
      (∃ r, step' t = .done r) ∨ ∃ t', step' t = .again t' ∧ R s' t')
    (hdone : ∀ s t r, R s t → step s = .done r → Q r → ∃ r', step' t = .done r') {s : σ} {r : ρ}
    (h : Returns step s r) (hr : Q r) {t : τ} (hR : R s t) : Terminates step' t := by
  induction h generalizing t with
  | done h =>
    obtain ⟨r', hr'⟩ := hdone _ _ _ hR h hr
    exact ⟨r', .done hr'⟩
  | again h _ ih =>
    rcases hagain _ _ _ hR h with ⟨r', hr'⟩ | ⟨t', ht', hR'⟩
    · exact ⟨r', .done hr'⟩
    · obtain ⟨r', hr'⟩ := ih hr hR'
      exact ⟨r', .again ht' hr'⟩

end

/-! ## Passes -/

section
variable {σ ρ : Type} (step : σ → Next σ ρ)

/-- The state before pass `n`, if the loop gets there. -/
def steps : ℕ → σ → Option σ
  | 0, s => some s
  | n + 1, s => (steps n s).bind fun s' => match step s' with
    | .again s'' => some s''
    | .done _ => none

variable {step}

theorem steps_succ {n : ℕ} {s s' s'' : σ} (h : steps step n s = some s')
    (h' : step s' = .again s'') : steps step (n + 1) s = some s'' := by
  rw [steps, h, Option.bind_some, h']

theorem steps_succ_inv {n : ℕ} {s s'' : σ} (h : steps step (n + 1) s = some s'') :
    ∃ s', steps step n s = some s' ∧ step s' = .again s'' := by
  obtain ⟨s', h1, h2⟩ := Option.bind_eq_some_iff.1 h
  refine ⟨s', h1, ?_⟩
  cases hs : step s' with
  | again t => rw [hs] at h2; cases h2; rfl
  | done r => rw [hs] at h2; cases h2

theorem steps_shift {s s' : σ} (h : step s = .again s') (n : ℕ) :
    steps step (n + 1) s = steps step n s' := by
  induction n with
  | zero => rw [steps, steps, steps, Option.bind_some, h]
  | succ n ih => rw [steps, ih, steps]

/-- The invariant rule for passes. -/
theorem steps_inv (I : σ → Prop) (hagain : ∀ s s', I s → step s = .again s' → I s') {n : ℕ}
    {s s' : σ} (h : steps step n s = some s') (hs : I s) : I s' := by
  induction n generalizing s' with
  | zero =>
    cases h
    exact hs
  | succ n ih =>
    obtain ⟨t, ht, hstep⟩ := steps_succ_inv h
    exact hagain _ _ (ih ht) hstep

theorem Returns.of_steps {n : ℕ} {s s' : σ} {r : ρ} (h : steps step n s = some s')
    (hr : Returns step s' r) : Returns step s r := by
  induction n generalizing s' with
  | zero => cases h; exact hr
  | succ n ih =>
    obtain ⟨t, ht, hstep⟩ := steps_succ_inv h
    exact ih ht (.again hstep hr)

/-- A loop stops with `r` if, after some passes, a pass does. -/
theorem returns_iff_steps {s : σ} {r : ρ} :
    Returns step s r ↔ ∃ n s', steps step n s = some s' ∧ step s' = .done r := by
  constructor
  · intro h
    induction h with
    | done h => exact ⟨0, _, rfl, h⟩
    | again h _ ih =>
      obtain ⟨n, s', hn, hd⟩ := ih
      exact ⟨n + 1, s', by rw [steps_shift h, hn], hd⟩
  · rintro ⟨n, s', hn, hd⟩
    exact .of_steps hn (.done hd)

end

/-! ## Walks -/

section
variable {κ : Type} (next : κ → Option κ)

/-- The key of pass `n` of the walk from `k`. -/
def walk (k : κ) : ℕ → Option κ
  | 0 => some k
  | n + 1 => (walk k n).bind next

variable {next} {k : κ}

theorem walk_succ {n : ℕ} {a : κ} (h : walk next k n = some a) : walk next k (n + 1) = next a := by
  rw [walk, h, Option.bind_some]

/-- The invariant rule for walks. -/
theorem walk_inv (Inv : κ → Prop) (hstep : ∀ a b, Inv a → next a = some b → Inv b) (hk : Inv k)
    {n : ℕ} {a : κ} (h : walk next k n = some a) : Inv a := by
  induction n generalizing a with
  | zero =>
    cases h
    exact hk
  | succ n ih =>
    obtain ⟨b, hb, hnext⟩ := Option.bind_eq_some_iff.1 h
    exact hstep b a (ih hb) hnext

theorem walk_add (m n : ℕ) :
    walk next k (m + n) = (walk next k m).bind fun a => walk next a n := by
  induction n with
  | zero => cases h : walk next k m <;> simp [walk]
  | succ n ih =>
    rw [← Nat.add_assoc, walk, ih]
    cases walk next k m <;> rfl

theorem walk_none {m n : ℕ} (h : walk next k m = none) (hmn : m ≤ n) : walk next k n = none := by
  obtain ⟨d, rfl⟩ := Nat.exists_eq_add_of_le hmn
  rw [walk_add, h, Option.bind_none]

/-- A walk that comes back to a key goes round for ever. -/
theorem walk_period {p T : ℕ} {a : κ} (h : walk next k p = some a)
    (hT : walk next k (p + T) = some a) (m : ℕ) :
    walk next k (p + T + m) = walk next k (p + m) := by
  rw [walk_add, hT, walk_add p m, h]

theorem walk_period_mul {p T : ℕ} {a : κ} (h : walk next k p = some a)
    (hT : walk next k (p + T) = some a) (t : ℕ) : walk next k (p + t * T) = some a := by
  induction t with
  | zero => simpa using h
  | succ t ih =>
    have hper := walk_period h hT (t * T)
    rw [show p + (t + 1) * T = p + T + t * T by ring, hper, ih]

theorem walk_ne_none_of_period {p T : ℕ} {a : κ} (hT0 : 0 < T) (h : walk next k p = some a)
    (hT : walk next k (p + T) = some a) (n : ℕ) : walk next k n ≠ none := by
  intro hn
  have h1 := walk_period_mul h hT n
  have h2 : n ≤ p + n * T := by have := Nat.le_mul_of_pos_right n hT0; omega
  rw [walk_none hn h2] at h1; cases h1

/-- A walk over finitely many keys that does not end comes back to a key. -/
theorem walk_recurs {f : ℕ → κ} (hf : ∀ n, walk next k n = some (f n))
    (hfin : {a | ∃ n, walk next k n = some a ∧ (next a).isSome}.Finite) :
    ∃ p q, p < q ∧ f p = f q := by
  have hmaps : ∀ n, f n ∈ {a | ∃ n, walk next k n = some a ∧ (next a).isSome} := by
    intro n
    have hnext : next (f n) = some (f (n + 1)) := by rw [← walk_succ (hf n), hf]
    exact ⟨n, hf n, by rw [hnext]; rfl⟩
  have := hfin.to_subtype
  obtain ⟨p, q, hne, he⟩ := Finite.exists_ne_map_eq_of_infinite fun n =>
    (⟨f n, hmaps n⟩ : {a | ∃ n, walk next k n = some a ∧ (next a).isSome})
  have he' : f p = f q := congrArg Subtype.val he
  rcases Nat.lt_or_gt_of_ne hne with h | h
  · exact ⟨p, q, h, he'⟩
  · exact ⟨q, p, h, he'.symm⟩

/-- **When a walk ends.**  A walk over finitely many keys, whose passes go
    forward unless they are of the kind `Back`, ends iff no pass of the kind
    `Back` leads to the key of a pass up to it. -/
theorem walk_ends_iff [Preorder κ] {Back : κ → Prop}
    (hfwd : ∀ a b, next a = some b → ¬ Back a → a < b)
    (hfin : {a | ∃ n, walk next k n = some a ∧ (next a).isSome}.Finite) :
    (∃ n, walk next k n = none) ↔
      ∀ i j a b, i ≤ j → walk next k i = some a → walk next k j = some b → Back b →
        next b ≠ some a := by
  constructor
  · rintro ⟨n, hn⟩ i j a b hij hi hj - hb
    have hT : walk next k (i + (j + 1 - i)) = some a := by
      rw [show i + (j + 1 - i) = j + 1 by omega, walk_succ hj, hb]
    exact walk_ne_none_of_period (by omega) hi hT n hn
  · intro hno
    by_contra hend
    push Not at hend
    choose f hf using fun n => Option.ne_none_iff_exists'.1 (hend n)
    have hnext : ∀ n, next (f n) = some (f (n + 1)) := fun n => by rw [← walk_succ (hf n), hf]
    obtain ⟨p, q, hpq, hfpq⟩ := walk_recurs hf hfin
    have hper : ∀ m, f (q + m) = f (p + m) := by
      intro m
      have hT : walk next k (p + (q - p)) = some (f p) := by
        rw [show p + (q - p) = q by omega, hf, hfpq]
      have := walk_period (hf p) hT m
      rw [show p + (q - p) + m = q + m by omega, hf, hf] at this
      exact Option.some.inj this
    -- in the second round every pass goes forward, since it leads to a key of the first
    have hstep : ∀ m, f (q + m) < f (q + m + 1) := by
      intro m
      refine hfwd _ _ (hnext _) fun hback => ?_
      have h1 := hper (m + 1)
      refine hno (p + (m + 1)) (q + m) _ _ (by omega) (hf _) (hf _) hback ?_
      rw [hnext, ← h1]; rfl
    have hmono : ∀ m, f q < f (q + m + 1) := by
      intro m
      induction m with
      | zero => exact hstep 0
      | succ m ih => exact ih.trans (hstep (m + 1))
    have := hmono (q - p - 1)
    have h2 := hper (q - p)
    rw [show q + (q - p - 1) + 1 = q + (q - p) by omega, h2,
      show p + (q - p) = q by omega] at this
    exact lt_irrefl _ this

/-- The keys that lead on are numbers up to a bound. -/
theorem walk_ends_iff_of_le {next : ℕ → Option ℕ} {k N : ℕ} {Back : ℕ → Prop}
    (hfwd : ∀ a b, next a = some b → ¬ Back a → a < b) (hle : ∀ a b, next a = some b → a ≤ N) :
    (∃ n, walk next k n = none) ↔
      ∀ i j a b, i ≤ j → walk next k i = some a → walk next k j = some b → Back b →
        next b ≠ some a := by
  refine walk_ends_iff hfwd ((Set.finite_le_nat N).subset ?_)
  rintro a ⟨-, -, ha⟩
  obtain ⟨b, hb⟩ := Option.isSome_iff_exists.1 ha
  exact hle a b hb

end

/-! ## Loops that follow a walk -/

section
variable {σ ρ κ : Type} {step : σ → Next σ ρ} {next : κ → Option κ} (key : σ → κ)
  {Inv : σ → Prop}

/-- A loop whose passes follow the walk `next` on the keys ends iff the walk
    does. -/
theorem terminates_iff_walk
    (hagain : ∀ s s', Inv s → step s = .again s' → next (key s) = some (key s') ∧ Inv s')
    (hdone : ∀ s r, Inv s → step s = .done r → next (key s) = none) {s : σ} (hs : Inv s) :
    Terminates step s ↔ ∃ n, walk next (key s) n = none := by
  constructor
  · rintro ⟨r, h⟩
    induction h with
    | done h => exact ⟨1, by rw [walk, walk, Option.bind_some, hdone _ _ hs h]⟩
    | @again s s' r h _ ih =>
      obtain ⟨hn, hs'⟩ := hagain _ _ hs h
      obtain ⟨n, hn'⟩ := ih hs'
      refine ⟨1 + n, ?_⟩
      rw [walk_add, walk, walk, Option.bind_some, hn, Option.bind_some, hn']
  · rintro ⟨n, hn⟩
    induction n generalizing s with
    | zero => cases hn
    | succ n ih =>
      cases h : step s with
      | done r => exact ⟨r, .done h⟩
      | again s' =>
        obtain ⟨hk, hs'⟩ := hagain _ _ hs h
        rw [Nat.add_comm, walk_add, walk, walk, Option.bind_some, hk, Option.bind_some] at hn
        obtain ⟨r, hr⟩ := ih hs' hn
        exact ⟨r, .again h hr⟩

/-- The states before the passes have the keys of the walk. -/
theorem steps_walk
    (hagain : ∀ s s', Inv s → step s = .again s' → next (key s) = some (key s') ∧ Inv s')
    (hdone : ∀ s r, Inv s → step s = .done r → next (key s) = none) {s : σ} (hs : Inv s)
    (n : ℕ) :
    (∀ s', steps step n s = some s' → walk next (key s) n = some (key s') ∧ Inv s') ∧
      (steps step n s = none → walk next (key s) n = none) := by
  induction n with
  | zero => exact ⟨fun s' h => by cases h; exact ⟨rfl, hs⟩, nofun⟩
  | succ n ih =>
    obtain ⟨ih, ih'⟩ := ih
    constructor
    · intro s'' h
      obtain ⟨s', h1, h2⟩ := steps_succ_inv h
      obtain ⟨hw, hI⟩ := ih s' h1
      obtain ⟨hn, hI'⟩ := hagain s' s'' hI h2
      exact ⟨by rw [walk_succ hw, hn], hI'⟩
    · intro h
      cases hn : steps step n s with
      | none => rw [walk, ih' hn, Option.bind_none]
      | some s' =>
        obtain ⟨hw, hI⟩ := ih s' hn
        cases hs' : step s' with
        | again t => rw [steps_succ hn hs'] at h; cases h
        | done r => rw [walk_succ hw, hdone s' r hI hs']

end

end Loop
