/-
  Sources over WMF source readers in one process
  (`media_foundation_source::seekInternal`).

  The threshold that tells whether a seek steps back is a static variable: it
  is initialised by the source that seeks first, and shared with all others.

  * `Alike.step_eq_iff`: when a seek passes on what it would pass on if its source
    were the only one.
  * `independent_iff`: the sources of a process do not influence each other iff
    all seeks are on the same side of the shared threshold and of their own.
-/
import NiMedia.Lib.Machine
import NiMedia.Os.MediaFoundation

namespace NiMedia

open Machine

namespace MediaFoundation

/-! ## Processes -/

/-- The static variable `minValue`, and the sources by name. -/
structure Process (α : Type) where
  minValue : Option ℕ
  instances : ℕ → Option (Track α × Source α)

def Process.empty {α : Type} : Process α := ⟨none, fun _ => none⟩

/-- `ok` tells whether the reader sets its position. -/
inductive Action (α : Type) where
  | construct (id : ℕ) (W : Track α)
  | seek (id : ℕ) (off : ℤ) (way : SeekDir) (ok : Bool)

def Action.id {α : Type} : Action α → ℕ
  | construct id _ => id
  | seek id _ _ _ => id

/-- What `seekInternal` of a source with the offset `readOffset` passes to
    `setPosition`, and the number of blocks that it sets, unless that fails. -/
structure Passed where
  readOffset : ℕ
  position : ℕ
  blocks : Option ℕ
  deriving DecidableEq, Repr

/-- What an action on the source `id` does; not all of them set a position. -/
structure Output where
  id : ℕ
  passed : Option Passed
  deriving DecidableEq, Repr

section
variable {α : Type}

/-- What `seek` passes on. -/
def passed (W : Track α) (minValue : ℕ) (ok : Bool) (off : ℤ) (way : SeekDir) (s : Source α) :
    Option Passed :=
  let nominalPos := seekNominal W off way s
  let (position, blocks) := fadeIn minValue W.readOffset (nominalPos + W.readOffset)
  if s.nominalPos ≠ nominalPos then
    some ⟨W.readOffset, position, if ok then some blocks else none⟩
  else none

/-- A name is given once; a seek of a source that there is not does nothing. -/
def step (p : Process α) : Action α → Output × Process α
  | .construct id W => match p.instances id with
    | none =>
      (⟨id, none⟩, { p with instances := Function.update p.instances id (some (W, opened W)) })
    | some _ => (⟨id, none⟩, p)
  | .seek id off way ok => match p.instances id with
    | none => (⟨id, none⟩, p)
    | some (W, s) =>
      let minValue := p.minValue.getD W.minValue
      let sought := passed W minValue ok off way s
      (⟨id, sought⟩,
        { minValue := if sought.isSome then some minValue else p.minValue
          instances :=
            Function.update p.instances id (some (W, (seek W minValue ok off way s).2)) })

/-- The actions on the source `id`. -/
def only (id : ℕ) (actions : List (Action α)) : List (Action α) :=
  actions.filter fun a => a.id = id

/-- Every source passes on what it would if it were the only one, and no
    position before its offset. -/
def Independent (actions : List (Action α)) : Prop :=
  (∀ id, (run step Process.empty actions).filter (fun out => out.id = id) =
    run step Process.empty (only id actions)) ∧
  ∀ out ∈ run step Process.empty actions, ∀ c, out.passed = some c → c.readOffset ≤ c.position

/-- The seek, if it sets a position, is on the same side of the shared threshold
    and of the own one; or it fails where both lead to the same position. -/
def Agrees (p : Process α) : Action α → Prop
  | .construct _ _ => True
  | .seek id off way ok => ∀ W s, p.instances id = some (W, s) →
      s.nominalPos ≠ seekNominal W off way s →
      (p.minValue.getD W.minValue ≤ seekNominal W off way s + W.readOffset ↔
        W.minValue ≤ seekNominal W off way s + W.readOffset) ∨
      (ok = false ∧ seekNominal W off way s + W.readOffset = W.minValue)

end

/-! ## One seek -/

section
variable {α : Type}

theorem fadeIn_congr {m m' readOffset a : ℕ} (h : m ≤ a ↔ m' ≤ a) :
    fadeIn m readOffset a = fadeIn m' readOffset a := by
  simp only [fadeIn, h]

theorem fadeIn_snd_eq_iff {m m' readOffset a : ℕ} :
    (fadeIn m readOffset a).2 = (fadeIn m' readOffset a).2 ↔ (m ≤ a ↔ m' ≤ a) := by
  refine ⟨fun h => ?_, fun h => by rw [fadeIn_congr h]⟩
  by_cases h1 : m ≤ a
  · by_cases h2 : m' ≤ a
    · exact iff_of_true h1 h2
    · simp [fadeIn, maxFadeInBlocks, h1, h2] at h
  · by_cases h2 : m' ≤ a
    · simp [fadeIn, maxFadeInBlocks, h1, h2] at h
    · exact iff_of_false h1 h2

theorem fadeIn_fst_eq_iff {m readOffset a : ℕ} (hm : fadeInFrames ≤ m) :
    (fadeIn m readOffset a).1 = (fadeIn (fadeInFrames + readOffset) readOffset a).1 ↔
      (m ≤ a ↔ fadeInFrames + readOffset ≤ a) ∨ a = fadeInFrames + readOffset := by
  unfold fadeIn
  split_ifs with h h' h' <;> dsimp only <;> omega

/-- With its own threshold a source steps back to its offset at most. -/
theorem le_fadeIn_fst (readOffset a : ℕ) :
    readOffset ≤ (fadeIn (fadeInFrames + readOffset) readOffset a).1 := by
  unfold fadeIn
  split_ifs <;> dsimp only <;> omega

variable {W : Track α} {m : ℕ} {ok : Bool} {off : ℤ} {way : SeekDir} {s : Source α}

theorem passed_of_ne (hmove : s.nominalPos ≠ seekNominal W off way s) :
    passed W m ok off way s = some ⟨W.readOffset,
      (fadeIn m W.readOffset (seekNominal W off way s + W.readOffset)).1,
      if ok then some (fadeIn m W.readOffset (seekNominal W off way s + W.readOffset)).2
        else none⟩ := if_pos hmove

theorem passed_of_eq (hstay : ¬ s.nominalPos ≠ seekNominal W off way s) :
    passed W m ok off way s = none := if_neg hstay

/-- The seek, if it sets a position, is on the same side of the threshold `m` and
    of the own one; or it fails where both lead to the same position. -/
def SameSide (W : Track α) (m : ℕ) (ok : Bool) (off : ℤ) (way : SeekDir) (s : Source α) : Prop :=
  s.nominalPos ≠ seekNominal W off way s →
    (m ≤ seekNominal W off way s + W.readOffset ↔
      W.minValue ≤ seekNominal W off way s + W.readOffset) ∨
    (ok = false ∧ seekNominal W off way s + W.readOffset = W.minValue)

/-- **One seek** passes on what it does with its own threshold iff the two agree. -/
theorem passed_eq_iff (hm : fadeInFrames ≤ m) :
    passed W m ok off way s = passed W W.minValue ok off way s ↔ SameSide W m ok off way s := by
  by_cases hmove : s.nominalPos ≠ seekNominal W off way s
  · rw [SameSide, forall_prop_of_true hmove, passed_of_ne hmove, passed_of_ne hmove]
    generalize seekNominal W off way s + W.readOffset = a
    simp only [Option.some.injEq, Passed.mk.injEq, true_and]
    cases ok with
    | true =>
      simp only [if_true, Option.some.injEq, fadeIn_snd_eq_iff, Bool.true_eq_false, false_and,
        or_false, and_iff_right_iff_imp]
      intro h
      rw [fadeIn_congr h]
    | false =>
      simp only [Bool.false_eq_true, if_false, and_true, true_and]
      exact fadeIn_fst_eq_iff hm
  · rw [passed_of_eq hmove, passed_of_eq hmove]
    exact iff_of_true rfl fun hne => absurd hne hmove

/-- Seeks that agree leave the source as it would be if it were the only one. -/
theorem seek_congr (hagree : SameSide W m ok off way s) :
    seek W m ok off way s = seek W W.minValue ok off way s := by
  by_cases hmove : s.nominalPos ≠ seekNominal W off way s
  · have hinternal : seekInternal W m ok (seekNominal W off way s + W.readOffset) s =
        seekInternal W W.minValue ok (seekNominal W off way s + W.readOffset) s := by
      rcases hagree hmove with h | ⟨rfl, -⟩
      · rw [seekInternal, seekInternal, fadeIn_congr h]
      · rfl
    simp only [seek, hinternal]
  · simp only [seek, if_neg hmove]

/-- With its own threshold a source passes on no position before its offset. -/
theorem le_position {c : Passed} (h : passed W W.minValue ok off way s = some c) :
    c.readOffset ≤ c.position := by
  by_cases hmove : s.nominalPos ≠ seekNominal W off way s
  · rw [passed_of_ne hmove] at h
    cases h
    exact le_fadeIn_fst _ _
  · rw [passed_of_eq hmove] at h
    cases h

end

/-! ## One action -/

section
variable {α : Type} {p p' : Process α} {q : ℕ → Process α}

/-- The process behind the construction of a source. -/
def Process.construct (p : Process α) (id : ℕ) (W : Track α) : Process α :=
  { p with instances := Function.update p.instances id (some (W, opened W)) }

/-- The output of a seek of the source `s`, and the process behind it. -/
def Process.seek (p : Process α) (id : ℕ) (off : ℤ) (way : SeekDir) (ok : Bool) (W : Track α)
    (s : Source α) : Output × Process α :=
  let minValue := p.minValue.getD W.minValue
  let sought := passed W minValue ok off way s
  (⟨id, sought⟩,
    { minValue := if sought.isSome then some minValue else p.minValue
      instances := Function.update p.instances id
        (some (W, (MediaFoundation.seek W minValue ok off way s).2)) })

/-- An action does nothing, or it adds a source, or a source seeks: the same in
    all processes where this source is the same. -/
theorem step_cases (a : Action α) (hid : p'.instances a.id = p.instances a.id) :
    (Agrees p a ∧ step p a = (⟨a.id, none⟩, p) ∧ step p' a = (⟨a.id, none⟩, p')) ∨
    (∃ W, Agrees p a ∧ p.instances a.id = none ∧
      step p a = (⟨a.id, none⟩, p.construct a.id W) ∧
      step p' a = (⟨a.id, none⟩, p'.construct a.id W)) ∨
    ∃ off way ok W s, p.instances a.id = some (W, s) ∧
      (Agrees p a ↔ SameSide W (p.minValue.getD W.minValue) ok off way s) ∧
      step p a = p.seek a.id off way ok W s ∧ step p' a = p'.seek a.id off way ok W s := by
  cases a with
  | construct id W =>
    have hid : p'.instances id = p.instances id := hid
    cases hp : p.instances id with
    | none =>
      rw [hp] at hid
      refine .inr (.inl ⟨W, trivial, hp, ?_, ?_⟩)
      · simp only [step, hp]
        rfl
      · simp only [step, hid]
        rfl
    | some x =>
      rw [hp] at hid
      refine .inl ⟨trivial, ?_, ?_⟩
      · simp only [step, hp, Action.id]
      · simp only [step, hid, Action.id]
  | seek id off way ok =>
    have hid : p'.instances id = p.instances id := hid
    cases hp : p.instances id with
    | none =>
      rw [hp] at hid
      refine .inl ⟨fun W s hs => ?_, ?_, ?_⟩
      · cases hp.symm.trans hs
      · simp only [step, hp, Action.id]
      · simp only [step, hid, Action.id]
    | some x =>
      obtain ⟨W, s⟩ := x
      rw [hp] at hid
      refine .inr (.inr ⟨off, way, ok, W, s, hp, ⟨fun ha => ha W s hp, fun ha W' s' hp' => ?_⟩,
        ?_, ?_⟩)
      · cases hp.symm.trans hp'
        exact ha
      · simp only [step, hp]
        rfl
      · simp only [step, hid]
        rfl

theorem step_id (p : Process α) (a : Action α) : (step p a).1.id = a.id := by
  rcases step_cases (p := p) a rfl with
    ⟨-, h, -⟩ | ⟨W, -, -, h, -⟩ | ⟨off, way, ok, W, s, -, -, h, -⟩
  · rw [h]
  · rw [h]
  · rw [h]
    rfl

/-- Other sources stay as they are. -/
theorem step_instances_ne (p : Process α) (a : Action α) {id : ℕ} (hid : id ≠ a.id) :
    (step p a).2.instances id = p.instances id := by
  rcases step_cases (p := p) a rfl with
    ⟨-, h, -⟩ | ⟨W, -, -, h, -⟩ | ⟨off, way, ok, W, s, -, -, h, -⟩
  · rw [h]
  · rw [h]
    exact Function.update_of_ne hid _ _
  · rw [h]
    exact Function.update_of_ne hid _ _

/-! ## Processes with one source -/

/-- The processes `q id` have seen the actions on the source `id` of `p` only. -/
structure Alike (p : Process α) (q : ℕ → Process α) : Prop where
  instances : ∀ id, (q id).instances id = p.instances id
  own : ∀ id m, (q id).minValue = some m → ∃ W s, p.instances id = some (W, s) ∧ m = W.minValue
  le : ∀ m, p.minValue = some m → fadeInFrames ≤ m

/-- The threshold of a process with one source is its own. -/
theorem Alike.getD (h : Alike p q) {id : ℕ} {W : Track α} {s : Source α}
    (hid : p.instances id = some (W, s)) : (q id).minValue.getD W.minValue = W.minValue := by
  cases hm : (q id).minValue with
  | none => rfl
  | some m =>
    obtain ⟨W', s', hid', rfl⟩ := h.own id m hm
    cases hid.symm.trans hid'
    rfl

theorem Alike.le_getD (h : Alike p q) (W : Track α) :
    fadeInFrames ≤ p.minValue.getD W.minValue := by
  cases hm : p.minValue with
  | none => exact Nat.le_add_right _ _
  | some m => exact h.le m hm

/-- **One action** has the output that it has if its source is the only one iff
    it agrees. -/
theorem Alike.step_eq_iff (h : Alike p q) (a : Action α) :
    (step p a).1 = (step (q a.id) a).1 ↔ Agrees p a := by
  rcases step_cases a (h.instances a.id) with
    ⟨ha, hp, hq⟩ | ⟨W, ha, -, hp, hq⟩ | ⟨off, way, ok, W, s, hs, ha, hp, hq⟩
  · rw [hp, hq]
    exact iff_of_true rfl ha
  · rw [hp, hq]
    exact iff_of_true rfl ha
  · rw [hp, hq, ha, ← passed_eq_iff (h.le_getD W)]
    simp only [Process.seek, h.getD hs, Output.mk.injEq, true_and]

/-- The source of an action that agrees is left as if it were the only one, and
    the threshold of a process with one source is the one of its track. -/
theorem Alike.step_self (h : Alike p q) {a : Action α} (hagree : Agrees p a) :
    (step (q a.id) a).2.instances a.id = (step p a).2.instances a.id ∧
      ∀ m, (step (q a.id) a).2.minValue = some m →
        ∃ W s, (step p a).2.instances a.id = some (W, s) ∧ m = W.minValue := by
  rcases step_cases a (h.instances a.id) with
    ⟨-, hp, hq⟩ | ⟨W, -, hnone, hp, hq⟩ | ⟨off, way, ok, W, s, hs, ha, hp, hq⟩
  · rw [hp, hq]
    exact ⟨h.instances a.id, h.own a.id⟩
  · rw [hp, hq]
    refine ⟨by simp only [Process.construct, Function.update_self], fun m hm => ?_⟩
    obtain ⟨W', s', hW', -⟩ := h.own a.id m hm
    cases hnone.symm.trans hW'
  · rw [hp, hq]
    simp only [Process.seek, Function.update_self, seek_congr (ha.1 hagree), h.getD hs, true_and]
    intro m hm
    refine ⟨W, _, rfl, ?_⟩
    split_ifs at hm with hsought
    · exact (Option.some.inj hm).symm
    · obtain ⟨W', s', hW', rfl⟩ := h.own a.id m hm
      cases hs.symm.trans hW'
      rfl

theorem Alike.step_le (h : Alike p q) (a : Action α) {m : ℕ}
    (hm : (step p a).2.minValue = some m) : fadeInFrames ≤ m := by
  rcases step_cases a (h.instances a.id) with
    ⟨-, hp, -⟩ | ⟨W, -, -, hp, -⟩ | ⟨off, way, ok, W, s, -, -, hp, -⟩
  · rw [hp] at hm
    exact h.le m hm
  · rw [hp] at hm
    exact h.le m hm
  · rw [hp] at hm
    simp only [Process.seek] at hm
    split_ifs at hm
    · rw [← Option.some.inj hm]
      exact h.le_getD W
    · exact h.le m hm

/-- No position is before the offset of the only source. -/
theorem Alike.step_le_position (h : Alike p q) (a : Action α) {c : Passed}
    (hc : (step (q a.id) a).1.passed = some c) : c.readOffset ≤ c.position := by
  rcases step_cases a (h.instances a.id) with
    ⟨-, -, hq⟩ | ⟨W, -, -, -, hq⟩ | ⟨off, way, ok, W, s, hs, -, -, hq⟩
  · rw [hq] at hc
    cases hc
  · rw [hq] at hc
    cases hc
  · rw [hq] at hc
    simp only [Process.seek, h.getD hs] at hc
    exact le_position hc

/-- An action that agrees leaves the processes alike. -/
theorem Alike.after_step (h : Alike p q) {a : Action α} (ha : Agrees p a) :
    Alike (step p a).2 (Function.update q a.id (step (q a.id) a).2) where
  instances id := by
    by_cases hid : id = a.id
    · subst hid
      rw [Function.update_self]
      exact (h.step_self ha).1
    · rw [Function.update_of_ne hid, step_instances_ne p a hid]
      exact h.instances id
  own id m hm := by
    by_cases hid : id = a.id
    · subst hid
      rw [Function.update_self] at hm
      exact (h.step_self ha).2 m hm
    · rw [Function.update_of_ne hid] at hm
      rw [step_instances_ne p a hid]
      exact h.own id m hm
  le _ hm := h.step_le a hm

/-! ## Runs -/

theorem only_cons_self (a : Action α) (actions : List (Action α)) :
    only a.id (a :: actions) = a :: only a.id actions :=
  List.filter_cons_of_pos (decide_eq_true rfl)

theorem only_cons_ne {a : Action α} {id : ℕ} (hid : id ≠ a.id) (actions : List (Action α)) :
    only id (a :: actions) = only id actions :=
  List.filter_cons_of_neg (by simpa using hid.symm)

/-- **Runs.**  All sources have the outputs that they have without the others
    iff all actions agree. -/
theorem Alike.run_eq_iff (h : Alike p q) (actions : List (Action α)) :
    (∀ id, (run step p actions).filter (fun out => out.id = id) =
      run step (q id) (only id actions)) ↔ Along step Agrees p actions := by
  induction actions generalizing p q with
  | nil => exact iff_of_true (fun _ => rfl) trivial
  | cons a actions ih =>
    -- the outputs of the source of `a` start with the one of `a`
    have hself : ((run step p (a :: actions)).filter fun out => out.id = a.id) =
        (step p a).1 :: (run step (step p a).2 actions).filter fun out => out.id = a.id :=
      List.filter_cons_of_pos (decide_eq_true (step_id p a))
    have hne : ∀ id, id ≠ a.id → ((run step p (a :: actions)).filter fun out => out.id = id) =
        (run step (step p a).2 actions).filter fun out => out.id = id := fun id hid =>
      List.filter_cons_of_neg (by rw [step_id]; simpa using hid.symm)
    constructor
    · intro hall
      have ha := hall a.id
      rw [hself, only_cons_self, run] at ha
      obtain ⟨hout, htail⟩ := List.cons.inj ha
      have hagree := (h.step_eq_iff a).1 hout
      refine ⟨hagree, (ih (h.after_step hagree)).1 fun id => ?_⟩
      by_cases hid : id = a.id
      · subst hid
        rw [Function.update_self]
        exact htail
      · rw [Function.update_of_ne hid, ← only_cons_ne hid, ← hall id, hne id hid]
    · rintro ⟨hagree, hrest⟩ id
      have htail := (ih (h.after_step hagree)).2 hrest id
      by_cases hid : id = a.id
      · subst hid
        rw [Function.update_self] at htail
        rw [hself, only_cons_self, run, (h.step_eq_iff a).2 hagree, htail]
      · rw [Function.update_of_ne hid] at htail
        rw [hne id hid, only_cons_ne hid, htail]

/-- In runs whose actions agree no position is before the offset of its source. -/
theorem Alike.le_position (h : Alike p q) {actions : List (Action α)}
    (hagree : Along step Agrees p actions) :
    ∀ out ∈ run step p actions, ∀ c, out.passed = some c → c.readOffset ≤ c.position := by
  induction actions generalizing p q with
  | nil => exact fun out hout => absurd hout List.not_mem_nil
  | cons a actions ih =>
    obtain ⟨ha, hrest⟩ := hagree
    rw [run, List.forall_mem_cons]
    refine ⟨fun c hc => ?_, ih (h.after_step ha) hrest⟩
    rw [(h.step_eq_iff a).2 ha] at hc
    exact h.step_le_position a hc

theorem alike_empty : Alike (Process.empty : Process α) fun _ => Process.empty :=
  ⟨fun _ => rfl, nofun, nofun⟩

/-- **Independence.**  The sources of a process do not influence each other iff
    every seek that sets a position is on the same side of the threshold of the
    source that sought first and of its own one. -/
theorem independent_iff (actions : List (Action α)) :
    Independent actions ↔ Along step Agrees Process.empty actions := by
  refine ⟨fun h => (alike_empty.run_eq_iff actions).1 h.1, fun h => ⟨?_, ?_⟩⟩
  · exact (alike_empty.run_eq_iff actions).2 h
  · exact alike_empty.le_position h

end

/-- A track of a minute at 48 kHz, as AAC (`readOffset` 2112) or another format.
    Nothing is read of it. -/
def minute (readOffset : ℕ) : Track Unit where
  blocks := []
  numFrames := 2880000
  readOffset := readOffset
  frameSize := 2 * 2
  blocks_ne_nil := nofun
  frameSize_pos := by decide
  fits := by decide

/-- The AAC source seeks first: the other one does not step back.  In the other
    order the AAC source is sent before its offset. -/
theorem minute_influence :
    ¬ Independent [.construct 0 (minute 2112), .construct 1 (minute 0), .seek 0 4000 .beg true,
      .seek 1 10000 .beg true] ∧
    ¬ Independent [.construct 0 (minute 0), .construct 1 (minute 2112), .seek 0 4000 .beg true,
      .seek 1 400 .beg true] := by
  constructor
  · rintro ⟨h, -⟩
    have := h 1
    revert this
    decide +kernel
  · rintro ⟨-, h⟩
    exact absurd (h ⟨1, some ⟨2112, 164, some 2⟩⟩ (by decide +kernel) _ rfl) (by decide)

end MediaFoundation

end NiMedia
