/-
  The search for a block, over any reader (`audio/os/win/media_foundation_source.h`:
  `seekInternal`, `consumeBlock`, `discardFadeinBlock`,
  `searchForwardAndRetrieveBlock`, `searchBackwardAndRetrieveBlock`).

  The reader is a parameter that may answer anything, as long as it comes to an
  end behind every position that is set.  A loop that reads forward takes fuel,
  and the backward search the number of calls that it may make.

  * `correctedTarget_next`: a step back comes 2048 frames closer to the first
    frame, or to the first frame.
  * `searchBackward_returns`: the search returns, after a number of calls that
    the distance of the target bounds, a block that holds it or none.
-/
import NiMedia.Os.MediaFoundation
import NiMedia.Os.MediaTime

namespace NiMedia

open Words

namespace MediaFoundation

/-- `right_open_interval`, of offsets that a reader answers. -/
structure BlockRange where
  lower : ℤ
  upper : ℤ
  deriving DecidableEq, Repr

namespace BlockRange

def Contains (r : BlockRange) (t : ℤ) : Prop := r.lower ≤ t ∧ t < r.upper

instance (r : BlockRange) (t : ℤ) : Decidable (r.Contains t) := inferInstanceAs (Decidable (_ ∧ _))

end BlockRange

/-! ## Readers -/

/-- What `ReadSample` returns: its status, the flags, the timestamp, and the
    duration of the sample if there is a sample and it has one. -/
structure SampleAnswer where
  succeeded : Bool
  currentMediaTypeChanged : Bool
  endOfStream : Bool
  streamTick : Bool
  timestamp : ℤ
  sample : Option (Option ℤ)
  deriving DecidableEq, Repr

namespace SampleAnswer

variable (a : SampleAnswer)

/-- `allocateNoThrow`: no sample if the call fails. -/
def mfSample : Option (Option ℤ) := if a.succeeded then a.sample else none

def checkErrors : Bool :=
  !a.currentMediaTypeChanged && !a.endOfStream && !a.streamTick && a.mfSample.isSome

/-- `GetSampleDuration`, behind `checkErrors`. -/
def duration : Option ℤ := if a.checkErrors then a.mfSample.join else none

end SampleAnswer

/-- A reader in state `r` comes to an answer that is not a block. -/
inductive Ends {σ : Type} (readSample : σ → SampleAnswer × σ) : σ → Prop where
  | stop {r : σ} : (readSample r).1.duration = none → Ends readSample r
  | more {r : σ} : Ends readSample (readSample r).2 → Ends readSample r

/-- `IMFSourceReader`.  A position is a time, and may be refused. -/
structure Reader (σ : Type) where
  setPosition : ℤ → σ → Bool × σ
  readSample : σ → SampleAnswer × σ
  ends : ∀ time r, (setPosition time r).1 = true → Ends readSample (setPosition time r).2

/-- What a search does not change: the rate, the static variable of
    `seekInternal`, and the first frame. -/
structure Settings where
  sampleRate : ℕ
  minValue : ℤ
  readOffset : ℤ

/-- The members that a search changes. -/
structure Searcher (σ : Type) where
  reader : σ
  buffer : Option BlockRange
  fadeInBlocks : ℕ

namespace Settings

variable (P : Settings)

/-- The position that is set for a seek to `adjustedPos`, and the number of
    blocks to discard there. -/
def fadeIn (adjustedPos : ℤ) : ℤ × ℕ :=
  if P.minValue ≤ adjustedPos then (wrap 64 (adjustedPos - fadeInFrames), maxFadeInBlocks)
  else (P.readOffset, 0)

def correctedTarget (target backstep : ℤ) : ℤ :=
  if wrap 64 (P.readOffset + backstep) ≤ target then wrap 64 (target - backstep) else P.readOffset

end Settings

/-- The step of the call that a call makes. -/
def nextBackstep (backstep : ℤ) : ℤ := wrap 64 (backstep + 2 * defaultBlockSize)

namespace Reader

section
variable {σ : Type} (R : Reader σ) (P : Settings)

def seekInternal (adjustedPos : ℤ) (s : Searcher σ) : Bool × Searcher σ :=
  let (pos, blocks) := P.fadeIn adjustedPos
  let (ok, reader) := R.setPosition (framesTo100ns pos P.sampleRate) s.reader
  if ok then (true, ⟨reader, none, blocks⟩) else (false, { s with reader := reader })

/-- A block starts where the buffered one ends, or at its timestamp. -/
def consumeBlock (s : Searcher σ) : Option BlockRange × Searcher σ :=
  let (answer, reader) := R.readSample s.reader
  match answer.duration with
  | none => (none, { s with reader := reader })
  | some duration =>
    let beg := match s.buffer with
      | some b => b.upper
      | none => time100nsToFrames answer.timestamp P.sampleRate
    (some ⟨beg, wrap 64 (beg + time100nsToFrames duration P.sampleRate)⟩,
      { s with reader := reader })

/-- The loop of `discardFadeinBlock`, over `m_fadeInBlocks`. -/
def discardBlocks : ℕ → Searcher σ → Bool × Searcher σ
  | 0, s => (true, s)
  | n + 1, s => match R.consumeBlock P s with
    | (none, s) => (false, s)
    | (some _, s) => discardBlocks n { s with fadeInBlocks := n }

def discardFadeinBlock (s : Searcher σ) : Bool × Searcher σ := R.discardBlocks P s.fadeInBlocks s

variable (target : ℤ)

def searchForwardAndRetrieveBlock : ℕ → Searcher σ → Option (Option BlockRange × Searcher σ)
  | 0, _ => none
  | fuel + 1, s => match R.consumeBlock P s with
    | (none, s) => some (none, s)
    | (some b, s) =>
      if b.Contains target then some (some b, s) else searchForwardAndRetrieveBlock fuel s

/-- With `calls` calls of the function at most, the first one included. -/
def searchBackwardAndRetrieveBlock (fuel : ℕ) :
    ℕ → ℤ → Searcher σ → Option (Option BlockRange × Searcher σ)
  | 0, _, _ => none
  | calls + 1, backstep, s =>
    let (moved, s) := R.seekInternal P (P.correctedTarget target backstep) s
    if moved then
      let (discarded, s) := R.discardFadeinBlock P s
      if discarded then
        match R.consumeBlock P s with
        | (none, s) => some (none, s)
        | (some b, s) =>
          if b.Contains target then some (some b, s)
          else if b.upper ≤ target then R.searchForwardAndRetrieveBlock P target fuel s
          else if P.readOffset < P.correctedTarget target backstep then
            searchBackwardAndRetrieveBlock fuel calls (nextBackstep backstep) s
          else some (none, s)
      else some (none, s)
    else some (none, s)

/-- The block that a call finds at the position that it sets. -/
def landing (backstep : ℤ) (s : Searcher σ) : Option BlockRange × Searcher σ :=
  let (moved, s) := R.seekInternal P (P.correctedTarget target backstep) s
  if moved then
    let (discarded, s) := R.discardFadeinBlock P s
    if discarded then R.consumeBlock P s else (none, s)
  else (none, s)

theorem searchBackward_eq (fuel calls : ℕ) (backstep : ℤ) (s : Searcher σ) :
    R.searchBackwardAndRetrieveBlock P target fuel (calls + 1) backstep s =
      match R.landing P target backstep s with
      | (none, s) => some (none, s)
      | (some b, s) =>
        if b.Contains target then some (some b, s)
        else if b.upper ≤ target then R.searchForwardAndRetrieveBlock P target fuel s
        else if P.readOffset < P.correctedTarget target backstep then
          R.searchBackwardAndRetrieveBlock P target fuel calls (nextBackstep backstep) s
        else some (none, s) := by
  rw [searchBackwardAndRetrieveBlock, landing]
  cases R.seekInternal P (P.correctedTarget target backstep) s with
  | mk moved s₁ =>
    cases moved with
    | false => rfl
    | true =>
      cases hdiscard : R.discardFadeinBlock P s₁ with
      | mk discarded s₂ =>
        cases discarded with
        | false => simp only [hdiscard]; rfl
        | true => simp only [hdiscard]; rfl

end

/-! ## The end of the stream -/

section
variable {σ : Type} {R : Reader σ} {P : Settings} {target : ℤ} {s s' : Searcher σ}

theorem ends_of_seekInternal {adjustedPos : ℤ} (h : R.seekInternal P adjustedPos s = (true, s')) :
    Ends R.readSample s'.reader := by
  cases hset : R.setPosition (framesTo100ns (P.fadeIn adjustedPos).1 P.sampleRate) s.reader with
  | mk ok reader =>
    have hends := R.ends (framesTo100ns (P.fadeIn adjustedPos).1 P.sampleRate) s.reader
    rw [hset] at hends
    simp only [seekInternal, hset] at h
    cases ok with
    | false => cases h
    | true =>
      cases h
      exact hends rfl

theorem consumeBlock_reader {block : Option BlockRange}
    (h : R.consumeBlock P s = (block, s')) : s'.reader = (R.readSample s.reader).2 := by
  cases hduration : (R.readSample s.reader).1.duration with
  | none =>
    simp only [consumeBlock, hduration] at h
    cases h
    rfl
  | some duration =>
    simp only [consumeBlock, hduration] at h
    cases h
    rfl

theorem consumeBlock_none (h : (R.readSample s.reader).1.duration = none) :
    R.consumeBlock P s = (none, { s with reader := (R.readSample s.reader).2 }) := by
  simp only [consumeBlock, h]

/-- A reader that has returned a block comes to an end still. -/
theorem ends_of_consumeBlock {b : BlockRange} (hends : Ends R.readSample s.reader)
    (h : R.consumeBlock P s = (some b, s')) : Ends R.readSample s'.reader := by
  cases hends with
  | stop hnone =>
    rw [consumeBlock_none hnone] at h
    cases h
  | more hmore =>
    rw [consumeBlock_reader h]
    exact hmore

theorem ends_of_discardBlocks (n : ℕ) (s : Searcher σ) (hends : Ends R.readSample s.reader)
    (h : R.discardBlocks P n s = (true, s')) : Ends R.readSample s'.reader := by
  induction n generalizing s with
  | zero =>
    cases h
    exact hends
  | succ n ih =>
    rw [discardBlocks] at h
    cases hconsume : R.consumeBlock P s with
    | mk block s₁ =>
      rw [hconsume] at h
      cases block with
      | none => cases h
      | some b =>
        have hmore := ends_of_consumeBlock hends hconsume
        exact ih { s₁ with fadeInBlocks := n } hmore h

theorem ends_of_landing {backstep : ℤ} {b : BlockRange}
    (h : R.landing P target backstep s = (some b, s')) : Ends R.readSample s'.reader := by
  rw [landing] at h
  cases hseek : R.seekInternal P (P.correctedTarget target backstep) s with
  | mk moved s₁ =>
    rw [hseek] at h
    cases moved with
    | false => cases h
    | true =>
      have hends := ends_of_seekInternal hseek
      cases hdiscard : R.discardFadeinBlock P s₁ with
      | mk discarded s₂ =>
        simp only [if_true, hdiscard] at h
        cases discarded with
        | false => cases h
        | true =>
          exact ends_of_consumeBlock (ends_of_discardBlocks s₁.fadeInBlocks s₁ hends hdiscard) h

end

/-! ## Searches -/

section
variable {σ : Type}

/-- A search returns, given fuel enough, a block that holds the target, or none. -/
def Returns (target : ℤ) (search : ℕ → Option (Option BlockRange × Searcher σ)) : Prop :=
  ∃ block s', (∀ b, block = some b → b.Contains target) ∧
    ∃ n, ∀ fuel, n ≤ fuel → search fuel = some (block, s')

variable {R : Reader σ} {P : Settings} {target : ℤ} {s s' : Searcher σ}

theorem returns_none (target : ℤ) (s : Searcher σ) : Returns target fun _ => some (none, s) := by
  refine ⟨none, s, ?_, 0, fun _ _ => rfl⟩
  intro b h
  cases h

theorem returns_some {b : BlockRange} (hb : b.Contains target) (s : Searcher σ) :
    Returns target fun _ => some (some b, s) := by
  refine ⟨some b, s, ?_, 0, fun _ _ => rfl⟩
  intro b' h
  cases h
  exact hb

/-- One more block is read. -/
theorem returns_succ {search search' : ℕ → Option (Option BlockRange × Searcher σ)}
    (hstep : ∀ fuel, search' (fuel + 1) = search fuel) (h : Returns target search) :
    Returns target search' := by
  obtain ⟨block, s', hblock, n, hn⟩ := h
  refine ⟨block, s', hblock, n + 1, ?_⟩
  intro fuel hfuel
  cases fuel with
  | zero => exact absurd hfuel (Nat.not_succ_le_zero n)
  | succ fuel => rw [hstep, hn fuel (Nat.le_of_succ_le_succ hfuel)]

theorem searchForward_returns {r : σ} (hends : Ends R.readSample r) (s : Searcher σ)
    (hs : s.reader = r) :
    Returns target fun fuel => R.searchForwardAndRetrieveBlock P target fuel s := by
  induction hends generalizing s with
  | stop hnone =>
    subst hs
    have hconsume := consumeBlock_none (P := P) hnone
    refine returns_succ (fun fuel => ?_)
      (returns_none target { s with reader := (R.readSample s.reader).2 })
    rw [searchForwardAndRetrieveBlock, hconsume]
  | more hmore ih =>
    subst hs
    cases hconsume : R.consumeBlock P s with
    | mk block s₁ =>
      cases block with
      | none =>
        refine returns_succ (fun fuel => ?_) (returns_none target s₁)
        rw [searchForwardAndRetrieveBlock, hconsume]
      | some b =>
        by_cases hb : b.Contains target
        · refine returns_succ (fun fuel => ?_) (returns_some hb s₁)
          rw [searchForwardAndRetrieveBlock, hconsume]
          exact if_pos hb
        · refine returns_succ (fun fuel => ?_) (ih s₁ (consumeBlock_reader hconsume))
          rw [searchForwardAndRetrieveBlock, hconsume]
          exact if_neg hb

variable (R P target) in
/-- A call returns, or calls itself, if it has not gone back to the first frame. -/
theorem searchBackward_call (backstep : ℤ) (s : Searcher σ) :
    (∀ calls, Returns target fun fuel =>
      R.searchBackwardAndRetrieveBlock P target fuel (calls + 1) backstep s) ∨
    P.readOffset < P.correctedTarget target backstep ∧ ∃ s', ∀ fuel calls,
      R.searchBackwardAndRetrieveBlock P target fuel (calls + 1) backstep s =
        R.searchBackwardAndRetrieveBlock P target fuel calls (nextBackstep backstep) s' := by
  cases hland : R.landing P target backstep s with
  | mk block s' =>
    simp only [searchBackward_eq, hland]
    cases block with
    | none =>
      left
      intro calls
      exact returns_none target s'
    | some b =>
      by_cases hb : b.Contains target
      · left
        intro calls
        simp only [hb, if_true]
        exact returns_some hb s'
      · by_cases hup : b.upper ≤ target
        · left
          intro calls
          simp only [hb, hup, if_true, if_false]
          exact searchForward_returns (ends_of_landing hland) s' rfl
        · by_cases hgo : P.readOffset < P.correctedTarget target backstep
          · right
            refine ⟨hgo, s', ?_⟩
            intro fuel calls
            simp only [hb, hup, hgo, if_true, if_false]
          · left
            intro calls
            simp only [hb, hup, hgo, if_false]
            exact returns_none target s'

end

/-! ## The steps back -/

section
variable {P : Settings} {target backstep : ℤ}

/-- Where the target is corrected, and how far a step may be. -/
theorem correctedTarget_eq (h0 : 0 ≤ P.readOffset) (h1 : P.readOffset ≤ target)
    (h2 : target < 2 ^ 63) (hb : 0 ≤ backstep) (hle : backstep ≤ target - P.readOffset) :
    P.correctedTarget target backstep = target - backstep := by
  rw [Settings.correctedTarget, wrap_of_range (by omega) (by omega), if_pos (by omega),
    wrap_of_range (by omega) (by omega)]

/-- **A step back** comes 2048 frames closer to the first frame, or as far as the
    first frame, also if the step overflows. -/
theorem correctedTarget_next (h0 : 0 ≤ P.readOffset) (h1 : P.readOffset ≤ target)
    (h2 : target < 2 ^ 63) (hb : 0 ≤ backstep) (hle : backstep ≤ target - P.readOffset) :
    (0 ≤ nextBackstep backstep ∧ nextBackstep backstep ≤ target - P.readOffset ∧
        nextBackstep backstep = backstep + 2048) ∨
      P.correctedTarget target (nextBackstep backstep) ≤ P.readOffset := by
  have hstep : backstep + 2 * (defaultBlockSize : ℤ) = backstep + 2048 := rfl
  rw [nextBackstep, hstep]
  by_cases hnext : backstep + 2048 < 2 ^ 63
  · rw [wrap_of_range (by omega) hnext]
    by_cases hfits : backstep + 2048 ≤ target - P.readOffset
    · exact Or.inl ⟨by omega, hfits, rfl⟩
    · right
      rw [Settings.correctedTarget]
      split_ifs with hle'
      · rw [wrap_of_range (by omega) (by omega)]
        omega
      · exact le_rfl
  · right
    rw [wrap_of_ge (by omega) (by omega), Settings.correctedTarget,
      wrap_of_range (by omega) (by omega), if_pos (by omega)]
    have hgo : wrap 64 (target - (backstep + 2048 - 2 ^ 64)) = target - (backstep + 2048) := by
      rw [wrap_of_ge (by omega) (by omega)]
      omega
    rw [hgo]
    omega

end

/-! ## Runs of the search -/

section
variable {σ : Type} {R : Reader σ} {P : Settings} {target : ℤ}

variable (R P target) in
/-- A target that is `n` steps away is found with `n` more calls. -/
theorem searchBackward_calls (h0 : 0 ≤ P.readOffset) (h1 : P.readOffset ≤ target)
    (h2 : target < 2 ^ 63) (n : ℕ) (backstep : ℤ) (s : Searcher σ)
    (haway : P.correctedTarget target backstep ≤ P.readOffset ∨
      0 ≤ backstep ∧ backstep ≤ target - P.readOffset ∧
        target - P.readOffset - backstep ≤ 2048 * n) :
    Returns target fun fuel =>
      R.searchBackwardAndRetrieveBlock P target fuel (n + 1) backstep s := by
  induction n generalizing backstep s with
  | zero =>
    rcases R.searchBackward_call P target backstep s with h | ⟨hgo, -⟩
    · exact h 0
    · exfalso
      rcases haway with hle | ⟨hb, hle, hzero⟩
      · omega
      · rw [correctedTarget_eq h0 h1 h2 hb hle] at hgo
        omega
  | succ n ih =>
    rcases R.searchBackward_call P target backstep s with h | ⟨hgo, s', hcall⟩
    · exact h (n + 1)
    · simp only [hcall]
      rcases haway with hle | ⟨hb, hle, haway⟩
      · omega
      · apply ih
        rcases correctedTarget_next h0 h1 h2 hb hle with ⟨hnext, hle', heq⟩ | hend
        · right
          refine ⟨hnext, hle', ?_⟩
          rw [heq]
          omega
        · exact Or.inl hend

end

/-- **The backward search returns.**  Whatever the reader answers, a search for a
    target behind the first frame calls itself `(target - readOffset) / 2048 + 2`
    times at most, and returns none or a block that holds the target. -/
theorem searchBackward_returns {σ : Type} (R : Reader σ) (P : Settings) (target : ℤ)
    (h0 : 0 ≤ P.readOffset) (h1 : P.readOffset ≤ target) (h2 : target < 2 ^ 63)
    (s : Searcher σ) :
    ∃ calls : ℕ, (calls : ℤ) ≤ (target - P.readOffset) / 2048 + 2 ∧
      Returns target fun fuel =>
        R.searchBackwardAndRetrieveBlock P target fuel (calls + 1) 0 s := by
  have hdistance : 0 ≤ target - P.readOffset := by omega
  refine ⟨((target - P.readOffset) / 2048 + 1).toNat, by omega, ?_⟩
  apply R.searchBackward_calls P target h0 h1 h2
  right
  refine ⟨le_rfl, hdistance, ?_⟩
  omega

/-- A reader whose blocks always start behind the target: three of them, one
    second away. -/
def late : Reader ℕ where
  setPosition _ _ := (true, 3)
  readSample r := (⟨true, false, r = 0, false, secTo100ns, some (some secTo100ns)⟩, r - 1)
  ends _ _ _ := .more (.more (.more (.stop rfl)))

theorem searchBackward_late :
    ∃ calls : ℕ, (calls : ℤ) ≤ (5000 - 0) / 2048 + 2 ∧
      Returns 5000 fun fuel =>
        late.searchBackwardAndRetrieveBlock ⟨44100, 2048, 0⟩ 5000 fuel (calls + 1) 0
          ⟨0, none, 0⟩ :=
  searchBackward_returns late ⟨44100, 2048, 0⟩ 5000 (by decide) (by decide) (by decide) ⟨0, none, 0⟩

end Reader

end MediaFoundation

end NiMedia
