/-
  A track as a reader (`audio/os/win/media_foundation_source.h`).

  The source over a track counts in frames, and the search over any reader in
  times.  A track whose times are those of its frames is a reader, and on it the
  searches agree.

  * `seekInternal_track`, `consumeBlock_track`: a seek and a block.
  * `searchBackward_track`: what the backward search finds on a track is what it
    finds on its reader.
  * `searchBackward_reader`: with fuel and calls enough both return, and the block
    that they find holds the target.
-/
import NiMedia.Os.BackwardSearch
import NiMedia.Os.FrameReading

namespace NiMedia

open Words Blocks

namespace MediaFoundation

section
variable {α : Type} (W : Track α)

/-- The answer for a block, or at the end. -/
def Track.answer (sampleRate cursor : ℕ) : SampleAnswer :=
  match W.blocks[cursor]? with
  | none => ⟨true, false, true, false, 0, none⟩
  | some data => ⟨true, false, false, false, framesTo100ns (start W.blocks cursor) sampleRate,
      some (some (framesTo100ns data.length sampleRate))⟩

def Track.readSample (sampleRate cursor : ℕ) : SampleAnswer × ℕ :=
  (W.answer sampleRate cursor, if cursor < W.blocks.length then cursor + 1 else cursor)

theorem Track.readSample_ends (sampleRate cursor : ℕ) : Ends (W.readSample sampleRate) cursor := by
  induction hleft : W.blocks.length - cursor generalizing cursor with
  | zero =>
    apply Ends.stop
    have hnone : W.blocks[cursor]? = none := List.getElem?_eq_none (by omega)
    simp only [readSample, answer, hnone]
    rfl
  | succ left ih =>
    apply Ends.more
    have hlt : cursor < W.blocks.length := by omega
    simp only [readSample, if_pos hlt]
    exact ih (cursor + 1) (by omega)

/-- The reader of a track: its state is the block that it returns next. -/
def Track.reader (sampleRate : ℕ) : Reader ℕ where
  setPosition time _ := (true, blockAt W.blocks (time100nsToFrames time sampleRate).toNat)
  readSample := W.readSample sampleRate
  ends _ _ _ := W.readSample_ends sampleRate _

/-- A rate at which the times of the frames tell the frames apart. -/
structure Track.Timed (sampleRate : ℕ) : Prop where
  rate_pos : 1 ≤ sampleRate
  rate_le : sampleRate ≤ 5000000
  fits : W.blocks.flatten.length * secTo100ns < 2 ^ 63

def Track.settings (sampleRate minValue : ℕ) : Settings := ⟨sampleRate, minValue, W.readOffset⟩

def MfBlock.blockRange (b : MfBlock α) : BlockRange := ⟨b.range.lower, b.range.upper⟩

/-- The block that a call of the backward search finds at the position that it sets. -/
def landing (minValue target backstep : ℕ) (s : Source α) : Option (MfBlock α) × Source α :=
  let (_, s) := seekInternal W minValue true (correctedTarget W target backstep) s
  let (discarded, s) := discardFadeinBlock W s
  if discarded then consumeBlock W s else (none, s)

def Source.searcher (s : Source α) : Searcher ℕ :=
  ⟨s.cursor, s.buffer.map MfBlock.blockRange, s.fadeInBlocks⟩

end

section
variable {α : Type} {W : Track α} {sampleRate minValue : ℕ} {s : Source α}

@[simp] theorem Track.settings_sampleRate :
    (W.settings sampleRate minValue).sampleRate = sampleRate := rfl

@[simp] theorem Track.settings_minValue :
    (W.settings sampleRate minValue).minValue = minValue := rfl

@[simp] theorem Track.settings_readOffset :
    (W.settings sampleRate minValue).readOffset = W.readOffset := rfl

theorem MfBlock.contains_blockRange {b : MfBlock α} {target : ℕ} :
    b.blockRange.Contains target ↔ b.range.Contains target := by
  simp only [BlockRange.Contains, FrameRange.Contains, blockRange, Nat.cast_le, Nat.cast_lt]

theorem Track.Timed.frame (hW : W.Timed sampleRate) (frame : ℕ)
    (hframe : frame ≤ W.blocks.flatten.length) :
    time100nsToFrames (framesTo100ns frame sampleRate) sampleRate = frame := by
  have hle : (frame : ℤ) ≤ W.blocks.flatten.length := by exact_mod_cast hframe
  have hfits : (frame : ℤ) * secTo100ns < 2 ^ 63 := by
    have := hW.fits
    unfold secTo100ns at *
    omega
  have h0 := Int.natCast_nonneg frame
  obtain ⟨herror, herror'⟩ := framesTo100ns_error hW.rate_pos h0 hfits
  exact time100nsToFrames_of_error hW.rate_le (framesTo100ns_nonneg h0 hfits) herror herror'

/-! ## One operation -/

theorem consumeBlock_buffer : (consumeBlock W s).2.buffer = s.buffer := by
  cases hb : W.blocks[s.cursor]? with
  | none => simp only [consumeBlock, hb]
  | some data => simp only [consumeBlock, hb]

/-- A block that the reader returns is the one that the track has there. -/
theorem consumeBlock_track (minValue : ℕ) (hW : W.Timed sampleRate) (hbuf : s.buffer = none) :
    (W.reader sampleRate).consumeBlock (W.settings sampleRate minValue) s.searcher =
        ((consumeBlock W s).1.map MfBlock.blockRange, (consumeBlock W s).2.searcher) ∧
      (consumeBlock W s).2.buffer = none := by
  refine ⟨?_, consumeBlock_buffer.trans hbuf⟩
  rcases consumeBlock_cases W hbuf with ⟨hend, hconsume⟩ | ⟨b, hb, hconsume⟩
  · have hnone : W.blocks[s.cursor]? = none := List.getElem?_eq_none hend
    have hread : W.readSample sampleRate s.cursor =
        (⟨true, false, true, false, 0, none⟩, s.cursor) := by
      simp only [Track.readSample, Track.answer, hnone, if_neg (not_lt.2 hend)]
    rw [hconsume]
    simp only [Reader.consumeBlock, Track.reader, Source.searcher, hread]
    rfl
  · have hread : W.readSample sampleRate s.cursor =
        (⟨true, false, false, false, framesTo100ns (start W.blocks s.cursor) sampleRate,
          some (some (framesTo100ns b.data.length sampleRate))⟩, s.cursor + 1) := by
      simp only [Track.readSample, Track.answer, hb.1, if_pos hb.lt]
    have hupper : start W.blocks s.cursor + b.data.length ≤ W.blocks.flatten.length := by
      rw [← start_succ hb.1]
      exact start_le _ _
    have hfits := hW.fits
    unfold secTo100ns at hfits
    have hbeg := hW.frame (start W.blocks s.cursor) (start_le W.blocks s.cursor)
    have hlen := hW.frame b.data.length (by omega)
    have hend : wrap 64 (start W.blocks s.cursor + b.data.length : ℤ) =
        start W.blocks s.cursor + b.data.length := wrap_of_range (by omega) (by omega)
    have hduration : (⟨true, false, false, false,
        framesTo100ns (start W.blocks s.cursor) sampleRate,
        some (some (framesTo100ns b.data.length sampleRate))⟩ : SampleAnswer).duration =
          some (framesTo100ns b.data.length sampleRate) := rfl
    rw [hconsume]
    simp only [Reader.consumeBlock, Track.reader, Source.searcher, hread, hduration, hbuf,
      Option.map_none, Option.map_some, Track.settings, hbeg, hlen, hend, MfBlock.blockRange,
      MfBlock.range, hb.2, Nat.cast_add]

theorem discardBlocks_track (minValue : ℕ) (hW : W.Timed sampleRate) (n : ℕ)
    (hbuf : s.buffer = none) :
    (W.reader sampleRate).discardBlocks (W.settings sampleRate minValue) n s.searcher =
      ((discardBlocks W n s).1, (discardBlocks W n s).2.searcher) ∧
      (discardBlocks W n s).2.buffer = none := by
  induction n generalizing s with
  | zero => exact ⟨rfl, hbuf⟩
  | succ n ih =>
    obtain ⟨htrack, hbuf₁⟩ := consumeBlock_track minValue hW hbuf
    cases hconsume : consumeBlock W s with
    | mk block s₁ =>
      rw [hconsume] at htrack hbuf₁
      cases block with
      | none =>
        simp only [Reader.discardBlocks, discardBlocks, htrack, hconsume, Option.map_none]
        exact ⟨trivial, hbuf₁⟩
      | some b =>
        simp only [Reader.discardBlocks, discardBlocks, htrack, hconsume, Option.map_some]
        exact ih (s := { s₁ with fadeInBlocks := n }) hbuf₁

theorem discardFadeinBlock_track (minValue : ℕ) (hW : W.Timed sampleRate) (hbuf : s.buffer = none) :
    (W.reader sampleRate).discardFadeinBlock (W.settings sampleRate minValue) s.searcher =
      ((discardFadeinBlock W s).1, (discardFadeinBlock W s).2.searcher) ∧
      (discardFadeinBlock W s).2.buffer = none :=
  discardBlocks_track minValue hW s.fadeInBlocks hbuf

/-- A position that is set is the one that the time stands for. -/
theorem seekInternal_track (hW : W.Timed sampleRate) (hmin : fadeInFrames ≤ minValue)
    (hro : W.readOffset ≤ W.blocks.flatten.length) {adjustedPos : ℕ}
    (hpos : adjustedPos ≤ W.blocks.flatten.length) :
    (W.reader sampleRate).seekInternal (W.settings sampleRate minValue) adjustedPos s.searcher =
      (true, (seekInternal W minValue true adjustedPos s).2.searcher) := by
  have hfits := hW.fits
  unfold secTo100ns at hfits
  by_cases hmoved : minValue ≤ adjustedPos
  · have hfade : (W.settings sampleRate minValue).fadeIn adjustedPos =
        (((adjustedPos - fadeInFrames : ℕ) : ℤ), maxFadeInBlocks) := by
      rw [Settings.fadeIn, Track.settings_minValue, if_pos (by exact_mod_cast hmoved),
        Nat.cast_sub (hmin.trans hmoved), wrap_of_range (by omega) (by omega)]
    have hframe := hW.frame (adjustedPos - fadeInFrames) (by omega)
    simp only [Reader.seekInternal, seekInternal, hfade, Track.reader, Track.settings_sampleRate,
      hframe, fadeIn, if_pos hmoved, Source.searcher, Int.toNat_natCast, if_true, Option.map_none]
  · have hfade : (W.settings sampleRate minValue).fadeIn adjustedPos = ((W.readOffset : ℤ), 0) := by
      rw [Settings.fadeIn, Track.settings_minValue, if_neg (by exact_mod_cast hmoved),
        Track.settings_readOffset]
    have hframe := hW.frame W.readOffset hro
    simp only [Reader.seekInternal, seekInternal, hfade, Track.reader, Track.settings_sampleRate,
      hframe, fadeIn, if_neg hmoved, Source.searcher, Int.toNat_natCast, if_true, Option.map_none]

/-! ## Searches -/

/-- The forward search on a track is the one on its reader. -/
theorem searchForward_track (hW : W.Timed sampleRate) {target : ℕ} (fuel : ℕ) (s : Source α)
    (hbuf : s.buffer = none) {r : Option BlockRange × Searcher ℕ}
    (h : (W.reader sampleRate).searchForwardAndRetrieveBlock (W.settings sampleRate minValue)
      target fuel s.searcher = some r) :
    r = ((searchForwardAndRetrieveBlock W target s).1.map MfBlock.blockRange,
      (searchForwardAndRetrieveBlock W target s).2.searcher) := by
  induction fuel generalizing s with
  | zero => cases h
  | succ fuel ih =>
    obtain ⟨htrack, hbuf₁⟩ := consumeBlock_track minValue hW hbuf
    cases hconsume : consumeBlock W s with
    | mk block s₁ =>
      rw [hconsume] at htrack hbuf₁
      rw [Reader.searchForwardAndRetrieveBlock, htrack] at h
      cases block with
      | none =>
        rw [searchForward_none hconsume]
        cases h
        rfl
      | some b =>
        rw [searchForward_some hconsume]
        by_cases hb : b.range.Contains target
        · rw [if_pos hb]
          simp only [Option.map_some, MfBlock.contains_blockRange, if_pos hb] at h
          cases h
          rfl
        · rw [if_neg hb]
          simp only [Option.map_some, MfBlock.contains_blockRange, if_neg hb] at h
          exact ih s₁ hbuf₁ h

theorem correctedTarget_track (minValue : ℕ) (hW : W.Timed sampleRate) {target backstep : ℕ}
    (hro : W.readOffset ≤ target) (htarget : target ≤ W.blocks.flatten.length)
    (hback : backstep ≤ target + 2 * defaultBlockSize) :
    (W.settings sampleRate minValue).correctedTarget target backstep =
        (correctedTarget W target backstep : ℕ) ∧
      nextBackstep backstep = (backstep + 2 * defaultBlockSize : ℕ) ∧
      (W.readOffset < correctedTarget W target backstep → backstep ≤ target) := by
  have hfits := hW.fits
  unfold secTo100ns at hfits
  unfold defaultBlockSize at *
  refine ⟨?_, ?_, ?_⟩
  · rw [Settings.correctedTarget, Track.settings_readOffset, wrap_of_range (by omega) (by omega),
      correctedTarget]
    by_cases hle : W.readOffset + backstep ≤ target
    · rw [if_pos (by exact_mod_cast hle), if_pos hle, wrap_of_range (by omega) (by omega)]
      omega
    · rw [if_neg (by exact_mod_cast hle), if_neg hle]
  · unfold nextBackstep defaultBlockSize
    rw [wrap_of_range (by omega) (by omega)]
    omega
  · unfold correctedTarget
    split_ifs <;> omega

theorem landing_track (minValue : ℕ) (hW : W.Timed sampleRate) (hmin : fadeInFrames ≤ minValue)
    {target : ℕ} (hro : W.readOffset ≤ target) (htarget : target ≤ W.blocks.flatten.length)
    (backstep : ℕ) (s : Source α) (hback : backstep ≤ target + 2 * defaultBlockSize) :
    (W.reader sampleRate).landing (W.settings sampleRate minValue) target backstep s.searcher =
      ((landing W minValue target backstep s).1.map MfBlock.blockRange,
        (landing W minValue target backstep s).2.searcher) ∧
      (landing W minValue target backstep s).2.buffer = none := by
  obtain ⟨hcorrected, -, -⟩ := correctedTarget_track minValue hW hro htarget hback
  have hseek := seekInternal_track (s := s) hW hmin (hro.trans htarget)
    ((correctedTarget_le hro backstep).2.trans htarget)
  have hbuf₁ : (seekInternal W minValue true (correctedTarget W target backstep) s).2.buffer =
      none := rfl
  rw [Reader.landing, hcorrected, hseek, landing]
  simp only [if_true]
  generalize (seekInternal W minValue true (correctedTarget W target backstep) s).2 = s₁ at *
  obtain ⟨hdiscard, hbuf₂⟩ := discardFadeinBlock_track minValue hW hbuf₁
  cases hdiscarded : discardFadeinBlock W s₁ with
  | mk discarded s₂ =>
    rw [hdiscarded] at hdiscard hbuf₂
    simp only [hdiscard]
    cases discarded with
    | false => exact ⟨rfl, hbuf₂⟩
    | true => exact consumeBlock_track minValue hW hbuf₂

theorem searchBackward_landing (minValue target backstep : ℕ) (s : Source α) :
    searchBackwardAndRetrieveBlock W minValue target backstep s =
      match landing W minValue target backstep s with
      | (none, s) => (none, s)
      | (some b, s) =>
        if b.range.Contains target then (some b, s)
        else if b.range.upper ≤ target then searchForwardAndRetrieveBlock W target s
        else if W.readOffset < correctedTarget W target backstep then
          searchBackwardAndRetrieveBlock W minValue target (backstep + 2 * defaultBlockSize) s
        else (none, s) := by
  have hmoved : (seekInternal W minValue true (correctedTarget W target backstep) s).1 = true := rfl
  rw [searchBackwardAndRetrieveBlock, landing]
  simp only [hmoved, if_true]
  generalize (seekInternal W minValue true (correctedTarget W target backstep) s).2 = s₁
  cases hdiscarded : discardFadeinBlock W s₁ with
  | mk discarded s₂ =>
    cases discarded with
    | false => rfl
    | true => rfl

/-- **The search on a track** is the search on its reader, as far as that has
    fuel and calls enough. -/
theorem searchBackward_track (hW : W.Timed sampleRate) (hmin : fadeInFrames ≤ minValue)
    {target : ℕ} (hro : W.readOffset ≤ target) (htarget : target ≤ W.blocks.flatten.length)
    (fuel calls backstep : ℕ) (s : Source α) (hback : backstep ≤ target + 2 * defaultBlockSize)
    {r : Option BlockRange × Searcher ℕ}
    (h : (W.reader sampleRate).searchBackwardAndRetrieveBlock (W.settings sampleRate minValue)
      target fuel calls backstep s.searcher = some r) :
    r = ((searchBackwardAndRetrieveBlock W minValue target backstep s).1.map MfBlock.blockRange,
      (searchBackwardAndRetrieveBlock W minValue target backstep s).2.searcher) := by
  induction calls generalizing backstep s with
  | zero => cases h
  | succ calls ih =>
    obtain ⟨hcorrected, hnext, hgo⟩ := correctedTarget_track minValue hW hro htarget hback
    obtain ⟨hland, hbuf⟩ := landing_track minValue hW hmin hro htarget backstep s hback
    rw [Reader.searchBackward_eq, hland, hcorrected, hnext] at h
    rw [searchBackward_landing]
    cases hlanding : landing W minValue target backstep s with
    | mk block s' =>
      rw [hlanding] at h hbuf
      cases block with
      | none =>
        cases h
        rfl
      | some b =>
        have hup : b.blockRange.upper ≤ target ↔ b.range.upper ≤ target := by
          simp only [MfBlock.blockRange, Nat.cast_le]
        simp only [Option.map_some, MfBlock.contains_blockRange, hup, Nat.cast_lt,
          Track.settings_readOffset] at h ⊢
        by_cases hb : b.range.Contains target
        · rw [if_pos hb] at h ⊢
          cases h
          rfl
        · rw [if_neg hb] at h ⊢
          by_cases hle : b.range.upper ≤ target
          · rw [if_pos hle] at h ⊢
            exact searchForward_track hW fuel s' hbuf h
          · rw [if_neg hle] at h ⊢
            by_cases hback' : W.readOffset < correctedTarget W target backstep
            · rw [if_pos hback'] at h ⊢
              exact ih (backstep + 2 * defaultBlockSize) s' (Nat.add_le_add_right (hgo hback') _) h
            · rw [if_neg hback'] at h ⊢
              cases h
              rfl

/-- With fuel and calls enough the search on the reader is the one on the track,
    and what it finds holds the target. -/
theorem searchBackward_reader (hW : W.Timed sampleRate) (hmin : fadeInFrames ≤ minValue)
    {target : ℕ} (hro : W.readOffset ≤ target) (htarget : target ≤ W.blocks.flatten.length)
    (s : Source α) :
    (∃ calls n, ∀ fuel, n ≤ fuel →
      (W.reader sampleRate).searchBackwardAndRetrieveBlock (W.settings sampleRate minValue)
        target fuel calls 0 s.searcher =
          some ((searchBackwardAndRetrieveBlock W minValue target 0 s).1.map MfBlock.blockRange,
            (searchBackwardAndRetrieveBlock W minValue target 0 s).2.searcher)) ∧
      ∀ b, (searchBackwardAndRetrieveBlock W minValue target 0 s).1 = some b →
        b.range.Contains target := by
  have hfits := hW.fits
  unfold secTo100ns at hfits
  obtain ⟨block, s', hblock, n, hn⟩ := (W.reader sampleRate).searchBackward_calls
    (W.settings sampleRate minValue) target (Int.natCast_nonneg _) (by simpa using hro)
    (by omega) target 0 s.searcher
    (Or.inr ⟨le_rfl, by simpa using hro, by rw [Track.settings_readOffset]; omega⟩)
  have htrack := searchBackward_track hW hmin hro htarget n (target + 1) 0 s (Nat.zero_le _)
    (hn n le_rfl)
  constructor
  · refine ⟨target + 1, n, ?_⟩
    intro fuel hfuel
    rw [← htrack]
    exact hn fuel hfuel
  · intro b hb
    have heq := congrArg Prod.fst htrack
    rw [hb] at heq
    exact MfBlock.contains_blockRange.1 (hblock b.blockRange heq)

end

end MediaFoundation

end NiMedia
