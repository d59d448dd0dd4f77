/-
  What a source over a WMF source reader delivers
  (`media_foundation_source::read` and `seek`).

  Behind a seek two blocks are discarded, before which the source steps back by
  2048 frames.  A read behind such a seek finds its frames iff there are more
  blocks in front of the reader than it discards (`Searchable`).

  * `searchAndRetrieveBlock_spec`: the block that holds a frame is found.
  * `read_spec`: a read delivers the frames at its position, then silence.
  * `reads_right`: runs of seeks and reads deliver the frames of the stream.
  * `reads_right_of_le`: no run fails if no block exceeds 1024 frames.
-/
import NiMedia.Lib.Machine
import NiMedia.Os.MediaFoundation
import Mathlib.Tactic.Ring

namespace NiMedia

open Words Blocks Machine

namespace MediaFoundation

/-! ## Delivered frames -/

section
variable {α : Type} [Zero α] (W : Track α)

/-- Frame `a` of the decoded stream, or silence behind its end. -/
def Track.frame (a : ℕ) : α := W.blocks.flatten.getD a 0

/-- The client buffer `dst` with the frames from `a` on at `at_`. -/
def delivered (a n at_ : ℕ) (dst : ℕ → α) : ℕ → α :=
  fun i => if at_ ≤ i ∧ i < at_ + n then W.frame (a + (i - at_)) else dst i

variable {W} {a n at_ : ℕ} {dst : ℕ → α}

theorem delivered_zero (a at_ : ℕ) (dst : ℕ → α) : delivered W a 0 at_ dst = dst := by
  funext i
  exact if_neg (by omega)

/-- The frames from `a` to `c`, and then those from `c` to `e`. -/
theorem delivered_append {c e : ℕ} (hac : a ≤ c) (hce : c ≤ e) :
    delivered W c (e - c) (at_ + (c - a)) (delivered W a (c - a) at_ dst) =
      delivered W a (e - a) at_ dst := by
  funext i
  simp only [delivered]
  rcases Nat.lt_or_ge i (at_ + (c - a)) with hmid | hmid
  · rw [if_neg (by omega)]
    by_cases hlow : at_ ≤ i
    · rw [if_pos (by omega), if_pos (by omega)]
    · rw [if_neg (by omega), if_neg (by omega)]
  · by_cases hup : i < at_ + (e - a)
    · have hpos : c + (i - (at_ + (c - a))) = a + (i - at_) := by omega
      rw [if_pos (by omega), if_pos (by omega), hpos]
    · rw [if_neg (by omega), if_neg (by omega), if_neg (by omega)]

/-- Behind the end of the stream there is silence. -/
theorem fillN_eq_delivered (h : W.blocks.flatten.length ≤ a) :
    fillN n at_ dst = delivered W a n at_ dst := by
  funext i
  simp only [fillN, delivered]
  rw [Track.frame, List.getD_eq_default _ _ (by omega)]

/-- Frames of a block are frames of the stream. -/
theorem copyN_eq_delivered {k : ℕ} {data : List α} (hk : W.blocks[k]? = some data)
    (hle : start W.blocks k ≤ a) (hend : a + n ≤ start W.blocks k + data.length) :
    copyN data (a - start W.blocks k) n at_ dst = delivered W a n at_ dst := by
  funext i
  simp only [copyN, delivered]
  by_cases hi : at_ ≤ i ∧ i < at_ + n
  · rw [if_pos hi, if_pos hi, Track.frame,
      show a + (i - at_) = start W.blocks k + (a - start W.blocks k + (i - at_)) by omega,
      getD_flatten hk (by omega)]
  · rw [if_neg hi, if_neg hi]

end

/-! ## Searching -/

section
variable {α : Type} {W : Track α} {s : Source α} {target : ℕ}

/-- A block of the track. -/
def Track.IsBlock (W : Track α) (k : ℕ) (b : MfBlock α) : Prop :=
  W.blocks[k]? = some b.data ∧ b.lower = start W.blocks k

theorem Track.IsBlock.upper {k : ℕ} {b : MfBlock α} (h : W.IsBlock k b) :
    b.range.upper = start W.blocks (k + 1) := by
  rw [start_succ h.1, ← h.2]
  rfl

theorem Track.IsBlock.lt {k : ℕ} {b : MfBlock α} (h : W.IsBlock k b) : k < W.blocks.length :=
  (List.getElem?_eq_some_iff.1 h.1).1

theorem Track.IsBlock.start_lt {k : ℕ} {b : MfBlock α} (h : W.IsBlock k b) :
    start W.blocks k < start W.blocks (k + 1) := by
  rw [start_succ h.1]
  have hne := W.blocks_ne_nil _ (List.mem_of_getElem? h.1)
  have hpos := List.length_pos_iff.2 hne
  omega

/-- A source without a buffered block takes the next one, at its timestamp. -/
theorem consumeBlock_isBlock {b : MfBlock α} (hbuf : s.buffer = none) (hb : W.IsBlock s.cursor b) :
    consumeBlock W s = (some b, { s with cursor := s.cursor + 1 }) := by
  simp only [consumeBlock, hb.1, hbuf, ← hb.2]

variable (W) in
theorem consumeBlock_cases (hbuf : s.buffer = none) :
    (W.blocks.length ≤ s.cursor ∧ consumeBlock W s = (none, s)) ∨
      ∃ b, W.IsBlock s.cursor b ∧
        consumeBlock W s = (some b, { s with cursor := s.cursor + 1 }) := by
  cases hb : W.blocks[s.cursor]? with
  | none =>
    refine .inl ⟨List.getElem?_eq_none_iff.1 hb, ?_⟩
    simp only [consumeBlock, hb]
  | some data =>
    have hblock : W.IsBlock s.cursor ⟨start W.blocks s.cursor, data⟩ := ⟨hb, rfl⟩
    exact .inr ⟨_, hblock, consumeBlock_isBlock hbuf hblock⟩

theorem consumeBlock_of_lt (hbuf : s.buffer = none) (hlt : s.cursor < W.blocks.length) :
    ∃ b, W.IsBlock s.cursor b ∧
      consumeBlock W s = (some b, { s with cursor := s.cursor + 1 }) :=
  (consumeBlock_cases W hbuf).resolve_left fun h => absurd h.1 (not_le.2 hlt)

theorem consumeBlock_of_le (hbuf : s.buffer = none) (hle : W.blocks.length ≤ s.cursor) :
    consumeBlock W s = (none, s) := by
  rcases consumeBlock_cases W hbuf with ⟨-, h⟩ | ⟨b, hb, -⟩
  · exact h
  · exact absurd hb.lt (not_lt.2 hle)

/-- What a search for a frame returns: the block that holds it, which the reader
    has just passed, or none, if the frame is behind the end. -/
inductive Found (W : Track α) (target nominalPos adjustedPos : ℕ) :
    Option (MfBlock α) × Source α → Prop
  | block {k b} : W.IsBlock k b → b.range.Contains target →
      Found W target nominalPos adjustedPos (some b, ⟨none, k + 1, nominalPos, adjustedPos, 0⟩)
  | behind {n} : W.blocks.flatten.length ≤ target → Found W target nominalPos adjustedPos
      (none, ⟨none, W.blocks.length, nominalPos, adjustedPos, n⟩)

/-- The block that the reader passes holds the frame. -/
theorem Found.here {b : MfBlock α} (hb : W.IsBlock s.cursor b) (hbuf : s.buffer = none)
    (hfade : s.fadeInBlocks = 0) (h : b.range.Contains target) :
    Found W target s.nominalPos s.adjustedPos (some b, { s with cursor := s.cursor + 1 }) := by
  obtain ⟨buffer, cursor, nominalPos, adjustedPos, fadeInBlocks⟩ := s
  obtain rfl : buffer = none := hbuf
  obtain rfl : fadeInBlocks = 0 := hfade
  exact .block hb h

/-- The reader is at the end. -/
theorem Found.end_ (hbuf : s.buffer = none) (hcur : s.cursor = W.blocks.length)
    (h : W.blocks.flatten.length ≤ target) :
    Found W target s.nominalPos s.adjustedPos (none, s) := by
  obtain ⟨buffer, cursor, nominalPos, adjustedPos, fadeInBlocks⟩ := s
  obtain rfl : buffer = none := hbuf
  obtain rfl : cursor = W.blocks.length := hcur
  exact .behind h

/-! ### Forwards -/

theorem searchForward_none {s' : Source α} (h : consumeBlock W s = (none, s')) :
    searchForwardAndRetrieveBlock W target s = (none, s') := by
  rw [searchForwardAndRetrieveBlock]
  split
  · next heq =>
    rw [h] at heq
    cases heq
    rfl
  · next heq =>
    rw [h] at heq
    cases heq

theorem searchForward_some {b : MfBlock α} {s' : Source α}
    (h : consumeBlock W s = (some b, s')) :
    searchForwardAndRetrieveBlock W target s = if b.range.Contains target then (some b, s')
      else searchForwardAndRetrieveBlock W target s' := by
  rw [searchForwardAndRetrieveBlock]
  split
  · next heq =>
    rw [h] at heq
    cases heq
  · next heq =>
    rw [h] at heq
    cases heq
    rfl

theorem searchForward_spec (hbuf : s.buffer = none) (hfade : s.fadeInBlocks = 0)
    (hcur : s.cursor ≤ W.blocks.length) (hle : start W.blocks s.cursor ≤ target) :
    Found W target s.nominalPos s.adjustedPos (searchForwardAndRetrieveBlock W target s) := by
  induction hd : W.blocks.length - s.cursor generalizing s with
  | zero =>
    have hend : s.cursor = W.blocks.length := by omega
    rw [searchForward_none (consumeBlock_of_le hbuf hend.ge)]
    rw [hend, start_of_length_le le_rfl] at hle
    exact .end_ hbuf hend hle
  | succ d ih =>
    obtain ⟨b, hb, hconsume⟩ := consumeBlock_of_lt hbuf (by omega : s.cursor < W.blocks.length)
    rw [searchForward_some hconsume]
    by_cases hin : b.range.Contains target
    · rw [if_pos hin]
      exact .here hb hbuf hfade hin
    · rw [if_neg hin]
      have hup : b.range.upper ≤ target := by
        by_contra hlt
        exact hin ⟨hb.2.trans_le hle, not_le.1 hlt⟩
      rw [hb.upper] at hup
      exact ih (s := { s with cursor := s.cursor + 1 }) hbuf hfade hb.lt hup
        (by show W.blocks.length - (s.cursor + 1) = d; omega)

/-- The reader has landed at a block: it passes it, or goes on forwards, unless
    the block starts behind the frame. -/
theorem landed {b : MfBlock α} {r : Option (MfBlock α) × Source α} (hb : W.IsBlock s.cursor b)
    (hbuf : s.buffer = none) (hfade : s.fadeInBlocks = 0)
    (hr : target < b.lower → Found W target s.nominalPos s.adjustedPos r) :
    Found W target s.nominalPos s.adjustedPos
      (if b.range.Contains target then (some b, { s with cursor := s.cursor + 1 })
        else if b.range.upper ≤ target then
          searchForwardAndRetrieveBlock W target { s with cursor := s.cursor + 1 }
        else r) := by
  by_cases hin : b.range.Contains target
  · rw [if_pos hin]
    exact .here hb hbuf hfade hin
  · rw [if_neg hin]
    by_cases hup : b.range.upper ≤ target
    · rw [if_pos hup]
      rw [hb.upper] at hup
      exact searchForward_spec (s := { s with cursor := s.cursor + 1 }) hbuf hfade hb.lt hup
    · rw [if_neg hup]
      exact hr (not_le.1 fun hle => hin ⟨hle, not_le.1 hup⟩)

/-! ### Discarding -/

/-- The source behind `n` discarded blocks. -/
def skipped (n : ℕ) (s : Source α) : Source α :=
  { s with cursor := s.cursor + n, fadeInBlocks := 0 }

theorem discardBlocks_of_le {n : ℕ} (hbuf : s.buffer = none) (hn : s.fadeInBlocks = n)
    (hle : s.cursor + n ≤ W.blocks.length) :
    discardBlocks W n s = (true, skipped n s) := by
  induction n generalizing s with
  | zero =>
    obtain ⟨buffer, cursor, nominalPos, adjustedPos, fadeInBlocks⟩ := s
    obtain rfl : fadeInBlocks = 0 := hn
    rfl
  | succ n ih =>
    obtain ⟨b, -, hconsume⟩ := consumeBlock_of_lt hbuf (by omega : s.cursor < W.blocks.length)
    simp only [discardBlocks, hconsume]
    rw [ih (s := { s with cursor := s.cursor + 1, fadeInBlocks := n }) hbuf rfl
      (by show s.cursor + 1 + n ≤ _; omega)]
    simp only [skipped, Nat.add_assoc, Nat.add_comm 1]

/-- Too few blocks: the reader is left at the end. -/
theorem discardBlocks_of_lt {n : ℕ} (hbuf : s.buffer = none) (hcur : s.cursor ≤ W.blocks.length)
    (hlt : W.blocks.length < s.cursor + n) :
    ∃ m, discardBlocks W n s =
      (false, ⟨none, W.blocks.length, s.nominalPos, s.adjustedPos, m⟩) := by
  induction n generalizing s with
  | zero => exact absurd hlt (not_lt.2 hcur)
  | succ n ih =>
    rcases consumeBlock_cases W hbuf with ⟨hend, hconsume⟩ | ⟨b, hb, hconsume⟩
    · obtain ⟨buffer, cursor, nominalPos, adjustedPos, fadeInBlocks⟩ := s
      obtain rfl : buffer = none := hbuf
      obtain rfl : cursor = W.blocks.length := le_antisymm hcur hend
      exact ⟨fadeInBlocks, by simp only [discardBlocks, hconsume]⟩
    · obtain ⟨m, hm⟩ := ih (s := { s with cursor := s.cursor + 1, fadeInBlocks := n }) hbuf hb.lt
        (by show _ < s.cursor + 1 + n; omega)
      exact ⟨m, by simp only [discardBlocks, hconsume]; exact hm⟩

/-! ### Backwards -/

theorem searchBackward_some {minValue backstep : ℕ} {s' s'' : Source α} {b : MfBlock α}
    (hdiscard : discardFadeinBlock W
      (seekInternal W minValue true (correctedTarget W target backstep) s).2 = (true, s'))
    (hconsume : consumeBlock W s' = (some b, s'')) :
    searchBackwardAndRetrieveBlock W minValue target backstep s =
      if b.range.Contains target then (some b, s'')
      else if b.range.upper ≤ target then searchForwardAndRetrieveBlock W target s''
      else if W.readOffset < correctedTarget W target backstep then
        searchBackwardAndRetrieveBlock W minValue target (backstep + 2 * defaultBlockSize) s''
      else (none, s'') := by
  rw [searchBackwardAndRetrieveBlock]
  have hmoved : (seekInternal W minValue true (correctedTarget W target backstep) s).1 = true := rfl
  simp only [hmoved, hdiscard, hconsume, if_true]
  rfl

theorem correctedTarget_le (hro : W.readOffset ≤ target) (backstep : ℕ) :
    W.readOffset ≤ correctedTarget W target backstep ∧
      correctedTarget W target backstep ≤ target := by
  unfold correctedTarget
  split_ifs <;> omega

/-- Where the steps back land: at a block that starts before the frame, or far
    enough behind the offset for a further step. -/
theorem searchBackward_land (hro : W.readOffset ≤ target) (hT : target < W.blocks.flatten.length)
    (hmany : W.minValue ≤ target →
      blockAt W.blocks (target - fadeInFrames) + maxFadeInBlocks < W.blocks.length)
    (backstep : ℕ) (s : Source α) :
    ∃ c b, W.IsBlock c b ∧
      discardFadeinBlock W
          (seekInternal W W.minValue true (correctedTarget W target backstep) s).2 =
        (true, ⟨none, c, s.nominalPos, s.adjustedPos, 0⟩) ∧
      (b.lower ≤ target ∨ W.readOffset < correctedTarget W target backstep) := by
  obtain ⟨hct, hct'⟩ := correctedTarget_le hro backstep
  by_cases hfar : W.minValue ≤ correctedTarget W target backstep
  · have hmono := blockAt_mono (Nat.sub_le_sub_right hct' fadeInFrames) W.blocks
    have hlt := hmany (hfar.trans hct')
    have hland : blockAt W.blocks (correctedTarget W target backstep - fadeInFrames) +
        maxFadeInBlocks < W.blocks.length := by omega
    have hfade : fadeIn W.minValue W.readOffset (correctedTarget W target backstep) =
        (correctedTarget W target backstep - fadeInFrames, maxFadeInBlocks) := if_pos hfar
    refine ⟨_, ⟨start W.blocks _, W.blocks.get ⟨_, hland⟩⟩, ⟨List.getElem?_eq_getElem hland, rfl⟩,
      ?_, .inr ?_⟩
    · simp only [seekInternal, if_true, hfade]
      exact discardBlocks_of_le rfl rfl hland.le
    · have hpos : 0 < fadeInFrames := by decide
      unfold Track.minValue at hfar
      omega
  · have hfade : fadeIn W.minValue W.readOffset (correctedTarget W target backstep) =
        (W.readOffset, 0) := if_neg hfar
    obtain ⟨data, hdata, hle, -⟩ := blockAt_spec (hro.trans_lt hT)
    have hb : W.IsBlock (blockAt W.blocks W.readOffset) ⟨start W.blocks _, data⟩ := ⟨hdata, rfl⟩
    refine ⟨_, _, hb, ?_, .inl (hle.trans hro)⟩
    simp only [seekInternal, if_true, hfade]
    exact discardBlocks_of_le rfl rfl hb.lt.le

theorem searchBackward_spec (hro : W.readOffset ≤ target) (hT : target < W.blocks.flatten.length)
    (hmany : W.minValue ≤ target →
      blockAt W.blocks (target - fadeInFrames) + maxFadeInBlocks < W.blocks.length)
    (backstep : ℕ) (s : Source α) :
    Found W target s.nominalPos s.adjustedPos
      (searchBackwardAndRetrieveBlock W W.minValue target backstep s) := by
  induction hd : target - (W.readOffset + backstep) using Nat.strong_induction_on
    generalizing backstep s with
  | _ d ih =>
    subst hd
    obtain ⟨c, b, hb, hdiscard, hland⟩ := searchBackward_land hro hT hmany backstep s
    rw [searchBackward_some hdiscard (consumeBlock_isBlock rfl hb)]
    refine landed (s := ⟨none, c, s.nominalPos, s.adjustedPos, 0⟩) hb rfl rfl fun hlow => ?_
    have hfar := hland.resolve_left (not_le.2 hlow)
    rw [if_pos hfar]
    have hless : target - (W.readOffset + (backstep + 2 * defaultBlockSize)) <
        target - (W.readOffset + backstep) := by
      unfold correctedTarget at hfar
      unfold defaultBlockSize
      split_ifs at hfar <;> omega
    exact ih _ hless _ ⟨none, c + 1, s.nominalPos, s.adjustedPos, 0⟩ rfl

/-! ### Searching for a frame -/

theorem searchAndRetrieve_none {minValue : ℕ} {s' : Source α}
    (h : discardFadeinBlock W s = (false, s') ∨
      discardFadeinBlock W s = (true, s') ∧ consumeBlock W s' = (none, s')) :
    searchAndRetrieveBlock W minValue target s = (none, s') := by
  rw [searchAndRetrieveBlock]
  rcases h with h | ⟨h, hconsume⟩
  · simp only [h, Bool.false_eq_true, if_false]
  · simp only [h, hconsume, if_true]

theorem searchAndRetrieve_some {minValue : ℕ} {s' s'' : Source α} {b : MfBlock α}
    (hdiscard : discardFadeinBlock W s = (true, s'))
    (hconsume : consumeBlock W s' = (some b, s'')) :
    searchAndRetrieveBlock W minValue target s =
      if b.range.Contains target then (some b, s'')
      else if b.range.upper ≤ target then searchForwardAndRetrieveBlock W target s''
      else searchBackwardAndRetrieveBlock W minValue target 0 s'' := by
  rw [searchAndRetrieveBlock]
  simp only [hdiscard, hconsume, if_true]

/-- A source without a buffered block, whose reader stands before the frame, or
    at a step back from it. -/
structure Waiting (W : Track α) (s : Source α) : Prop where
  buffer : s.buffer = none
  cursor_le : s.cursor ≤ W.blocks.length
  place : s.fadeInBlocks = 0 ∧ start W.blocks s.cursor ≤ s.adjustedPos ∨
    s.fadeInBlocks = maxFadeInBlocks ∧ W.minValue ≤ s.adjustedPos ∧
      s.cursor = blockAt W.blocks (s.adjustedPos - fadeInFrames) ∨
    s.cursor = W.blocks.length ∧ W.blocks.flatten.length ≤ s.adjustedPos

/-- More blocks are there than a read discards, or it is one behind the end. -/
def MoreBlocks (W : Track α) (s : Source α) : Prop :=
  s.fadeInBlocks = 0 ∨ W.blocks.flatten.length ≤ s.adjustedPos ∨
    s.cursor + s.fadeInBlocks < W.blocks.length

/-- Then the end is met behind the last frame only. -/
theorem Waiting.behind (h : Waiting W s) (hsafe : MoreBlocks W s)
    (hend : W.blocks.length ≤ s.cursor + s.fadeInBlocks) :
    W.blocks.flatten.length ≤ s.adjustedPos := by
  have hcur := h.cursor_le
  rcases hsafe with h0 | hT | hmore
  · rcases h.place with ⟨-, hle⟩ | ⟨h2, -⟩ | ⟨-, hT⟩
    · rwa [start_of_length_le (by omega)] at hle
    · exact absurd (h0.symm.trans h2) (by decide)
    · exact hT
  · exact hT
  · exact absurd hmore (not_lt.2 hend)

/-- **Searching.**  The block that holds the next frame is found, if there are
    more blocks than are discarded, or the frame is behind the end. -/
theorem searchAndRetrieveBlock_spec (h : Waiting W s) (hsafe : MoreBlocks W s) :
    Found W s.adjustedPos s.nominalPos s.adjustedPos
      (searchAndRetrieveBlock W W.minValue s.adjustedPos s) := by
  rcases Nat.lt_or_ge W.blocks.length (s.cursor + s.fadeInBlocks) with hlt | hle
  · -- the end of the stream is met while blocks are discarded
    obtain ⟨m, hm⟩ := discardBlocks_of_lt h.buffer h.cursor_le hlt
    rw [searchAndRetrieve_none (.inl hm)]
    exact .behind (h.behind hsafe hlt.le)
  · have hdiscard : discardFadeinBlock W s = (true, skipped s.fadeInBlocks s) :=
      discardBlocks_of_le h.buffer rfl hle
    have hbuf : (skipped s.fadeInBlocks s).buffer = none := h.buffer
    rcases consumeBlock_cases W hbuf with ⟨hend, hconsume⟩ | ⟨b, hb, hconsume⟩
    · rw [searchAndRetrieve_none (.inr ⟨hdiscard, hconsume⟩)]
      have hcur : (skipped s.fadeInBlocks s).cursor = W.blocks.length := le_antisymm hle hend
      exact .end_ hbuf hcur (h.behind hsafe hend)
    · rw [searchAndRetrieve_some hdiscard hconsume]
      refine landed hb hbuf rfl fun hlow => ?_
      have hlow : s.adjustedPos < start W.blocks (s.cursor + s.fadeInBlocks) := hlow.trans_eq hb.2
      have hlt : s.cursor + s.fadeInBlocks < W.blocks.length := hb.lt
      rcases h.place with ⟨h0, hle⟩ | ⟨h2, hfar, hcursor⟩ | ⟨hend, -⟩
      · rw [h0, Nat.add_zero] at hlow
        exact absurd hle (not_le.2 hlow)
      · have hro : W.readOffset ≤ s.adjustedPos := (Nat.le_add_left _ _).trans hfar
        rw [h2, hcursor] at hlt
        exact searchBackward_spec hro (hlow.trans_le (start_le _ _)) (fun _ => hlt) 0
          { skipped s.fadeInBlocks s with cursor := s.cursor + s.fadeInBlocks + 1 }
      · omega

/-- A source whose buffer holds the block that the reader has just passed. -/
structure Buffered (W : Track α) (k : ℕ) (b : MfBlock α) (s : Source α) : Prop where
  isBlock : W.IsBlock k b
  buffer : s.buffer = some b
  cursor : s.cursor = k + 1
  fadeIn : s.fadeInBlocks = 0

/-- The block behind the buffered one. -/
theorem Buffered.consumeBlock_cases {k : ℕ} {b : MfBlock α} (h : Buffered W k b s) :
    (W.blocks.length ≤ k + 1 ∧ consumeBlock W s = (none, s)) ∨
      ∃ b', W.IsBlock (k + 1) b' ∧ consumeBlock W s = (some b', { s with cursor := k + 2 }) := by
  cases hb : W.blocks[k + 1]? with
  | none =>
    refine .inl ⟨List.getElem?_eq_none_iff.1 hb, ?_⟩
    simp only [consumeBlock, h.cursor, hb]
  | some data =>
    refine .inr ⟨⟨start W.blocks (k + 1), data⟩, ⟨hb, rfl⟩, ?_⟩
    simp only [consumeBlock, h.cursor, hb, h.buffer, h.isBlock.upper]

/-- The frame behind the buffered block is in the next one. -/
theorem Buffered.search {k : ℕ} {b : MfBlock α} (h : Buffered W k b s) (minValue target : ℕ) :
    (W.blocks.length ≤ k + 1 ∧ searchAndRetrieveBlock W minValue target s = (none, s)) ∨
      ∃ b', W.IsBlock (k + 1) b' ∧ (target = b.range.upper →
        searchAndRetrieveBlock W minValue target s = (some b', { s with cursor := k + 2 })) := by
  have hdiscard : discardFadeinBlock W s = (true, s) := by rw [discardFadeinBlock, h.fadeIn]; rfl
  rcases h.consumeBlock_cases with ⟨hend, hconsume⟩ | ⟨b', hb', hconsume⟩
  · exact .inl ⟨hend, searchAndRetrieve_none (.inr ⟨hdiscard, hconsume⟩)⟩
  · refine .inr ⟨b', hb', fun htarget => ?_⟩
    have hin : b'.range.Contains target := by
      rw [htarget, h.isBlock.upper]
      exact ⟨hb'.2.le, hb'.start_lt.trans_eq hb'.upper.symm⟩
    rw [searchAndRetrieve_some hdiscard hconsume, if_pos hin]

/-! ### States -/

/-- The source behind a read. -/
def advanced (m : ℕ) (s : Source α) : Source α :=
  { s with nominalPos := s.nominalPos + m, adjustedPos := s.adjustedPos + m }

@[simp] theorem advanced_nominalPos (m : ℕ) (s : Source α) :
    (advanced m s).nominalPos = s.nominalPos + m := rfl

@[simp] theorem advanced_adjustedPos (m : ℕ) (s : Source α) :
    (advanced m s).adjustedPos = s.adjustedPos + m := rfl

theorem Buffered.advanced {k : ℕ} {b : MfBlock α} (h : Buffered W k b s) (m : ℕ) :
    Buffered W k b (MediaFoundation.advanced m s) :=
  ⟨h.isBlock, h.buffer, h.cursor, h.fadeIn⟩

/-- The states of a source.  Either its buffer holds the block that the reader
    has just passed, which is the one with the last frame that was read, or it
    waits for a read behind a seek. -/
structure Ok (W : Track α) (s : Source α) : Prop where
  nominalPos_le : s.nominalPos ≤ W.numFrames
  adjustedPos : s.adjustedPos = s.nominalPos + W.readOffset
  place : (∃ k b, Buffered W k b s ∧ b.lower ≤ s.adjustedPos ∧
    (s.adjustedPos ≤ b.range.upper ∨ W.blocks.length ≤ k + 1)) ∨ Waiting W s

/-! ## Seeking -/

theorem ok_opened : Ok W (opened W) where
  nominalPos_le := Nat.zero_le _
  adjustedPos := (Nat.zero_add _).symm
  place := by
    by_cases h : W.readOffset ≠ 0
    · have hcur : (opened W).cursor = blockAt W.blocks W.readOffset := if_pos h
      refine .inr ⟨rfl, hcur.trans_le (blockAt_le _ _), .inl ⟨rfl, ?_⟩⟩
      rw [hcur]
      exact start_blockAt_le _ _
    · have hcur : (opened W).cursor = 0 := if_neg h
      refine .inr ⟨rfl, hcur.trans_le (Nat.zero_le _), .inl ⟨rfl, ?_⟩⟩
      rw [hcur, start_zero]
      exact Nat.zero_le _

/-- The source behind a seek that has set the position. -/
def sought (W : Track α) (q : ℕ) : Source α where
  buffer := none
  cursor := blockAt W.blocks (fadeIn W.minValue W.readOffset (q + W.readOffset)).1
  nominalPos := q
  adjustedPos := q + W.readOffset
  fadeInBlocks := (fadeIn W.minValue W.readOffset (q + W.readOffset)).2

theorem ok_sought {q : ℕ} (hq : q ≤ W.numFrames) : Ok W (sought W q) where
  nominalPos_le := hq
  adjustedPos := rfl
  place := by
    refine .inr ⟨rfl, blockAt_le _ _, ?_⟩
    by_cases hfar : W.minValue ≤ q + W.readOffset
    · have hfade : fadeIn W.minValue W.readOffset (q + W.readOffset) =
          (q + W.readOffset - fadeInFrames, maxFadeInBlocks) := if_pos hfar
      refine .inr (.inl ⟨congrArg Prod.snd hfade, hfar, ?_⟩)
      rw [sought, hfade]
    · have hfade : fadeIn W.minValue W.readOffset (q + W.readOffset) = (W.readOffset, 0) :=
        if_neg hfar
      refine .inl ⟨congrArg Prod.snd hfade, ?_⟩
      rw [sought, hfade]
      exact (start_blockAt_le _ _).trans (Nat.le_add_left _ _)

theorem seekNominal_beg {frame : ℕ} (hfits : frame * W.frameSize < 2 ^ 63) :
    seekNominal W (frame * W.frameSize) .beg s = min frame W.numFrames := by
  have hoff : frameOffset ((frame : ℤ) * W.frameSize) W.frameSize = frame :=
    frameOffset_of_nonneg W.frameSize_pos (Int.natCast_nonneg _) (by exact_mod_cast hfits)
  have hle : frame ≤ frame * W.frameSize := Nat.le_mul_of_pos_right _ W.frameSize_pos
  have hwrap : wrap 64 (frame : ℤ) = frame := wrap_of_range (by omega) (by omega)
  rw [seekNominal, absolutePosition_eq_wrap, hoff, seekBase, Int.zero_add, hwrap, clamp]
  split_ifs <;> omega

theorem wrap_frames {q : ℕ} (hq : q ≤ W.numFrames) :
    wrap 64 ((q : ℤ) * W.frameSize) = (q * W.frameSize : ℕ) := by
  have hlt := (Nat.mul_le_mul_right W.frameSize hq).trans_lt W.fits
  rw [← Nat.cast_mul]
  exact wrap_of_range (by omega) (by omega)

/-- A seek that changes the position sets it. -/
theorem seek_of_ne {frame : ℕ} (hfits : frame * W.frameSize < 2 ^ 63)
    (hne : s.nominalPos ≠ min frame W.numFrames) :
    seek W W.minValue true (frame * W.frameSize) .beg s =
      (wrap 64 ((min frame W.numFrames : ℕ) * W.frameSize), sought W (min frame W.numFrames)) := by
  simp only [seek, seekNominal_beg hfits, if_pos hne]
  rfl

theorem seek_of_eq {frame : ℕ} (hfits : frame * W.frameSize < 2 ^ 63)
    (heq : s.nominalPos = min frame W.numFrames) :
    seek W W.minValue true (frame * W.frameSize) .beg s =
      (wrap 64 (s.nominalPos * W.frameSize), s) := by
  simp only [seek, seekNominal_beg hfits, if_neg (not_not.2 heq)]
  rfl

/-- **Seeking.**  The source goes to the frame asked for, or to the end. -/
theorem seek_spec (hs : Ok W s) {frame : ℕ} (hfits : frame * W.frameSize < 2 ^ 63) :
    (seek W W.minValue true (frame * W.frameSize) .beg s).1 =
        (min frame W.numFrames * W.frameSize : ℕ) ∧
      (seek W W.minValue true (frame * W.frameSize) .beg s).2.nominalPos =
        min frame W.numFrames ∧
      Ok W (seek W W.minValue true (frame * W.frameSize) .beg s).2 := by
  have hq : min frame W.numFrames ≤ W.numFrames := Nat.min_le_right _ _
  by_cases hstay : s.nominalPos = min frame W.numFrames
  · rw [seek_of_eq hfits hstay, wrap_frames hs.nominalPos_le, hstay]
    exact ⟨rfl, rfl, hs⟩
  · rw [seek_of_ne hfits hstay, wrap_frames hq]
    exact ⟨rfl, rfl, ok_sought hq⟩

end

/-! ## Reading -/

section
variable {α : Type} [Zero α] {W : Track α} {s : Source α} {k a e at_ : ℕ} {b : MfBlock α}
  {dst : ℕ → α}

/-- The range from `a` to `e` as an interval set. -/
def rest (a e : ℕ) : List FrameRange := FrameRange.toSet ⟨a, e⟩

theorem rest_of_lt (h : a < e) : rest a e = [⟨a, e⟩] := if_pos h

theorem rest_of_le (h : e ≤ a) : rest a e = [] := if_neg (not_lt.2 h)

theorem rest_min (e a : ℕ) : rest (min e a) e = rest a e := by
  rcases Nat.le_total e a with h | h
  · rw [min_eq_left h, rest_of_le le_rfl, rest_of_le h]
  · rw [min_eq_right h]

/-- The frames of the buffered block are copied. -/
theorem readFromBuffer_of_mem (hb : W.IsBlock k b) (hbuf : s.buffer = some b) (hlow : b.lower ≤ a)
    (hup : a < b.range.upper) (hlt : a < e) :
    readFromBuffer ⟨a, e⟩ at_ dst s =
      (rest b.range.upper e, delivered W a (min e b.range.upper - a) at_ dst) := by
  have hinter : FrameRange.inter ⟨a, e⟩ b.range = ⟨a, min e b.range.upper⟩ := by
    simp only [FrameRange.inter, FrameRange.mk.injEq, and_true]
    exact max_eq_left hlow
  have hlow' : b.range.lower = start W.blocks k := hb.2
  have hle : start W.blocks k ≤ a := hb.2.symm.trans_le hlow
  have hend : a + (min e b.range.upper - a) ≤ start W.blocks k + b.data.length := by
    rw [← start_succ hb.1, ← hb.upper]
    omega
  simp only [readFromBuffer, hbuf, hinter]
  rw [if_pos (lt_min hlt hup), FrameRange.without, Nat.sub_self, Nat.add_zero, hlow',
    copyN_eq_delivered hb.1 hle hend]
  exact congrArg (·, _) (congrArg₂ (· ++ ·) (rest_of_le le_rfl) (rest_min e b.range.upper))

/-- Frames behind the buffered block are left. -/
theorem readFromBuffer_of_le (hbuf : s.buffer = some b) (hup : b.range.upper ≤ a) :
    readFromBuffer ⟨a, e⟩ at_ dst s = (rest a e, dst) := by
  simp only [readFromBuffer, hbuf, FrameRange.inter]
  exact if_neg (by omega)

theorem readFromBuffer_none (hbuf : s.buffer = none) :
    readFromBuffer ⟨a, e⟩ at_ dst s = (rest a e, dst) := by
  simp only [readFromBuffer, hbuf]
  rfl

/-! ### The loop of `readFromFile` -/

theorem fillRange_stop {remaining : List FrameRange} {range : FrameRange}
    (hbuf : s.buffer = some b) (h : b.range.Contains (range.upper - 1) ∨ remaining = []) :
    fillRange W range at_ remaining dst s = (remaining, dst, s) := by
  rw [fillRange.eq_def]
  cases remaining with
  | nil => simp only [hbuf]
  | cons first rest =>
    have hin := h.resolve_right (List.cons_ne_nil _ _)
    simp only [hbuf, if_pos hin]

theorem fillRange_none {first : FrameRange} {ranges : List FrameRange} {range : FrameRange}
    {s' : Source α} (hbuf : s.buffer = some b) (hout : ¬ b.range.Contains (range.upper - 1))
    (hconsume : consumeBlock W s = (none, s')) :
    fillRange W range at_ (first :: ranges) dst s = (first :: ranges, dst, s') := by
  rw [fillRange.eq_def]
  simp only [hbuf, if_neg hout]
  split
  · next heq =>
    rw [hconsume] at heq
    cases heq
    rfl
  · next heq =>
    rw [hconsume] at heq
    cases heq

theorem fillRange_some {first : FrameRange} {ranges : List FrameRange} {range : FrameRange}
    {s' : Source α} {b' : MfBlock α} (hbuf : s.buffer = some b)
    (hout : ¬ b.range.Contains (range.upper - 1))
    (hconsume : consumeBlock W s = (some b', s')) :
    fillRange W range at_ (first :: ranges) dst s =
      fillRange W range at_
        (readFromBuffer first (at_ + (first.lower - range.lower)) dst
          { s' with buffer := some b' }).1
        (readFromBuffer first (at_ + (first.lower - range.lower)) dst
          { s' with buffer := some b' }).2 { s' with buffer := some b' } := by
  rw [fillRange.eq_def]
  simp only [hbuf, if_neg hout]
  split
  · next heq =>
    rw [hconsume] at heq
    cases heq
  · next heq =>
    rw [hconsume] at heq
    cases heq
    rfl

/-- What a read from the file leaves: the frames up to `m` are delivered, and
    `m` is the end of the range or behind the end of the stream. -/
inductive Filled (W : Track α) (a e at_ : ℕ) (dst : ℕ → α) (nominalPos adjustedPos : ℕ) :
    List FrameRange × (ℕ → α) × Source α → Prop
  | buffered {m k b s} : a ≤ m → m ≤ e → (m = e ∨ W.blocks.flatten.length ≤ m) →
      Buffered W k b s → start W.blocks k ≤ e → (e ≤ b.range.upper ∨ W.blocks.length ≤ k + 1) →
      s.nominalPos = nominalPos → s.adjustedPos = adjustedPos →
      Filled W a e at_ dst nominalPos adjustedPos (rest m e, delivered W a (m - a) at_ dst, s)
  | behind {n} : W.blocks.flatten.length ≤ a → Filled W a e at_ dst nominalPos adjustedPos
      (rest a e, dst, ⟨none, W.blocks.length, nominalPos, adjustedPos, n⟩)

/-- The loop, from a buffered block on that holds the frames up to `e`, or ends
    before `e` with its frames delivered. -/
theorem fillRange_spec (h : Buffered W k b s) (hlow : b.lower < e) (hup : a ≤ b.range.upper)
    (hae : a < e) :
    Filled W a e at_ dst s.nominalPos s.adjustedPos
      (fillRange W ⟨a, e⟩ at_ (rest b.range.upper e)
        (delivered W a (min e b.range.upper - a) at_ dst) s) := by
  induction hd : W.blocks.length - k generalizing k b s with
  | zero => exact absurd h.isBlock.lt (by omega)
  | succ d ih =>
    rcases Nat.lt_or_ge b.range.upper e with hue | hue
    · have hout : ¬ b.range.Contains (FrameRange.upper ⟨a, e⟩ - 1) := by
        rintro ⟨-, hlt⟩
        have hlt : e - 1 < b.range.upper := hlt
        omega
      rw [rest_of_lt hue, min_eq_right hue.le]
      rcases h.consumeBlock_cases with ⟨hend, hconsume⟩ | ⟨b', hb', hconsume⟩
      · rw [fillRange_none h.buffer hout hconsume, ← rest_of_lt hue]
        refine .buffered hup hue.le (.inr ?_) h (h.isBlock.2.symm.trans_lt hlow).le (.inr hend)
          rfl rfl
        rw [h.isBlock.upper, start_of_length_le hend]
      · have hlow' : b'.lower = b.range.upper := hb'.2.trans h.isBlock.upper.symm
        have hlt' : b.range.upper < b'.range.upper := by
          rw [h.isBlock.upper, hb'.upper]
          exact hb'.start_lt
        have hnext : Buffered W (k + 1) b' { s with cursor := k + 2, buffer := some b' } :=
          ⟨hb', rfl, rfl, h.fadeIn⟩
        rw [fillRange_some h.buffer hout hconsume]
        have hread : readFromBuffer ⟨b.range.upper, e⟩ (at_ + (b.range.upper - a))
            (delivered W a (b.range.upper - a) at_ dst)
            { s with cursor := k + 2, buffer := some b' } =
            (rest b'.range.upper e, delivered W a (min e b'.range.upper - a) at_ dst) := by
          rw [readFromBuffer_of_mem hb' rfl hlow'.le hlt' hue, delivered_append hup]
          exact le_min hue.le hlt'.le
        rw [show (FrameRange.lower ⟨b.range.upper, e⟩ - FrameRange.lower ⟨a, e⟩) =
          b.range.upper - a from rfl, hread]
        exact ih hnext (hlow'.trans_lt hue) (hup.trans hlt'.le) (by omega)
    · rw [rest_of_le hue, min_eq_left hue]
      rw [fillRange_stop h.buffer (.inr rfl), ← rest_of_le (le_refl e)]
      exact .buffered hae.le le_rfl (.inl rfl) h (h.isBlock.2.symm.trans_lt hlow).le (.inl hue)
        rfl rfl

/-- The block with the first frame has been found. -/
theorem fillRange_found (h : Buffered W k b s) (hin : b.range.Contains a) (hae : a < e) :
    Filled W a e at_ dst s.nominalPos s.adjustedPos
      (fillRange W ⟨a, e⟩ at_ (readFromBuffer ⟨a, e⟩ at_ dst s).1
        (readFromBuffer ⟨a, e⟩ at_ dst s).2 s) := by
  rw [readFromBuffer_of_mem h.isBlock h.buffer hin.1 hin.2 hae]
  exact fillRange_spec h (hin.1.trans_lt hae) hin.2.le hae

/-- Reading on behind a seek. -/
theorem readFromFile_waiting (h : Waiting W s) (hsafe : MoreBlocks W s) (hlt : s.adjustedPos < e) :
    Filled W s.adjustedPos e at_ dst s.nominalPos s.adjustedPos
      (readFromFile W W.minValue ⟨s.adjustedPos, e⟩ at_ dst s) := by
  have hfound := searchAndRetrieveBlock_spec h hsafe
  rw [readFromFile]
  generalize searchAndRetrieveBlock W W.minValue s.adjustedPos s = r at hfound
  cases hfound with
  | @block k b hb hin =>
    exact fillRange_found (s := ⟨some b, k + 1, s.nominalPos, s.adjustedPos, 0⟩)
      ⟨hb, rfl, rfl, rfl⟩ hin hlt
  | behind hT => exact .behind hT

/-- Reading on behind the buffered block. -/
theorem readFromFile_buffered (h : Buffered W k b s) (hup : b.range.upper ≤ a)
    (hnext : a = b.range.upper ∨ W.blocks.length ≤ k + 1) (hlt : a < e) (minValue : ℕ) :
    Filled W a e at_ dst s.nominalPos s.adjustedPos
      (readFromFile W minValue ⟨a, e⟩ at_ dst s) := by
  rw [readFromFile]
  rcases h.search minValue a with ⟨hend, hsearch⟩ | ⟨b', hb', hsearch⟩
  · rw [hsearch]
    have hT : W.blocks.flatten.length ≤ a := by
      rw [← start_of_length_le hend, ← h.isBlock.upper]
      exact hup
    have hle : start W.blocks k ≤ e :=
      (h.isBlock.start_lt.trans_eq h.isBlock.upper.symm).le.trans (hup.trans hlt.le)
    have hfilled : Filled W a e at_ dst s.nominalPos s.adjustedPos
        (rest a e, delivered W a (a - a) at_ dst, s) :=
      .buffered le_rfl hlt.le (.inr hT) h hle (.inr hend) rfl rfl
    rwa [Nat.sub_self, delivered_zero] at hfilled
  · have ha : a = b.range.upper := hnext.resolve_right (not_le.2 hb'.lt)
    rw [hsearch ha]
    have hin : b'.range.Contains a := by
      rw [ha, h.isBlock.upper]
      exact ⟨hb'.2.le, hb'.start_lt.trans_eq hb'.upper.symm⟩
    exact fillRange_found (s := { s with cursor := k + 2, buffer := some b' })
      ⟨hb', rfl, rfl, h.fadeIn⟩ hin hlt

/-! ### The two passes of `read` -/

/-- The second pass, and the silence behind it: all frames up to `e`. -/
theorem silence_filled {lower n p : ℕ} {r : List FrameRange × (ℕ → α) × Source α}
    (h : Filled W a e (a - lower) dst n p r) (hla : lower ≤ a) (hae : a ≤ e) :
    silence lower r.1 r.2.1 = delivered W a (e - a) (a - lower) dst := by
  have hfill : ∀ m, a ≤ m → m ≤ e → (m = e ∨ W.blocks.flatten.length ≤ m) →
      silence lower (rest m e) (delivered W a (m - a) (a - lower) dst) =
        delivered W a (e - a) (a - lower) dst := by
    intro m ham hme hend
    rcases hme.eq_or_lt with rfl | hlt
    · rw [rest_of_le le_rfl]
      rfl
    · have hT := hend.resolve_left hlt.ne
      have hpos : m - lower = a - lower + (m - a) := by omega
      rw [rest_of_lt hlt]
      show fillN (e - m) (m - lower) (delivered W a (m - a) (a - lower) dst) = _
      rw [fillN_eq_delivered hT, hpos, delivered_append ham hme]
  cases h with
  | buffered ham hme hend => exact hfill _ ham hme hend
  | behind hT =>
    have h0 := hfill a le_rfl hae (.inr hT)
    rwa [Nat.sub_self, delivered_zero] at h0

theorem Filled.nominalPos {n p : ℕ} {r : List FrameRange × (ℕ → α) × Source α}
    (h : Filled W a e at_ dst n p r) : r.2.2.nominalPos = n := by
  cases h with
  | buffered _ _ _ _ _ _ hn => exact hn
  | behind => rfl

theorem Ok.of_filled {m : ℕ} {r : List FrameRange × (ℕ → α) × Source α} (hs : Ok W s)
    (h : Filled W a (s.adjustedPos + m) at_ dst s.nominalPos s.adjustedPos r)
    (ham : a ≤ s.adjustedPos + m) (hm : s.nominalPos + m ≤ W.numFrames) :
    Ok W (advanced m r.2.2) := by
  have hadj := hs.adjustedPos
  cases h with
  | @buffered _ k b t hle hle' hend hb hlow hup hn hp =>
    refine ⟨?_, ?_, .inl ⟨k, b, hb.advanced m, ?_, ?_⟩⟩
    · rw [advanced_nominalPos, hn]
      exact hm
    · rw [advanced_nominalPos, advanced_adjustedPos, hn, hp]
      omega
    · rw [advanced_adjustedPos, hp, hb.isBlock.2]
      exact hlow
    · rw [advanced_adjustedPos, hp]
      exact hup
  | behind hT =>
    refine ⟨hm, ?_, .inr ⟨rfl, le_rfl, .inr (.inr ⟨rfl, hT.trans ham⟩)⟩⟩
    rw [advanced_nominalPos, advanced_adjustedPos]
    show s.adjustedPos + m = s.nominalPos + m + _
    omega

/-- The second pass, from frame `c` on, if the first one has delivered the
    frames before it. -/
theorem readRanges_spec {m c : ℕ} (hs : Ok W s) (hc : s.adjustedPos ≤ c)
    (hce : c ≤ s.adjustedPos + m) (hm : s.nominalPos + m ≤ W.numFrames)
    (hread : c < s.adjustedPos + m → ∀ dst, Filled W c (s.adjustedPos + m) (c - s.adjustedPos) dst
      s.nominalPos s.adjustedPos
      (readFromFile W W.minValue ⟨c, s.adjustedPos + m⟩ (c - s.adjustedPos) dst s))
    (hstay : c = s.adjustedPos + m → Ok W (advanced m s)) :
    ∃ r, readRanges W W.minValue s.adjustedPos (rest c (s.adjustedPos + m))
        (delivered W s.adjustedPos (c - s.adjustedPos) 0 dst) s = r ∧
      silence s.adjustedPos r.1 r.2.1 = delivered W s.adjustedPos m 0 dst ∧
      r.2.2.nominalPos = s.nominalPos ∧ Ok W (advanced m r.2.2) := by
  rcases hce.eq_or_lt with rfl | hlt
  · rw [rest_of_le le_rfl, Nat.add_sub_cancel_left]
    exact ⟨_, rfl, rfl, rfl, hstay rfl⟩
  · have hfilled := hread hlt (delivered W s.adjustedPos (c - s.adjustedPos) 0 dst)
    refine ⟨_, rfl, ?_⟩
    rw [rest_of_lt hlt]
    simp only [readRanges, List.append_nil]
    refine ⟨?_, hfilled.nominalPos, hs.of_filled hfilled hlt.le hm⟩
    rw [silence_filled hfilled hc hlt.le]
    have hall : delivered W c (s.adjustedPos + m - c) (0 + (c - s.adjustedPos))
        (delivered W s.adjustedPos (c - s.adjustedPos) 0 dst) =
          delivered W s.adjustedPos (s.adjustedPos + m - s.adjustedPos) 0 dst :=
      delivered_append hc hlt.le
    rwa [Nat.zero_add, Nat.add_sub_cancel_left] at hall

/-- The first pass delivers the frames up to `c`, from where the second one can
    go on. -/
theorem Ok.firstPass {m : ℕ} (hs : Ok W s) (hm : 0 < m) (hn : s.nominalPos + m ≤ W.numFrames)
    (hsafe : MoreBlocks W s) (dst : ℕ → α) :
    ∃ c, s.adjustedPos ≤ c ∧ c ≤ s.adjustedPos + m ∧
      readFromBuffer ⟨s.adjustedPos, s.adjustedPos + m⟩ 0 dst s =
        (rest c (s.adjustedPos + m), delivered W s.adjustedPos (c - s.adjustedPos) 0 dst) ∧
      (c < s.adjustedPos + m → ∀ dst, Filled W c (s.adjustedPos + m) (c - s.adjustedPos) dst
        s.nominalPos s.adjustedPos
        (readFromFile W W.minValue ⟨c, s.adjustedPos + m⟩ (c - s.adjustedPos) dst s)) ∧
      (c = s.adjustedPos + m → Ok W (advanced m s)) := by
  have hadj := hs.adjustedPos
  have hlt : s.adjustedPos < s.adjustedPos + m := Nat.lt_add_of_pos_right hm
  have hnothing : delivered W s.adjustedPos (s.adjustedPos - s.adjustedPos) 0 dst = dst := by
    rw [Nat.sub_self, delivered_zero]
  rcases hs.place with ⟨k, b, hb, hlow, hup⟩ | hwait
  · rcases Nat.lt_or_ge s.adjustedPos b.range.upper with hin | hout
    · refine ⟨min (s.adjustedPos + m) b.range.upper, le_min hlt.le hin.le, Nat.min_le_left _ _,
        ?_, fun hc dst => ?_, fun hc => ?_⟩
      · rw [readFromBuffer_of_mem hb.isBlock hb.buffer hlow hin hlt, rest_min]
      · have hmin : min (s.adjustedPos + m) b.range.upper = b.range.upper := by omega
        rw [hmin] at hc ⊢
        exact readFromFile_buffered hb le_rfl (.inl rfl) hc W.minValue
      · refine ⟨hn, ?_, .inl ⟨k, b, hb.advanced m, hlow.trans (Nat.le_add_right _ m), .inl ?_⟩⟩
        · rw [advanced_nominalPos, advanced_adjustedPos]
          omega
        · exact min_eq_left_iff.1 hc
    · refine ⟨s.adjustedPos, le_rfl, hlt.le, ?_, fun hc dst => ?_, fun hc => absurd hc hlt.ne⟩
      · rw [readFromBuffer_of_le hb.buffer hout, hnothing]
      · exact readFromFile_buffered hb hout (hup.imp_left fun h => le_antisymm h hout) hc W.minValue
  · refine ⟨s.adjustedPos, le_rfl, hlt.le, ?_, fun hc dst => ?_, fun hc => absurd hc hlt.ne⟩
    · rw [readFromBuffer_none hwait.buffer, hnothing]
    · exact readFromFile_waiting hwait hsafe hc

/-- The number of frames that a read of `size` bytes delivers. -/
def readCount (W : Track α) (size : ℕ) (s : Source α) : ℕ :=
  min (s.nominalPos + size / W.frameSize) W.numFrames - s.nominalPos

theorem read_of_zero {size : ℕ} (h : readCount W size s = 0) (minValue : ℕ) (dst : ℕ → α) :
    read W minValue size dst s = ((0, dst), s) := by
  have hskip : ¬ 0 < min (s.nominalPos + size / W.frameSize) W.numFrames - s.nominalPos :=
    not_lt.2 h.le
  have hzero : min (s.nominalPos + size / W.frameSize) W.numFrames - s.nominalPos = 0 := h
  simp only [read, if_neg hskip]
  rw [hzero, Nat.zero_mul]
  rfl

theorem read_of_pos {size : ℕ} (h : 0 < readCount W size s) (minValue : ℕ)
    {first : List FrameRange × (ℕ → α)} {r : List FrameRange × (ℕ → α) × Source α}
    (hfirst : readFromBuffer ⟨s.adjustedPos, s.adjustedPos + readCount W size s⟩ 0 dst s = first)
    (hr : readRanges W minValue s.adjustedPos first.1 first.2 s = r) :
    read W minValue size dst s =
      ((readCount W size s * W.frameSize, silence s.adjustedPos r.1 r.2.1),
        advanced (readCount W size s) r.2.2) := by
  subst hfirst hr
  have hgo : 0 < min (s.nominalPos + size / W.frameSize) W.numFrames - s.nominalPos := h
  simp only [read, if_pos hgo]
  rfl

/-- Too few blocks: nothing is read. -/
theorem read_lost (hs : Ok W s) {size : ℕ} (hpos : 0 < readCount W size s)
    (hfew : ¬ MoreBlocks W s) (dst : ℕ → α) :
    (read W W.minValue size dst s).1.2 = fillN (readCount W size s) 0 dst := by
  obtain ⟨hfade, hrest⟩ := not_or.1 hfew
  obtain ⟨hT, hblocks⟩ := not_or.1 hrest
  have hwait : Waiting W s := by
    rcases hs.place with ⟨k, b, hb, -⟩ | hwait
    · exact absurd hb.fadeIn hfade
    · exact hwait
  have hlt : s.adjustedPos < s.adjustedPos + readCount W size s := Nat.lt_add_of_pos_right hpos
  obtain ⟨s', hsearch⟩ :
      ∃ s', searchAndRetrieveBlock W W.minValue s.adjustedPos s = (none, s') := by
    rcases Nat.lt_or_ge W.blocks.length (s.cursor + s.fadeInBlocks) with hover | hle
    · obtain ⟨m, hm⟩ := discardBlocks_of_lt hwait.buffer hwait.cursor_le hover
      exact ⟨_, searchAndRetrieve_none (.inl hm)⟩
    · have hdiscard : discardFadeinBlock W s = (true, skipped s.fadeInBlocks s) :=
        discardBlocks_of_le hwait.buffer rfl hle
      have hend : W.blocks.length ≤ (skipped s.fadeInBlocks s).cursor := not_lt.1 hblocks
      exact ⟨_, searchAndRetrieve_none (.inr ⟨hdiscard, consumeBlock_of_le hwait.buffer hend⟩)⟩
  have hfile : readFromFile W W.minValue
      ⟨s.adjustedPos, s.adjustedPos + readCount W size s⟩ 0 dst s =
      (rest s.adjustedPos (s.adjustedPos + readCount W size s), dst, s') := by
    rw [readFromFile, hsearch]
    rfl
  have hranges : readRanges W W.minValue s.adjustedPos
      (rest s.adjustedPos (s.adjustedPos + readCount W size s)) dst s =
        (rest s.adjustedPos (s.adjustedPos + readCount W size s), dst, s') := by
    rw [rest_of_lt hlt]
    simp only [readRanges, Nat.sub_self, hfile, List.append_nil]
    rw [rest_of_lt hlt]
  rw [read_of_pos hpos W.minValue (readFromBuffer_none hwait.buffer) hranges]
  show silence s.adjustedPos (rest s.adjustedPos (s.adjustedPos + readCount W size s)) dst = _
  rw [rest_of_lt hlt]
  show fillN (s.adjustedPos + readCount W size s - s.adjustedPos) (s.adjustedPos - s.adjustedPos)
    dst = _
  rw [Nat.add_sub_cancel_left, Nat.sub_self]

/-- **Reading.**  The frames at the position of the source are delivered. -/
theorem read_spec (hs : Ok W s) (size : ℕ) (dst : ℕ → α)
    (hsafe : 0 < readCount W size s → MoreBlocks W s) :
    (read W W.minValue size dst s).1 = (readCount W size s * W.frameSize,
        delivered W s.adjustedPos (readCount W size s) 0 dst) ∧
      (read W W.minValue size dst s).2.nominalPos = s.nominalPos + readCount W size s ∧
      Ok W (read W W.minValue size dst s).2 := by
  have hle := hs.nominalPos_le
  have hn : s.nominalPos + readCount W size s ≤ W.numFrames := by
    unfold readCount
    omega
  rcases Nat.eq_zero_or_pos (readCount W size s) with h0 | hpos
  · rw [read_of_zero h0, h0, Nat.zero_mul, delivered_zero]
    exact ⟨rfl, rfl, hs⟩
  · obtain ⟨c, hc, hce, hfirst, hfile, hstay⟩ := hs.firstPass hpos hn (hsafe hpos) dst
    obtain ⟨r, hr, hsilence, hnominal, hok⟩ := readRanges_spec hs hc hce hn hfile hstay
    rw [read_of_pos hpos W.minValue hfirst hr, hsilence, advanced_nominalPos, hnominal]
    exact ⟨rfl, rfl, hok⟩

end

/-! ## Runs -/

section
variable {α : Type} [Zero α] (W : Track α)

/-- A seek to a frame, or a read into a client buffer. -/
inductive Call (α : Type) where
  | seek (frame : ℕ)
  | read (size : ℕ) (dst : ℕ → α)

/-- The position of a seek, or the count of bytes and the client buffer of a read. -/
inductive Answer (α : Type) where
  | pos (p : ℤ)
  | bytes (count : ℕ) (dst : ℕ → α)

/-- The only source of a process: the shared threshold is its own, and the
    reader sets its position. -/
def sourceStep (s : Source α) : Call α → Answer α × Source α
  | .seek frame =>
    (.pos (seek W W.minValue true (frame * W.frameSize) .beg s).1,
      (seek W W.minValue true (frame * W.frameSize) .beg s).2)
  | .read size dst =>
    (.bytes (read W W.minValue size dst s).1.1 (read W W.minValue size dst s).1.2,
      (read W W.minValue size dst s).2)

/-- What a stream of frames is for, at the position `q`: frame `i` of it is the
    decoded frame `i + readOffset`, or silence behind the last one. -/
def streamStep (q : ℕ) : Call α → Answer α × ℕ
  | .seek frame => (.pos (min frame W.numFrames * W.frameSize : ℕ), min frame W.numFrames)
  | .read size dst =>
    let count := min (size / W.frameSize) (W.numFrames - q)
    (.bytes (count * W.frameSize)
      (fun i => if i < count then W.frame (q + i + W.readOffset) else dst i), q + count)

/-- A read that delivers frames has more blocks than it discards. -/
def Searchable (s : Source α) : Call α → Prop
  | .seek _ => True
  | .read size _ => 0 < readCount W size s → MoreBlocks W s

/-- Offsets are 64 bit. -/
def Call.Fits : Call α → Prop
  | .seek frame => frame * W.frameSize < 2 ^ 63
  | .read _ _ => True

variable {W} {s : Source α}

theorem sourceStep_sim {q : ℕ} (hs : Ok W s) (hq : s.nominalPos = q) {call : Call α}
    (hfits : call.Fits W) (hsafe : Searchable W s call) :
    (sourceStep W s call).1 = (streamStep W q call).1 ∧
      Ok W (sourceStep W s call).2 ∧
      (sourceStep W s call).2.nominalPos = (streamStep W q call).2 := by
  subst hq
  cases call with
  | seek frame =>
    obtain ⟨hpos, hnominal, hok⟩ := seek_spec hs hfits
    exact ⟨congrArg Answer.pos hpos, hok, hnominal⟩
  | read size dst =>
    obtain ⟨hread, hnominal, hok⟩ := read_spec hs size dst hsafe
    have hcount : readCount W size s = min (size / W.frameSize) (W.numFrames - s.nominalPos) := by
      have hle := hs.nominalPos_le
      unfold readCount
      generalize size / W.frameSize = r
      omega
    rw [hcount] at hread hnominal
    refine ⟨?_, hok, hnominal⟩
    simp only [sourceStep, streamStep, hread, Answer.bytes.injEq, true_and]
    funext i
    simp only [delivered, hs.adjustedPos, Nat.zero_le, true_and, Nat.zero_add, Nat.sub_zero,
      Nat.add_right_comm _ W.readOffset i]

/-- **The right frames.**  A source whose reads have more blocks than they
    discard answers seeks and reads as a stream of the frames behind its offset. -/
theorem reads_right {calls : List (Call α)} (hfits : ∀ call ∈ calls, call.Fits W)
    (hsafe : Along (sourceStep W) (Searchable W) (opened W) calls) :
    run (sourceStep W) (opened W) calls = run (streamStep W) 0 calls := by
  refine run_eq_of_sim (fun s q => Ok W s ∧ s.nominalPos = q) ?_ ⟨ok_opened, rfl⟩
    ((along_of_forall hfits _).and hsafe)
  rintro s q call ⟨hs, hq⟩ ⟨hfits, hsafe⟩
  exact sourceStep_sim hs hq hfits hsafe

/-! ### Small blocks -/

section
omit [Zero α]

/-- Blocks of at most 1024 frames leave one behind the two that are discarded. -/
theorem moreBlocks_of_le (hsmall : ∀ b ∈ W.blocks, b.length ≤ defaultBlockSize) (hs : Ok W s) :
    MoreBlocks W s := by
  rcases hs.place with ⟨k, b, hb, -⟩ | hwait
  · exact .inl hb.fadeIn
  · rcases hwait.place with ⟨hnone, -⟩ | ⟨hfade, hfar, hcursor⟩ | ⟨-, hend⟩
    · exact .inl hnone
    · rcases Nat.lt_or_ge s.adjustedPos W.blocks.flatten.length with hlt | hend
      · refine .inr (.inr ?_)
        have hroom : fadeInFrames ≤ s.adjustedPos := (Nat.le_add_right _ _).trans hfar
        have hstart := start_blockAt_le W.blocks (s.adjustedPos - fadeInFrames)
        rw [← hcursor] at hstart
        have hnear : start W.blocks (s.cursor + maxFadeInBlocks) ≤ s.adjustedPos :=
          calc start W.blocks (s.cursor + maxFadeInBlocks)
              ≤ start W.blocks s.cursor + maxFadeInBlocks * defaultBlockSize :=
                start_add_le hsmall _ _
            _ ≤ s.adjustedPos - fadeInFrames + fadeInFrames := Nat.add_le_add_right hstart _
            _ = s.adjustedPos := Nat.sub_add_cancel hroom
        rw [hfade]
        by_contra hover
        rw [start_of_length_le (not_lt.1 hover)] at hnear
        exact absurd hlt (not_lt.2 hnear)
      · exact .inr (.inl hend)
    · exact .inr (.inl hend)

theorem searchable_of_le (hsmall : ∀ b ∈ W.blocks, b.length ≤ defaultBlockSize) (hs : Ok W s)
    (call : Call α) : Searchable W s call := by
  cases call with
  | seek frame => trivial
  | read size dst =>
    intro _
    exact moreBlocks_of_le hsmall hs

end

/-- Then no call of a run meets too few blocks. -/
theorem along_of_le (hsmall : ∀ b ∈ W.blocks, b.length ≤ defaultBlockSize) {calls : List (Call α)}
    (hfits : ∀ call ∈ calls, call.Fits W) :
    Along (sourceStep W) (Searchable W) (opened W) calls := by
  refine along_of_inv (Ok W) ?_ ?_ ok_opened (along_of_forall hfits _)
  · intro s call hs hfits
    exact (sourceStep_sim hs rfl hfits (searchable_of_le hsmall hs call)).2.1
  · intro s call hs _
    exact searchable_of_le hsmall hs call

theorem reads_right_of_le (hsmall : ∀ b ∈ W.blocks, b.length ≤ defaultBlockSize)
    {calls : List (Call α)} (hfits : ∀ call ∈ calls, call.Fits W) :
    run (sourceStep W) (opened W) calls = run (streamStep W) 0 calls :=
  reads_right hfits (along_of_le hsmall hfits)

/-! ### Missed frames -/

/-- A read that finds the first of its frames, if it is not silent, has more
    blocks than it discards. -/
theorem searchable_of_right (hloud : ∀ x ∈ W.blocks.flatten, x ≠ 0) (hs : Ok W s) {call : Call α}
    (h : (sourceStep W s call).1 = (streamStep W s.nominalPos call).1) : Searchable W s call := by
  cases call with
  | seek frame => trivial
  | read size dst =>
    intro hpos
    by_contra hfew
    obtain ⟨-, hrest⟩ := not_or.1 hfew
    have hT := not_le.1 (not_or.1 hrest).1
    have hlost := read_lost hs hpos hfew dst
    have hbytes := congrFun (Answer.bytes.inj h).2 0
    have hcount : 0 < min (size / W.frameSize) (W.numFrames - s.nominalPos) := by
      unfold readCount at hpos
      omega
    have hzero : W.frame s.adjustedPos = 0 := by
      rw [hlost, fillN, if_pos ⟨le_rfl, by omega⟩, if_pos hcount, Nat.add_zero,
        ← hs.adjustedPos] at hbytes
      exact hbytes.symm
    rw [Track.frame, List.getD_eq_getElem _ _ hT] at hzero
    exact hloud _ (List.getElem_mem hT) hzero

/-- The frame behind a seek is not found if the two discarded blocks are the
    last ones. -/
theorem wrong_behind_seek (hloud : ∀ x ∈ W.blocks.flatten, x ≠ 0) {q : ℕ} (hq : q < W.numFrames)
    (hfar : W.minValue ≤ q + W.readOffset) (hT : q + W.readOffset < W.blocks.flatten.length)
    (hfew : W.blocks.length ≤
      blockAt W.blocks (q + W.readOffset - fadeInFrames) + maxFadeInBlocks) (dst : ℕ → α) :
    run (sourceStep W) (opened W) [.seek q, .read W.frameSize dst] ≠
      run (streamStep W) 0 [.seek q, .read W.frameSize dst] := by
  intro h
  have hfits : q * W.frameSize < 2 ^ 63 := (Nat.mul_le_mul_right _ hq.le).trans_lt W.fits
  have hmin : min q W.numFrames = q := min_eq_left hq.le
  have hne : (opened W).nominalPos ≠ min q W.numFrames := by
    rw [hmin]
    show 0 ≠ q
    unfold Track.minValue fadeInFrames maxFadeInBlocks defaultBlockSize at hfar
    omega
  have hseek : (sourceStep W (opened W) (.seek q)).2 = sought W q := by
    simp only [sourceStep, seek_of_ne hfits hne, hmin]
  have hanswer : (sourceStep W (sought W q) (.read W.frameSize dst)).1 =
      (streamStep W q (.read W.frameSize dst)).1 := by
    have hread := (List.cons.inj (List.cons.inj h).2).1
    rw [hseek] at hread
    have hpos : (streamStep W 0 (Call.seek q : Call α)).2 = q := hmin
    rwa [hpos] at hread
  have hcount : 0 < readCount W W.frameSize (sought W q) := by
    have hone : W.frameSize / W.frameSize = 1 := Nat.div_self W.frameSize_pos
    have hnominal : (sought W q).nominalPos = q := rfl
    unfold readCount
    omega
  have hfade : fadeIn W.minValue W.readOffset (q + W.readOffset) =
      (q + W.readOffset - fadeInFrames, maxFadeInBlocks) := if_pos hfar
  rcases searchable_of_right hloud (ok_sought hq.le) hanswer hcount with h0 | hend | hmore
  · rw [sought, hfade] at h0
    exact absurd (show maxFadeInBlocks = 0 from h0) (by decide)
  · exact absurd hT (not_lt.2 hend)
  · rw [sought, hfade] at hmore
    exact absurd hmore (not_lt.2 hfew)

end

/-- A track of `count` blocks of `size` frames, all 1, of 4 bytes. -/
def constant (count size : ℕ) (hsize : 0 < size) (hfits : count * size * 4 < 2 ^ 63) : Track ℕ where
  blocks := List.replicate count (List.replicate size 1)
  numFrames := count * size
  readOffset := 0
  frameSize := 4
  blocks_ne_nil b hb h := by
    rw [List.eq_of_mem_replicate hb, List.replicate_eq_nil_iff] at h
    exact hsize.ne' h
  frameSize_pos := Nat.succ_pos 3
  fits := hfits

section
variable {count size : ℕ} {hsize : 0 < size} {hfits : count * size * 4 < 2 ^ 63}

theorem constant_blocks_length : (constant count size hsize hfits).blocks.length = count :=
  List.length_replicate

theorem constant_length :
    (constant count size hsize hfits).blocks.flatten.length = count * size := by
  simp [constant]

theorem constant_blockAt (t : ℕ) :
    blockAt (constant count size hsize hfits).blocks t = min (t / size) count := by
  have hlen : (List.replicate size 1).length = size := List.length_replicate
  rw [constant, blockAt_replicate (hsize.trans_eq hlen.symm), hlen]

theorem constant_loud : ∀ x ∈ (constant count size hsize hfits).blocks.flatten, x ≠ 0 := by
  intro x hx
  obtain ⟨b, hb, hx⟩ := List.mem_flatten.1 hx
  rw [List.eq_of_mem_replicate hb] at hx
  rw [List.eq_of_mem_replicate hx]
  exact one_ne_zero

end

/-- **When the right frames are read.**  Seeks and reads are answered as by a
    stream of the frames behind the offset if all reads have more blocks than
    they discard, and, unless frames of the track are silent, only if. -/
theorem reads_right_iff {α : Type} [Zero α] (W : Track α) (calls : List (Call α))
    (hfits : ∀ call ∈ calls, call.Fits W) :
    (Along (sourceStep W) (Searchable W) (opened W) calls →
      run (sourceStep W) (opened W) calls = run (streamStep W) 0 calls) ∧
    ((∀ x ∈ W.blocks.flatten, x ≠ 0) →
      run (sourceStep W) (opened W) calls = run (streamStep W) 0 calls →
      Along (sourceStep W) (Searchable W) (opened W) calls) := by
  refine ⟨reads_right hfits, fun hloud => ?_⟩
  refine along_of_run_eq (fun s q => Ok W s ∧ s.nominalPos = q) ?_ ?_ ⟨ok_opened, rfl⟩ hfits
  · rintro s q call ⟨hs, rfl⟩ - hanswer
    exact searchable_of_right hloud hs hanswer
  · rintro s q call ⟨hs, hq⟩ hfits hsafe
    exact (sourceStep_sim hs hq hfits hsafe).2

/-- AAC, whose blocks are 1024 frames. -/
theorem reads_right_iff_aac :
    ∃ W : Track ℕ, (∀ b ∈ W.blocks, b.length = 1024) ∧
      run (sourceStep W) (opened W) [.seek 5000, .read 4096 (fun _ => 7), .seek 100] =
        run (streamStep W) 0 [.seek 5000, .read 4096 (fun _ => 7), .seek 100] := by
  refine ⟨constant 10 1024 (by decide) (by decide), fun b hb => ?_, ?_⟩
  · rw [List.eq_of_mem_replicate hb, List.length_replicate]
  · have hfits : ∀ call ∈ [Call.seek 5000, .read 4096 (fun _ => 7), .seek 100],
        call.Fits (constant 10 1024 (by decide) (by decide)) := by
      intro call hcall
      simp only [List.mem_cons, List.not_mem_nil, or_false] at hcall
      rcases hcall with rfl | rfl | rfl
      · show 5000 * 4 < 2 ^ 63
        decide
      · trivial
      · show 100 * 4 < 2 ^ 63
        decide
    refine (reads_right_iff _ _ hfits).1 (along_of_le (fun b hb => ?_) hfits)
    rw [List.eq_of_mem_replicate hb, List.length_replicate]
    exact le_rfl

/-- MP3, whose blocks are 1152 frames: from frame 3300 on, two of three blocks
    are discarded, and the search starts behind the end. -/
theorem mp3_wrong :
    ¬ ∀ (W : Track ℕ) (calls : List (Call ℕ)), (∀ call ∈ calls, call.Fits W) →
      run (sourceStep W) (opened W) calls = run (streamStep W) 0 calls := by
  intro h
  have hfits : ∀ call ∈ [Call.seek 3300, .read 4 (fun _ => 7)],
      call.Fits (constant 3 1152 (by decide) (by decide)) := by
    intro call hcall
    simp only [List.mem_cons, List.not_mem_nil, or_false] at hcall
    rcases hcall with rfl | rfl
    · show 3300 * 4 < 2 ^ 63
      decide
    · trivial
  refine wrong_behind_seek constant_loud ?_ ?_ ?_ ?_ (fun _ => 7) (h _ _ hfits)
  · show 3300 < 3 * 1152
    decide
  · show fadeInFrames + 0 ≤ 3300 + 0
    decide
  · rw [constant_length]
    decide
  · rw [constant_blocks_length, constant_blockAt]
    decide

end MediaFoundation

end NiMedia
