/-
  The source over a WMF source reader (`audio/os/win/media_foundation_source.h`).

  WMF is a parameter: a `Track` is the decoded stream, cut into the blocks that
  `ReadSample` returns, with exact timestamps and durations, so that times are
  frames throughout.  `SetCurrentPosition` puts the cursor on the block that
  holds a frame, or behind the last one.

  A client buffer is the memory behind its pointer, by frames: `dst i` is frame
  `i`.

  * `seekHonoured_iff`: the seeks by whole frames that come to the frame asked
    for.
-/
import NiMedia.Lib.Blocks
import NiMedia.Os.FrameSeek
import Mathlib.Algebra.Notation.Defs

namespace NiMedia

open Words Blocks

namespace MediaFoundation

/-! ## Ranges of frames -/

/-- `right_open_interval`. -/
structure FrameRange where
  lower : ℕ
  upper : ℕ
  deriving DecidableEq, Repr

namespace FrameRange

def Contains (r : FrameRange) (t : ℕ) : Prop := r.lower ≤ t ∧ t < r.upper

instance (r : FrameRange) (t : ℕ) : Decidable (r.Contains t) := inferInstanceAs (Decidable (_ ∧ _))

def inter (r r' : FrameRange) : FrameRange := ⟨max r.lower r'.lower, min r.upper r'.upper⟩

/-- The range as an interval set: an empty range adds nothing. -/
def toSet (r : FrameRange) : List FrameRange := if r.lower < r.upper then [r] else []

/-- What remains of a range without a part of it. -/
def without (r i : FrameRange) : List FrameRange :=
  toSet ⟨r.lower, i.lower⟩ ++ toSet ⟨i.upper, r.upper⟩

end FrameRange

/-! ## The source -/

/-- A track as WMF decodes it.  Its positions are `std::streamoff`s. -/
structure Track (α : Type) where
  blocks : List (List α)
  numFrames : ℕ
  readOffset : ℕ
  frameSize : ℕ
  blocks_ne_nil : ∀ b ∈ blocks, b ≠ []
  frameSize_pos : 0 < frameSize
  fits : numFrames * frameSize < 2 ^ 63

/-- `MfBlock`, and `MfBuffer`: the frames from `lower` on. -/
structure MfBlock (α : Type) where
  lower : ℕ
  data : List α

def MfBlock.range {α : Type} (b : MfBlock α) : FrameRange := ⟨b.lower, b.lower + b.data.length⟩

/-- `media_foundation_source`; `cursor` is the block that the reader returns next. -/
structure Source (α : Type) where
  buffer : Option (MfBlock α)
  cursor : ℕ
  nominalPos : ℕ
  adjustedPos : ℕ
  fadeInBlocks : ℕ

/-- `s_defaultBlockSize`. -/
def defaultBlockSize : ℕ := 1024

/-- `fadeInBlocks` and `fadeInFrames` of `seekInternal`. -/
def maxFadeInBlocks : ℕ := 2

def fadeInFrames : ℕ := maxFadeInBlocks * defaultBlockSize

/-- The position that is set for a seek to `adjustedPos`, and the number of
    blocks to discard there. -/
def fadeIn (minValue readOffset adjustedPos : ℕ) : ℕ × ℕ :=
  if minValue ≤ adjustedPos then (adjustedPos - fadeInFrames, maxFadeInBlocks)
  else (readOffset, 0)

section
variable {α : Type} (W : Track α)

/-- The threshold of `seekInternal` if this source is the first one to seek: it
    is a static variable, that all sources share. -/
def Track.minValue : ℕ := fadeInFrames + W.readOffset

/-- A source that has been constructed. -/
def opened : Source α where
  buffer := none
  cursor := if W.readOffset ≠ 0 then blockAt W.blocks W.readOffset else 0
  nominalPos := 0
  adjustedPos := W.readOffset
  fadeInBlocks := 0

/-- `seekInternal`, where `ok` tells whether the reader sets its position. -/
def seekInternal (minValue : ℕ) (ok : Bool) (adjustedPos : ℕ) (s : Source α) : Bool × Source α :=
  let (pos, blocks) := fadeIn minValue W.readOffset adjustedPos
  if ok then
    (true, { s with cursor := blockAt W.blocks pos, buffer := none, fadeInBlocks := blocks })
  else (false, s)

/-- The nominal position to which `seek` is to go. -/
def seekNominal (off : ℤ) (way : SeekDir) (s : Source α) : ℕ :=
  (absolutePosition s.nominalPos 0 W.numFrames (frameOffset off W.frameSize) way).toNat

def seek (minValue : ℕ) (ok : Bool) (off : ℤ) (way : SeekDir) (s : Source α) : ℤ × Source α :=
  let nominalPos := seekNominal W off way s
  let adjustedPos := nominalPos + W.readOffset
  let (moved, s) :=
    if s.nominalPos ≠ nominalPos then seekInternal W minValue ok adjustedPos s else (false, s)
  let s := if moved then { s with nominalPos := nominalPos, adjustedPos := adjustedPos } else s
  (wrap 64 (s.nominalPos * W.frameSize), s)

/-! ### Blocks -/

/-- A block starts where the buffered one ends, or at its timestamp. -/
def consumeBlock (s : Source α) : Option (MfBlock α) × Source α :=
  match W.blocks[s.cursor]? with
  | none => (none, s)
  | some data =>
    let beg := match s.buffer with
      | some b => b.range.upper
      | none => start W.blocks s.cursor
    (some ⟨beg, data⟩, { s with cursor := s.cursor + 1 })

/-- The loop of `discardFadeinBlock`, over `m_fadeInBlocks`. -/
def discardBlocks : ℕ → Source α → Bool × Source α
  | 0, s => (true, s)
  | n + 1, s => match consumeBlock W s with
    | (none, s) => (false, s)
    | (some _, s) => discardBlocks n { s with fadeInBlocks := n }

def discardFadeinBlock (s : Source α) : Bool × Source α := discardBlocks W s.fadeInBlocks s

theorem consumeBlock_decreases {s s' : Source α} {b : MfBlock α}
    (h : consumeBlock W s = (some b, s')) :
    W.blocks.length - s'.cursor < W.blocks.length - s.cursor := by
  cases hb : W.blocks[s.cursor]? with
  | none =>
    rw [consumeBlock, hb] at h
    cases h
  | some data =>
    have hlt := (List.getElem?_eq_some_iff.1 hb).1
    simp only [consumeBlock, hb] at h
    cases h
    show W.blocks.length - (s.cursor + 1) < _
    omega

def searchForwardAndRetrieveBlock (target : ℕ) (s : Source α) : Option (MfBlock α) × Source α :=
  match _h : consumeBlock W s with
  | (none, s') => (none, s')
  | (some b, s') =>
    if b.range.Contains target then (some b, s') else searchForwardAndRetrieveBlock target s'
termination_by W.blocks.length - s.cursor
decreasing_by exact consumeBlock_decreases W _h

def correctedTarget (target backstep : ℕ) : ℕ :=
  if W.readOffset + backstep ≤ target then target - backstep else W.readOffset

/-- The reader sets its position here. -/
def searchBackwardAndRetrieveBlock (minValue target backstep : ℕ) (s : Source α) :
    Option (MfBlock α) × Source α :=
  let (moved, s) := seekInternal W minValue true (correctedTarget W target backstep) s
  if moved then
    let (discarded, s) := discardFadeinBlock W s
    if discarded then
      match consumeBlock W s with
      | (none, s) => (none, s)
      | (some b, s) =>
        if b.range.Contains target then (some b, s)
        else if b.range.upper ≤ target then searchForwardAndRetrieveBlock W target s
        else if _h : W.readOffset < correctedTarget W target backstep then
          searchBackwardAndRetrieveBlock minValue target (backstep + 2 * defaultBlockSize) s
        else (none, s)
    else (none, s)
  else (none, s)
termination_by target - (W.readOffset + backstep)
decreasing_by
  unfold correctedTarget at _h
  split_ifs at _h
  · unfold defaultBlockSize
    omega
  · omega

def searchAndRetrieveBlock (minValue target : ℕ) (s : Source α) : Option (MfBlock α) × Source α :=
  let (discarded, s) := discardFadeinBlock W s
  if discarded then
    match consumeBlock W s with
    | (none, s) => (none, s)
    | (some b, s) =>
      if b.range.Contains target then (some b, s)
      else if b.range.upper ≤ target then searchForwardAndRetrieveBlock W target s
      else searchBackwardAndRetrieveBlock W minValue target 0 s
  else (none, s)

end

/-! ### Seeking -/

section
variable {α : Type} {W : Track α} {s : Source α} {minValue : ℕ} {off : ℤ} {way : SeekDir}

theorem seek_nominalPos :
    (seek W minValue true off way s).2.nominalPos = seekNominal W off way s := by
  by_cases h : s.nominalPos = seekNominal W off way s
  · simp [seek, h]
  · simp [seek, h, seekInternal]

theorem seek_result :
    (seek W minValue true off way s).1 = wrap 64 (seekNominal W off way s * W.frameSize) := by
  by_cases h : s.nominalPos = seekNominal W off way s
  · simp [seek, h]
  · simp [seek, h, seekInternal]

theorem seekNominal_cast :
    (seekNominal W off way s : ℤ) =
      absolutePosition s.nominalPos 0 W.numFrames (frameOffset off W.frameSize) way :=
  Int.toNat_of_nonneg (le_absolutePosition (Int.natCast_nonneg _))

theorem seekNominal_le : seekNominal W off way s ≤ W.numFrames := by
  have hle : (seekNominal W off way s : ℤ) ≤ W.numFrames := by
    rw [seekNominal_cast]
    exact absolutePosition_le (Int.natCast_nonneg _)
  omega

/-- The position that is returned does not overflow. -/
theorem wrap_seekNominal :
    wrap 64 (seekNominal W off way s * W.frameSize) = seekNominal W off way s * W.frameSize := by
  have hmul : seekNominal W off way s * W.frameSize ≤ W.numFrames * W.frameSize :=
    Nat.mul_le_mul_right _ seekNominal_le
  have hfits := W.fits
  have hcast : (seekNominal W off way s * W.frameSize : ℤ) =
    (seekNominal W off way s * W.frameSize : ℕ) := by push_cast; rfl
  rw [hcast]
  exact (wrap_natCast 63 _).2.2 (by omega)

variable (W s) (off way)

/-- The frame that a seek by `off` bytes is to come to. -/
def seekTarget : ℤ :=
  clamp (seekBase s.nominalPos 0 W.numFrames way + off / W.frameSize) 0 W.numFrames

/-- The seek comes to this frame, and returns its position. -/
def SeekHonoured (minValue : ℕ) : Prop :=
  (seek W minValue true off way s).2.nominalPos = seekTarget W s off way ∧
    (seek W minValue true off way s).1 = seekTarget W s off way * W.frameSize

variable {W s} {off way}

theorem seekHonoured_iff_nominal :
    SeekHonoured W s off way minValue ↔ (seekNominal W off way s : ℤ) = seekTarget W s off way := by
  rw [SeekHonoured, seek_nominalPos, seek_result, wrap_seekNominal]
  constructor
  · rintro ⟨hpos, -⟩
    exact hpos
  · intro hpos
    exact ⟨hpos, by rw [hpos]⟩

/-- **Seeks backwards.**  A seek by whole frames is honoured iff it goes
    forwards, without overflow, or frames are of one byte, or it goes back to
    the first frame by frames of two bytes, or there are no frames. -/
theorem seekHonoured_iff (hpos : s.nominalPos ≤ W.numFrames) (hdvd : (W.frameSize : ℤ) ∣ off)
    (hoff : -2 ^ 63 ≤ off) (hoff' : off < 2 ^ 63) :
    SeekHonoured W s off way minValue ↔
      0 ≤ off ∧ seekBase s.nominalPos 0 W.numFrames way + off / W.frameSize < 2 ^ 63 ∨
        off < 0 ∧ (W.frameSize = 1 ∨ W.frameSize = 2 ∧
          seekBase s.nominalPos 0 W.numFrames way + off / W.frameSize = 0 ∨ W.numFrames = 0) := by
  have hfz : (0 : ℤ) < W.frameSize := by exact_mod_cast W.frameSize_pos
  have hfits : (W.numFrames * W.frameSize : ℤ) < 2 ^ 63 := by exact_mod_cast W.fits
  obtain ⟨k, rfl⟩ := hdvd
  rw [Int.mul_comm] at hoff hoff' ⊢
  have hsign : 0 ≤ k * W.frameSize ↔ 0 ≤ k := mul_nonneg_iff_of_pos_right hfz
  rw [seekHonoured_iff_nominal, seekNominal_cast, seekTarget, Int.mul_ediv_cancel _ hfz.ne',
    frameSeek_clamp_iff W.frameSize_pos hfits (Int.natCast_nonneg _) (by exact_mod_cast hpos) hoff
      hoff']
  omega

end

/-- A stereo track of 24 bit samples. -/
def stereoTrack : Track ℕ where
  blocks := [[1, 2, 3, 4]]
  numFrames := 4
  readOffset := 0
  frameSize := 6
  blocks_ne_nil := by decide
  frameSize_pos := Nat.succ_pos 5
  fits := by decide

theorem seekHonoured_stereo :
    SeekHonoured stereoTrack (opened stereoTrack) 12 .cur (stereoTrack.minValue) :=
  (seekHonoured_iff (by decide) (by decide) (by decide) (by decide)).2
    (.inl ⟨by decide, by decide⟩)

/-- From the third frame, a seek back by one frame comes to the end. -/
theorem stereo_back_not_honoured :
    ¬ SeekHonoured stereoTrack (seek stereoTrack stereoTrack.minValue true 12 .beg
      (opened stereoTrack)).2 (-6) .cur stereoTrack.minValue := by
  rw [seekHonoured_iff_nominal]
  decide +kernel

/-! ### Reading -/

section
variable {α : Type} [Zero α] (W : Track α)

/-- `std::copy_n`, from frame `j` of `data` to frame `at_` of `dst`. -/
def copyN (data : List α) (j n at_ : ℕ) (dst : ℕ → α) : ℕ → α :=
  fun i => if at_ ≤ i ∧ i < at_ + n then data.getD (j + (i - at_)) 0 else dst i

/-- `std::fill_n` with zero bytes. -/
def fillN (n at_ : ℕ) (dst : ℕ → α) : ℕ → α :=
  fun i => if at_ ≤ i ∧ i < at_ + n then 0 else dst i

/-- `readFromBuffer` to frame `at_` of `dst`: the frames that remain, and the buffer. -/
def readFromBuffer (range : FrameRange) (at_ : ℕ) (dst : ℕ → α) (s : Source α) :
    List FrameRange × (ℕ → α) :=
  match s.buffer with
  | none => (range.toSet, dst)
  | some b =>
    let intersection := range.inter b.range
    if intersection.lower < intersection.upper then
      (range.without intersection,
        copyN b.data (intersection.lower - b.range.lower) (intersection.upper - intersection.lower)
          (at_ + (intersection.lower - range.lower)) dst)
    else (range.toSet, dst)

/-- The loop of `readFromFile`.  There is a buffer, and frames remain, as long
    as the loop goes on. -/
def fillRange (range : FrameRange) (at_ : ℕ) (remaining : List FrameRange) (dst : ℕ → α)
    (s : Source α) : List FrameRange × (ℕ → α) × Source α :=
  match s.buffer, remaining with
  | some b, first :: rest =>
    if b.range.Contains (range.upper - 1) then (first :: rest, dst, s)
    else
      match _h : consumeBlock W s with
      | (none, s') => (first :: rest, dst, s')
      | (some b', s') =>
        let s' := { s' with buffer := some b' }
        let (remaining, dst) := readFromBuffer first (at_ + (first.lower - range.lower)) dst s'
        fillRange range at_ remaining dst s'
  | _, _ => (remaining, dst, s)
termination_by W.blocks.length - s.cursor
decreasing_by exact consumeBlock_decreases W _h

def readFromFile (minValue : ℕ) (range : FrameRange) (at_ : ℕ) (dst : ℕ → α) (s : Source α) :
    List FrameRange × (ℕ → α) × Source α :=
  match searchAndRetrieveBlock W minValue range.lower s with
  | (none, s) => (range.toSet, dst, s)
  | (some b, s) =>
    let s := { s with buffer := some b }
    let (remaining, dst) := readFromBuffer range at_ dst s
    fillRange W range at_ remaining dst s

/-- The second pass of `read`, over what the buffer leaves. -/
def readRanges (minValue lower : ℕ) :
    List FrameRange → (ℕ → α) → Source α → List FrameRange × (ℕ → α) × Source α
  | [], dst, s => ([], dst, s)
  | range :: ranges, dst, s =>
    let (remaining, dst, s) := readFromFile W minValue range (range.lower - lower) dst s
    let (remaining', dst, s) := readRanges minValue lower ranges dst s
    (remaining ++ remaining', dst, s)

/-- What no pass could read is silence. -/
def silence (lower : ℕ) (remaining : List FrameRange) (dst : ℕ → α) : ℕ → α :=
  remaining.foldl (fun dst r => fillN (r.upper - r.lower) (r.lower - lower) dst) dst

/-- `read`: the count of bytes, and the client buffer.  The nominal position
    does not exceed the number of frames. -/
def read (minValue size : ℕ) (dst : ℕ → α) (s : Source α) : (ℕ × (ℕ → α)) × Source α :=
  let endPos := min (s.nominalPos + size / W.frameSize) W.numFrames
  let numFrames := endPos - s.nominalPos
  let (dst, s) :=
    if 0 < numFrames then
      let toFill : FrameRange := ⟨s.adjustedPos, s.adjustedPos + numFrames⟩
      let (remaining, dst) := readFromBuffer toFill 0 dst s
      let (remaining, dst, s) := readRanges W minValue toFill.lower remaining dst s
      (silence toFill.lower remaining dst, s)
    else (dst, s)
  ((numFrames * W.frameSize, dst), { s with
    nominalPos := s.nominalPos + numFrames
    adjustedPos := s.adjustedPos + numFrames })

end

end MediaFoundation

end NiMedia
