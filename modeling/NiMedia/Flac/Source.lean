/-
  The FLAC source (`audio/flac/flac_source.h`): `read` and `seek` over a buffer
  that the write callback of the decoder fills.

  libFLAC is a parameter: a `Decoder` is the functions that the source calls,
  together with the frame that each of them hands to the write callback.
-/
import NiMedia.Audio.StreamInfo
import NiMedia.Iostreams.Device
import NiMedia.Lib.Loop

namespace NiMedia

open Bytes Words Loop

namespace Flac

/-! ## The decoder -/

/-- `FLAC__StreamDecoderState`. -/
inductive DecoderState where
  | searchForMetadata
  | readMetadata
  | searchForFrameSync
  | readFrame
  | endOfStream
  | oggError
  | seekError
  | aborted
  | memoryAllocationError
  | uninitialized
  deriving DecidableEq, Repr

/-- `FLAC__Frame` and the samples handed over with it: `buffer[channel][u]`. -/
structure Frame where
  blocksize : ℕ
  buffer : ℕ → ℕ → BitVec 32
  blocksize_pos : 0 < blocksize

/-- The calls into libFLAC.  `processSingle` and `seekAbsolute` return their
    flag, and hand at most one frame to the write callback. -/
structure Decoder (δ : Type) where
  processSingle : δ → Bool × Option Frame × δ
  seekAbsolute : ℕ → δ → Bool × Option Frame × δ
  getState : δ → DecoderState

/-! ## The source -/

/-- The stream info that the metadata callback lets through. -/
structure Info extends StreamInfo where
  numFrames : ℕ
  numFrames_pos : 0 < numFrames
  numChannels_pos : 1 ≤ numChannels
  numChannels_le : numChannels ≤ 8

namespace Info

variable (info : Info)

def numBytes : ℕ := sizeT (sizeT (info.numFrames * info.numChannels) * info.bytesPerSample)

theorem bytesPerFrame_eq : info.bytesPerFrame = info.bytesPerSample * info.numChannels :=
  info.bytesPerFrame_of_le (info.numChannels_le.trans (by decide))

theorem bytesPerFrame_pos : 0 < info.bytesPerFrame := by
  rw [info.bytesPerFrame_eq]
  exact Nat.mul_pos info.bytesPerSample_pos info.numChannels_pos

end Info

/-- `flac_source`; `pos` is `m_pos`. -/
structure Source (δ : Type) where
  buffer : List UInt8
  bufferOffset : ℕ
  audioBlockAvailable : Bool
  pos : ℤ
  decoder : δ

/-- A source behind its metadata. -/
def opened {δ : Type} (d : δ) : Source δ := ⟨[], 0, false, 0, d⟩

section
variable {δ : Type} (info : Info)

/-- Byte `b` of a sample. -/
def sampleByte (sample : BitVec 32) (b : ℕ) : UInt8 :=
  UInt8.ofNat (sample.sshiftRight (8 * b) &&& 0xFF#32).toNat

/-- The samples of a frame, interleaved. -/
def blockBytes (frame : Frame) : List UInt8 :=
  (List.range frame.blocksize).flatMap fun u =>
    (List.range info.numChannels).flatMap fun channel =>
      (List.range info.bytesPerSample).map (sampleByte (frame.buffer channel u))

/-- The buffer is resized and overwritten; its offset stays. -/
def writeCallbackImpl (frame : Frame) (s : Source δ) : Source δ :=
  { s with
    buffer := blockBytes info frame
    audioBlockAvailable := true }

/-- The source after a call of the decoder. -/
def afterCall (frame : Option Frame) (d : δ) (s : Source δ) : Source δ :=
  match frame with
  | none => { s with decoder := d }
  | some frame => { writeCallbackImpl info frame s with decoder := d }

variable (D : Decoder δ)

def samplesAvailable (s : Source δ) : Bool × Source δ :=
  if s.audioBlockAvailable then (true, s)
  else
    let (ret, frame, d) := D.processSingle s.decoder
    (ret && decide (D.getState d ≠ .endOfStream), afterCall info frame d s)

/-- The copied bytes are consumed: a block that is used up is not available any more. -/
def consume (n : ℕ) (s : Source δ) : Source δ :=
  if s.bufferOffset + n = s.buffer.length then
    { s with bufferOffset := 0, audioBlockAvailable := false }
  else { s with bufferOffset := s.bufferOffset + n }

/-- One pass of the loop of `read`; `out` is what was delivered before.  With an
    offset behind the end of the buffer the count of bytes to copy wraps around:
    what a copy from there does is undefined. -/
def readPass (requested : ℕ) :
    Source δ × List UInt8 → Next (Source δ × List UInt8) (Option (List UInt8 × Source δ))
  | (s, out) =>
    let stop (s : Source δ) : Next (Source δ × List UInt8) (Option (List UInt8 × Source δ)) :=
      .done (some (out, { s with pos := wrap 64 (s.pos + out.length) }))
    if out.length < requested then
      let (available, s) := samplesAvailable info D s
      if available then
        if s.buffer.length < s.bufferOffset then .done none
        else
          let toCopy := min (s.buffer.length - s.bufferOffset) (requested - out.length)
          .again (consume toCopy s, out ++ slice s.buffer s.bufferOffset toCopy)
      else stop s
    else stop s

/-- `read`, with fuel for the loop. -/
def read (fuel n : ℕ) (s : Source δ) : Option (Option (List UInt8 × Source δ)) :=
  iterate (readPass info D n) fuel (s, [])

/-- `seek`: the frame at the new position is handed over by the decoder. -/
def seek (off : ℤ) (way : SeekDir) (s : Source δ) : ℤ × Source δ :=
  let pos := absolutePosition s.pos 0 info.numBytes off way
  let framePos := pos.toNat / info.bytesPerFrame
  let byteOffset := pos.toNat % info.bytesPerFrame
  let (ok, frame, d) := D.seekAbsolute framePos s.decoder
  let s := afterCall info frame d s
  if ok then (pos, { s with pos := pos, bufferOffset := byteOffset }) else (s.pos, s)

/-- Reads one after the other, that return. -/
inductive Reads : Source δ → List ℕ → List (List UInt8) → Source δ → Prop
  | nil {s} : Reads s [] [] s
  | cons {s s' s'' n ns out outs} : Returns (readPass info D n) (s, []) (some (out, s')) →
      Reads s' ns outs s'' → Reads s (n :: ns) (out :: outs) s''

end

/-! ## Passes of a read -/

/-- What is left of an available block. -/
def Source.waiting {δ : Type} (s : Source δ) : List UInt8 :=
  if s.audioBlockAvailable then s.buffer.drop s.bufferOffset else []

/-- The source when the loop stops. -/
def stopped {δ : Type} (out : List UInt8) (s : Source δ) : Source δ :=
  { s with pos := wrap 64 (s.pos + out.length) }

section
variable {δ : Type} {info : Info} {D : Decoder δ} {s : Source δ} {n : ℕ} {out : List UInt8}

theorem samplesAvailable_of_available (h : s.audioBlockAvailable = true) :
    samplesAvailable info D s = (true, s) := if_pos h

theorem samplesAvailable_of_call (h : s.audioBlockAvailable = false) {ret : Bool}
    {frame : Option Frame} {d : δ} (hcall : D.processSingle s.decoder = (ret, frame, d)) :
    samplesAvailable info D s =
      (ret && decide (D.getState d ≠ .endOfStream), afterCall info frame d s) := by
  rw [samplesAvailable, if_neg (by rw [h]; exact Bool.false_ne_true), hcall]

theorem readPass_full (h : n ≤ out.length) :
    readPass info D n (s, out) = .done (some (out, stopped out s)) :=
  if_neg (not_lt.2 h)

/-- Bytes of the available block are copied. -/
theorem readPass_available (h : s.audioBlockAvailable = true)
    (hle : s.bufferOffset ≤ s.buffer.length) (hmore : out.length < n) :
    readPass info D n (s, out) =
      .again (consume (min (s.buffer.length - s.bufferOffset) (n - out.length)) s,
        out ++ slice s.buffer s.bufferOffset
          (min (s.buffer.length - s.bufferOffset) (n - out.length))) := by
  simp only [readPass, if_pos hmore, samplesAvailable_of_available h, if_true,
    if_neg (not_lt.2 hle)]

/-- A call that makes a block available: the pass is the one with this block. -/
theorem readPass_of_call {s' : Source δ} (hcall : samplesAvailable info D s = (true, s'))
    (havail : s'.audioBlockAvailable = true) (hmore : out.length < n) :
    readPass info D n (s, out) = readPass info D n (s', out) := by
  simp only [readPass, if_pos hmore, hcall, samplesAvailable_of_available havail]

theorem readPass_of_end {s' : Source δ} (hcall : samplesAvailable info D s = (false, s'))
    (hmore : out.length < n) :
    readPass info D n (s, out) = .done (some (out, stopped out s')) := by
  simp only [readPass, if_pos hmore, hcall, stopped]
  rfl

theorem consume_pos (k : ℕ) (s : Source δ) : (consume k s).pos = s.pos := by
  unfold consume
  split_ifs <;> rfl

/-- What waits before bytes are copied is these bytes and what waits behind them. -/
theorem waiting_consume (h : s.audioBlockAvailable = true) (k : ℕ) :
    s.waiting = slice s.buffer s.bufferOffset k ++ (consume k s).waiting := by
  rw [Source.waiting, if_pos h, consume]
  by_cases hall : s.bufferOffset + k = s.buffer.length
  · rw [if_pos hall, slice, List.take_of_length_le (by rw [List.length_drop]; omega)]
    simp [Source.waiting]
  · rw [if_neg hall, Source.waiting, if_pos h, slice]
    show _ = _ ++ s.buffer.drop (s.bufferOffset + k)
    rw [← List.drop_drop, List.take_append_drop]

end

/-! ## Blocks -/

section
variable (info : Info) (frame : Frame)

theorem length_blockBytes :
    (blockBytes info frame).length = frame.blocksize * info.bytesPerFrame := by
  simp [blockBytes, List.length_flatMap, info.bytesPerFrame_eq, Nat.mul_comm]

theorem blockBytes_ne_nil : blockBytes info frame ≠ [] := by
  rw [← List.length_pos_iff, length_blockBytes]
  exact Nat.mul_pos frame.blocksize_pos info.bytesPerFrame_pos

end

end Flac

end NiMedia
