/-
  How the FLAC source takes over a block (`audio/flac/flac_source.h`): the
  stream info of the metadata callback, and the loops of the write callback,
  with the rows that libFLAC hands over and the indices into the buffer.

  * `writeCallback_interleaves`: the loops write the samples interleaved;
  * `writeCallback_defined_iff`: when they keep to the rows.
-/
import NiMedia.Flac.Source
import NiMedia.Lib.Fill

namespace NiMedia

open Bytes Words Fill

namespace Flac

/-! ## The stream info -/

/-- `FLAC__StreamMetadata_StreamInfo`. -/
structure StreamInfoBlock where
  minBlocksize : ℕ
  maxBlocksize : ℕ
  sampleRate : ℕ
  channels : ℕ
  bitsPerSample : ℕ
  totalSamples : ℕ
  deriving DecidableEq, Repr

/-- `metadataCallbackImpl` for a stream info, with the count of bytes behind it. -/
def metadataCallbackImpl (audioBytes : ℕ) (m : StreamInfoBlock) : Except RuntimeError Info :=
  if ht : m.totalSamples = 0 then throw ⟨"Empty File"⟩
  else if hc : m.channels < 1 ∨ 8 < m.channels then
    throw ⟨"Invalid number of channels: " ++ toString m.channels⟩
  else if m.bitsPerSample < 4 ∨ 32 < m.bitsPerSample then
    throw ⟨"Invalid bits per sample: " ++ toString m.bitsPerSample⟩
  else if m.sampleRate < 1 ∨ 655350 < m.sampleRate then
    throw ⟨"Invalid sample rate: " ++ toString m.sampleRate⟩
  else if m.minBlocksize ≠ m.maxBlocksize then throw ⟨"Only Constant blocksize supported "⟩
  else do
    let format ← RuntimeFormat.ofBits .signedInteger m.bitsPerSample .littleEndian
    pure {
      sampleRate := m.sampleRate
      numChannels := m.channels
      bitRate := sizeT (sizeT (audioBytes * 8) * m.sampleRate) / m.totalSamples
      format := format
      numFrames := m.totalSamples
      numFrames_pos := Nat.pos_of_ne_zero ht
      numChannels_pos := by omega
      numChannels_le := by omega }

/-- What the source has made of the stream info. -/
structure FromStreamInfo (m : StreamInfoBlock) (info : Info) : Prop where
  numChannels : info.numChannels = m.channels
  number : info.format.number = .signedInteger
  endian : info.format.endian = .littleEndian
  bits : info.format.bitwidth.bits = m.bitsPerSample
  bits_le : m.bitsPerSample ≤ 32

theorem metadataCallbackImpl_ok {audioBytes : ℕ} {m : StreamInfoBlock} {info : Info}
    (h : metadataCallbackImpl audioBytes m = .ok info) : FromStreamInfo m info := by
  unfold metadataCallbackImpl at h
  split_ifs at h with h1 h2 h3 h4 h5
  cases hf : RuntimeFormat.ofBits .signedInteger m.bitsPerSample .littleEndian with
  | error e =>
    rw [hf] at h
    cases h
  | ok format =>
    rw [hf] at h
    cases h
    obtain ⟨hn, hb, he⟩ := RuntimeFormat.ofBits_ok hf
    exact ⟨rfl, hn, he, hb, by omega⟩

theorem FromStreamInfo.integer {m : StreamInfoBlock} {info : Info} (h : FromStreamInfo m info) :
    info.format.number ≠ .floatingPoint := by
  rw [h.number]
  nofun

/-! ## The write callback -/

/-- `FLAC__Frame`, and the rows behind `buffer`: one for each channel of the
    frame, of `blocksize` samples. -/
structure Rows where
  blocksize : ℕ
  rows : List (List (BitVec 32))
  rows_length : ∀ row ∈ rows, row.length = blocksize
  blocksize_lt : blocksize < 2 ^ 32
  channels_pos : 1 ≤ rows.length
  channels_le : rows.length ≤ 8

/-- `header.channels`. -/
def Rows.channels (frame : Rows) : ℕ := frame.rows.length

/-- `buffer[channel][u]`, if it is there. -/
def Rows.sample (frame : Rows) (channel u : ℕ) : Option (BitVec 32) :=
  frame.rows[channel]?.bind (·[u]?)

/-- `std::vector::resize`. -/
def resize (n : ℕ) (buf : List UInt8) : List UInt8 :=
  buf.take n ++ List.replicate (n - buf.length) 0

section
variable (info : Info) (frame : Rows)

def totalBytes : ℕ := sizeT (sizeT (frame.blocksize * info.bytesPerSample) * info.numChannels)

/-- `sample_index`. -/
def sampleIndex (u channel : ℕ) : ℕ := info.bytesPerSample * (u * info.numChannels + channel)

/-- The bytes of a sample. -/
def writeSample (sample : BitVec 32) (index : ℕ) (buf : List UInt8) : Option (List UInt8) :=
  forLoop (fun b => store (index + b) (sampleByte sample b)) info.bytesPerSample buf

/-- The loop over the channels. -/
def writeFrame (u : ℕ) (buf : List UInt8) : Option (List UInt8) :=
  forLoop (fun channel buf =>
    (frame.sample channel u).bind fun sample =>
      writeSample info sample (sampleIndex info u channel) buf) info.numChannels buf

/-- The loops of `writeCallbackImpl`: `none` stands for an access to what is not
    there. -/
def interleave (buf : List UInt8) : Option (List UInt8) :=
  forLoop (writeFrame info frame) frame.blocksize buf

/-- `writeCallbackImpl`. -/
def writeCallback {δ : Type} (s : Source δ) : Option (Source δ) :=
  let buf :=
    if s.buffer.length ≠ totalBytes info frame then resize (totalBytes info frame) s.buffer
    else s.buffer
  (interleave info frame buf).map fun buf =>
    { s with buffer := buf, audioBlockAvailable := true }

end

/-! ## What the loops write -/

section
variable {info : Info} {frame : Rows}

theorem length_resize (n : ℕ) (buf : List UInt8) : (resize n buf).length = n := by
  rw [resize, List.length_append, List.length_take, List.length_replicate]
  omega

theorem totalBytes_eq :
    totalBytes info frame = frame.blocksize * info.bytesPerSample * info.numChannels := by
  have hsize := info.bytesPerSample_le
  have hchan := info.numChannels_le
  have hblock := frame.blocksize_lt
  have h1 : frame.blocksize * info.bytesPerSample ≤ 2 ^ 32 * 8 := Nat.mul_le_mul hblock.le hsize
  have h2 := Nat.mul_le_mul h1 hchan
  rw [totalBytes, sizeT_of_lt (n := frame.blocksize * info.bytesPerSample) (by omega),
    sizeT_of_lt (by omega)]

/-- The bytes of a sample, as they are written. -/
def sampleBytesOf (info : Info) (sample : BitVec 32) : List UInt8 :=
  (List.range info.bytesPerSample).map (sampleByte sample)

theorem length_sampleBytesOf (sample : BitVec 32) :
    (sampleBytesOf info sample).length = info.bytesPerSample := by simp [sampleBytesOf]

theorem fills_writeSample (sample : BitVec 32) (index : ℕ) :
    Fills (writeSample info sample index) index (sampleBytesOf info sample) := by
  have h : Fills (writeSample info sample index) index
      ((List.range info.bytesPerSample).flatMap fun b => [sampleByte sample b]) := by
    refine Fills.forLoop (L := 1) (fun b _ => ?_) fun _ _ => rfl
    rw [Nat.mul_one]
    exact fills_store _ _
  rwa [← List.map_eq_flatMap] at h

theorem Rows.sample_of_le {channel u : ℕ} (hc : frame.channels ≤ channel) :
    frame.sample channel u = none := by
  rw [Rows.sample, List.getElem?_eq_none hc]
  rfl

theorem Rows.exists_sample {channel u : ℕ} (hc : channel < frame.channels)
    (hu : u < frame.blocksize) : ∃ x, frame.sample channel u = some x := by
  have hrow : frame.rows[channel]? = some frame.rows[channel] := List.getElem?_eq_getElem hc
  have hlen : frame.rows[channel].length = frame.blocksize :=
    frame.rows_length _ (List.getElem_mem hc)
  rw [Rows.sample, hrow, Option.bind_some, List.getElem?_eq_getElem (by rw [hlen]; exact hu)]
  exact ⟨_, rfl⟩

/-- The samples of the rows, with silence where there are none. -/
def Rows.at_ (frame : Rows) (channel u : ℕ) : BitVec 32 := (frame.sample channel u).getD 0

theorem Rows.sample_eq {channel u : ℕ} (hc : channel < frame.channels) (hu : u < frame.blocksize) :
    frame.sample channel u = some (frame.at_ channel u) := by
  obtain ⟨x, hx⟩ := Rows.exists_sample hc hu
  rw [Rows.at_, hx]
  rfl

/-- The frame as it is handed over, by the samples that are read. -/
def Rows.toFrame (frame : Rows) (h : 0 < frame.blocksize) : Frame := ⟨frame.blocksize, frame.at_, h⟩

variable (info frame) in
/-- The samples of one point of time. -/
def frameBytes (u : ℕ) : List UInt8 :=
  (List.range info.numChannels).flatMap fun channel => sampleBytesOf info (frame.at_ channel u)

theorem length_frameBytes (u : ℕ) :
    (frameBytes info frame u).length = info.numChannels * info.bytesPerSample :=
  length_flatMap_range _ fun _ _ => length_sampleBytesOf _

theorem fills_writeFrame (hch : info.numChannels ≤ frame.channels) {u : ℕ}
    (hu : u < frame.blocksize) :
    Fills (writeFrame info frame u) (u * (info.numChannels * info.bytesPerSample))
      (frameBytes info frame u) := by
  refine Fills.forLoop (L := info.bytesPerSample) (fun channel hc => ?_)
    fun _ _ => length_sampleBytesOf _
  have hindex : u * (info.numChannels * info.bytesPerSample) + channel * info.bytesPerSample =
      sampleIndex info u channel := by
    rw [sampleIndex]
    ring
  rw [hindex, Rows.sample_eq (hc.trans_le hch) hu]
  exact fills_writeSample _ _

theorem fills_interleave (hch : info.numChannels ≤ frame.channels) :
    Fills (interleave info frame) 0
      ((List.range frame.blocksize).flatMap (frameBytes info frame)) := by
  refine Fills.forLoop (fun u hu => ?_) fun _ _ => length_frameBytes _
  rw [Nat.zero_add]
  exact fills_writeFrame hch hu

/-- **The loops** write the samples interleaved, whatever the buffer held. -/
theorem writeCallback_interleaves {δ : Type} (hch : info.numChannels ≤ frame.channels)
    (s : Source δ) :
    writeCallback info frame s = some { s with
      buffer := (List.range frame.blocksize).flatMap (frameBytes info frame)
      audioBlockAvailable := true } := by
  have hlen : ((List.range frame.blocksize).flatMap (frameBytes info frame)).length =
      totalBytes info frame := by
    rw [length_flatMap_range _ fun _ _ => length_frameBytes _, totalBytes_eq]
    ring
  have hbuf : (if s.buffer.length ≠ totalBytes info frame then
      resize (totalBytes info frame) s.buffer else s.buffer).length =
      ((List.range frame.blocksize).flatMap (frameBytes info frame)).length := by
    rw [hlen]
    split_ifs with h
    · exact length_resize _ _
    · exact not_not.1 h
  rw [writeCallback, (fills_interleave hch).whole hbuf]
  rfl

/-- **Accesses of the loops.**  They keep to the rows iff the frame has as many
    channels as the stream info says. -/
theorem writeCallback_defined_iff {δ : Type} (s : Source δ) :
    (∃ s', writeCallback info frame s = some s') ↔
      frame.blocksize = 0 ∨ info.numChannels ≤ frame.channels := by
  constructor
  · rintro ⟨s', hs'⟩
    by_contra hcon
    obtain ⟨hblock, hch⟩ := not_or.1 hcon
    have hnone : ∀ buf, interleave info frame buf = none := by
      refine forLoop_eq_none (Nat.pos_of_ne_zero hblock) fun buf => ?_
      refine forLoop_eq_none (not_le.1 hch) (fun buf => ?_) buf
      rw [Rows.sample_of_le le_rfl]
      rfl
    rw [writeCallback, hnone] at hs'
    cases hs'
  · rintro (hblock | hch)
    · rw [writeCallback, interleave, hblock]
      exact ⟨_, rfl⟩
    · exact ⟨_, writeCallback_interleaves hch s⟩

end

/-- Stereo of 24 bit. -/
def stereoInfo : Info where
  numChannels := 2
  format := s24le
  numFrames := 2
  numFrames_pos := Nat.two_pos
  numChannels_pos := by decide
  numChannels_le := by decide

/-- A frame of a single channel. -/
def monoRows : Rows where
  blocksize := 1
  rows := [[1#32]]
  rows_length := by decide
  blocksize_lt := by decide
  channels_pos := by decide
  channels_le := by decide

/-- A mono frame in a stereo stream. -/
theorem monoRows_undefined :
    ¬ ∃ s', writeCallback stereoInfo monoRows (opened ()) = some s' := by
  rintro ⟨s', h⟩
  have hnone : writeCallback stereoInfo monoRows (opened ()) = none := rfl
  rw [hnone] at h
  cases h

end Flac

end NiMedia
