/-
  Writing WAV files (`wav/wav_sink.h`).

  The sink writes a header with two sizes left open, narrows its view to what
  follows it, and fills in the sizes when it is closed.  Of the info it looks at
  the format, the number of channels and the sample rate.

  * `closedWav_eq`: the file that results from any sequence of writes.
-/
import NiMedia.Audio.Header
import NiMedia.Iostreams.FileView
import NiMedia.Wav.Chunks

namespace NiMedia.Wav

open Bytes Simulation

/-- The positions that `wav_sink` remembers. -/
structure Offsets where
  header : ℤ
  data : ℤ
  chunkSize : ℤ
  deriving DecidableEq

/-! ## The sink -/

section
variable (native : EndianType) (info : StreamInfo)

def audioFormat : ℕ :=
  if info.format.number = .floatingPoint then wavFormatTagIeeeFloat else wavFormatTagPcm

/-- `static_cast<uint16_t>( sink.info().num_channels() )`. -/
def numChannels : ℕ := info.numChannels % 2 ^ 16

/-- `static_cast<uint32_t>( sink.info().sample_rate() )`. -/
def sampleRate : ℕ := info.sampleRate % 2 ^ 32

def byteRate : ℕ :=
  sizeT (sampleRate info * numChannels info % 2 ^ 32 * info.bytesPerSample) % 2 ^ 32

def blockAlign : ℕ := sizeT (numChannels info * info.bytesPerSample) % 2 ^ 16

section
variable {δ : Type} [Sink δ]

def writeWavHeader : Io (Subview δ) Offsets := do
  let _ ← writeObj (native.toBytes 4 riff)
  let chunkSizeOffset ← tell
  let _ ← writeObj (native.toBytes 4 0)
  let _ ← writeObj (native.toBytes 4 wave)
  let _ ← writeObj (native.toBytes 4 fmt)
  let _ ← writeObj (native.toBytes 4 16)
  let _ ← writeObj (native.toBytes 2 (audioFormat info))
  let _ ← writeObj (native.toBytes 2 (numChannels info))
  let _ ← writeObj (native.toBytes 4 (sampleRate info))
  let _ ← writeObj (native.toBytes 4 (byteRate info))
  let _ ← writeObj (native.toBytes 2 (blockAlign info))
  let _ ← writeObj (native.toBytes 2 (info.bitsPerSample % 2 ^ 16))
  let _ ← writeObj (native.toBytes 4 data)
  let dataOffset ← tell
  let _ ← writeObj (native.toBytes 4 0)
  let headerOffset ← tell
  pure ⟨headerOffset, dataOffset, chunkSizeOffset⟩

def closeWav (o : Offsets) : Io (Subview δ) Unit := do
  let fileSize := uint32 (← tell)
  let chunkSize := uint32 (fileSize - 8)
  let dataSize := uint32 (fileSize - uint32 o.header)
  let _ ← seek o.chunkSize .beg
  let _ ← writeObj (native.toBytes 4 chunkSize)
  let _ ← seek o.data .beg
  let _ ← writeObj (native.toBytes 4 dataSize)
  pure ()

end

/-- `wav_sink`. -/
abbrev WavSink (δ : Type) := HeaderSink Offsets δ

namespace WavSink

variable {δ : Type} [Sink δ]

/-- The constructor. -/
def construct (device : δ) : Except RuntimeError (WavSink δ) :=
  HeaderSink.construct (writeWavHeader native info) info device

def close (s : WavSink δ) : Except RuntimeError (WavSink δ) :=
  HeaderSink.close (fun _ => closeWav native) native s

end WavSink

/-- The file that is left when the blocks `ws` have been written to a sink on a
    new file, and the sink has been closed. -/
def closedWav (ws : List (List UInt8)) : Except RuntimeError (List UInt8) := do
  let s ← WavSink.construct native info (File.opened [])
  let s ← WavSink.close native (s.writeAll ws)
  pure s.view.device.bytes

/-! ## The file -/

/-- The header. -/
def wavHeader (chunkSize dataSize : ℕ) : List UInt8 :=
  native.toBytes 4 riff ++ (native.toBytes 4 chunkSize ++ (native.toBytes 4 wave ++
    (native.toBytes 4 fmt ++ (native.toBytes 4 16 ++ (native.toBytes 2 (audioFormat info) ++
    (native.toBytes 2 (numChannels info) ++ (native.toBytes 4 (sampleRate info) ++
    (native.toBytes 4 (byteRate info) ++ (native.toBytes 2 (blockAlign info) ++
    (native.toBytes 2 (info.bitsPerSample % 2 ^ 16) ++ (native.toBytes 4 data ++
    (native.toBytes 4 dataSize))))))))))))

/-- The file of a sink that has been closed with the cursor at `p`. -/
def closedAt (D : List UInt8) (p : ℕ) : List UInt8 :=
  wavHeader native info (uint32 (uint32 p - 8)) (uint32 (uint32 p - uint32 44)) ++ D

/-- The file for the data `D`. -/
def wavFile (D : List UInt8) : List UInt8 :=
  wavHeader native info (uint32 (uint32 (44 + D.length) - 8)) (D.length % 2 ^ 32) ++ D

end

section
variable (native : EndianType) (info : StreamInfo)

@[simp] theorem length_wavHeader (chunkSize dataSize : ℕ) :
    (wavHeader native info chunkSize dataSize).length = 44 := by
  simp [wavHeader]

/-- What is written before any data. -/
theorem appends_writeWavHeader :
    Appends (writeWavHeader native info) 0 (wavHeader native info 0 0) ⟨44, 40, 4⟩ := by
  unfold writeWavHeader wavHeader
  refine .bind_writeObj (.bind_tell ?_)
  iterate 11 refine .bind_writeObj ?_
  refine .bind_tell (.bind_writeObj_last (.bind_tell (.pure_eq ?_)))
  simp only [EndianType.length_toBytes]
  rfl

/-- The header, split at the two sizes. -/
theorem wavHeader_split (D : List UInt8) :
    ∃ mid, (∀ c d, wavHeader native info c d ++ D =
      native.toBytes 4 riff ++ (native.toBytes 4 c ++ (mid ++ (native.toBytes 4 d ++ D)))) ∧
      mid.length = 32 := by
  refine ⟨native.toBytes 4 wave ++ (native.toBytes 4 fmt ++ (native.toBytes 4 16 ++
    (native.toBytes 2 (audioFormat info) ++ (native.toBytes 2 (numChannels info) ++
    (native.toBytes 4 (sampleRate info) ++ (native.toBytes 4 (byteRate info) ++
    (native.toBytes 2 (blockAlign info) ++ (native.toBytes 2 (info.bitsPerSample % 2 ^ 16) ++
    (native.toBytes 4 data))))))))), fun c d => ?_, by simp⟩
  simp only [wavHeader, List.append_assoc]

theorem wavFile_eq (D : List UInt8) :
    wavFile native info D = closedAt native info D (44 + D.length) := by
  have hsize : uint32 ((uint32 ((44 + D.length : ℕ) : ℤ) : ℤ) - uint32 44) = D.length % 2 ^ 32 := by
    unfold uint32; omega
  rw [wavFile, closedAt, hsize]
  rfl

/-- Closing fills in what the position of the cursor makes of the sizes. -/
theorem closeWav_wavHeader (D : List UInt8) {p : ℕ} (hp : (p : ℤ) ≤ maxPos)
    (hmax : 44 + D.length < 2 ^ 63) :
    ∃ q, closeWav native ⟨44, 40, 4⟩ (fileView (wavHeader native info 0 0 ++ D) p 0) =
      .ok ((), fileView (closedAt native info D p) q 0) := by
  obtain ⟨mid, hsplit, hmid⟩ := wavHeader_split native info D
  have htell : tell (fileView (wavHeader native info 0 0 ++ D) p 0) =
      .ok ((p : ℤ), fileView (wavHeader native info 0 0 ++ D) p 0) :=
    congrArg Except.ok (tell_fileView (Nat.zero_le _) hp)
  have hlen1 : (native.toBytes 4 riff ++ (native.toBytes 4 0 ++
      (mid ++ (native.toBytes 4 0 ++ D)))).length < 2 ^ 63 := by
    rw [← hsplit, List.length_append, length_wavHeader]; exact hmax
  refine ⟨44, ?_⟩
  unfold closeWav
  rw [run_bind, htell, Except.bind, hsplit]
  dsimp only
  have hriff : (4 : ℤ) = (native.toBytes 4 riff).length := by simp
  refine (patch_fileView hriff (by simp) hlen1 _).trans ?_
  have hassoc : ∀ c d, native.toBytes 4 riff ++ (native.toBytes 4 c ++
      (mid ++ (native.toBytes 4 d ++ D))) =
      (native.toBytes 4 riff ++ (native.toBytes 4 c ++ mid)) ++ (native.toBytes 4 d ++ D) :=
    fun c d => by simp only [List.append_assoc]
  rw [hassoc]
  refine (patch_fileView (by simp [hmid]) (by simp) ?_ _).trans ?_
  · simp only [List.length_append, EndianType.length_toBytes] at hlen1 ⊢
    omega
  · simp only [List.length_append, EndianType.length_toBytes, hmid]
    rw [closedAt, hsplit, hassoc]
    rfl

/-- **The file** that any sequence of writes leaves. -/
theorem closedWav_eq (ws : List (List UInt8)) (hmax : 44 + ws.flatten.length < 2 ^ 63) :
    closedWav native info ws = .ok (wavFile native info ws.flatten) := by
  have hlen := length_wavHeader native info 0 0
  have hconstruct := HeaderSink.construct_opened info (appends_writeWavHeader native info)
    (by rw [hlen]; decide)
  obtain ⟨p, hp⟩ := closeWav_wavHeader native info ws.flatten (le_maxPos hmax) hmax
  rw [← wavFile_eq] at hp
  obtain ⟨s, hclose, hs⟩ := HeaderSink.close_writeAll (fun _ => closeWav native) native info
    (by rw [hlen]; exact hmax) (by rw [hlen]; exact hp)
  rw [closedWav, WavSink.construct, hconstruct, ok_bind, WavSink.close, hclose, ok_bind, hs]
  rfl

end

end NiMedia.Wav
