/-
  WAV and AIFF sources keep to whole frames, if there are only whole frames.

  * `sources_staysAligned_iff`: calls about whole frames keep to whole frames, on
    what the constructors make of any bytes, iff the audio data that the file
    has ends at a whole frame.
-/
import NiMedia.Audio.Frames
import NiMedia.Wav.Explicit
import NiMedia.Aiff.SoundData

namespace NiMedia

open Simulation

/-- **Whole frames.**  Whatever bytes `wav_source` and `aiff_source` are opened
    on, served by a container or a file: calls about whole frames keep to whole
    frames, and deliver all bytes that they go over, iff the bytes of the audio
    data that there are are whole frames. -/
theorem sources_staysAligned_iff (P : Platform) (native : EndianType) (B : Content) (fuel : ℕ) :
    (∀ src, Wav.WavSource.construct native fuel (Container.mk' B.bytes) = some (.ok src) →
      (staysAligned src ↔ wholeFramesLeft B.bytes src)) ∧
    (∀ src, Wav.WavSource.construct native fuel (File.opened B.bytes) = some (.ok src) →
      (staysAligned src ↔ wholeFramesLeft B.bytes src)) ∧
    (∀ src, Aiff.AiffSource.construct P native fuel (Container.mk' B.bytes) = some (.ok src) →
      (staysAligned src ↔ wholeFramesLeft B.bytes src)) ∧
    ∀ src, Aiff.AiffSource.construct P native fuel (File.opened B.bytes) = some (.ok src) →
      (staysAligned src ↔ wholeFramesLeft B.bytes src) := by
  refine ⟨fun src h => ?_, fun src h => ?_, fun src h => ?_, fun src h => ?_⟩
  · obtain ⟨f, -, hsized, hframes⟩ := Wav.construct_of_file (at_container B) h
    exact hframes.staysAligned_iff hsized
  · obtain ⟨f, -, hsized, hframes⟩ := Wav.construct_of_file (at_opened B) h
    exact hframes.staysAligned_iff hsized
  · obtain ⟨-, -, hsized, o, tag, c, -, hframes⟩ := Aiff.construct_accepted (at_container B) h
    exact hframes.staysAligned_iff hsized
  · obtain ⟨-, -, hsized, o, tag, c, -, hframes⟩ := Aiff.construct_accepted (at_opened B) h
    exact hframes.staysAligned_iff hsized

/-- Two frames of 16 bit mono, of which the last byte is missing. -/
def truncatedWav : List UInt8 :=
  [0x52, 0x49, 0x46, 0x46, 0x27, 0, 0, 0, 0x57, 0x41, 0x56, 0x45,
   0x66, 0x6D, 0x74, 0x20, 16, 0, 0, 0, 1, 0, 1, 0, 0x44, 0xAC, 0, 0, 0x88, 0x58, 1, 0, 2, 0, 16, 0,
   0x64, 0x61, 0x74, 0x61, 4, 0, 0, 0, 1, 2, 3]

/-- Two frames of 16 bit mono. -/
def twoFramesWav : List UInt8 := truncatedWav ++ [4]

theorem truncatedWav_source :
    ∃ src, Wav.WavSource.construct .littleEndian 2 (Container.mk' truncatedWav) =
      some (.ok src) ∧ (src.bytesPerFrame, src.info.numBytes, src.view.beg) = (2, 4, 44) :=
  exists_ok_of_map (by decide)

theorem twoFramesWav_sizes :
    ∃ src, Wav.WavSource.construct .littleEndian 2 (Container.mk' twoFramesWav) =
      some (.ok src) ∧ (src.bytesPerFrame, src.info.numBytes, src.view.beg) = (2, 4, 44) :=
  exists_ok_of_map (by decide)

theorem sources_staysAligned_iff_twoFrames :
    ∃ src, Wav.WavSource.construct .littleEndian 2 (Container.mk' twoFramesWav) =
      some (.ok src) ∧ staysAligned src := by
  obtain ⟨src, hsrc, hsizes⟩ := twoFramesWav_sizes
  obtain ⟨hframe, hbytes, hbeg⟩ : src.bytesPerFrame = 2 ∧ src.info.numBytes = 4 ∧
      src.view.beg = 44 := by simpa using hsizes
  have hbytes' : (ToIfstreamInfo.toIfstreamInfo src.info).numBytes = 4 := hbytes
  refine ⟨src, hsrc, ((sources_staysAligned_iff .powersOfTwo .littleEndian
    ⟨twoFramesWav, by decide⟩ 2).1 src hsrc).2 ?_⟩
  rw [wholeFramesLeft, hframe, hbytes', hbeg]
  decide

/-- A read of both frames goes over three bytes, and delivers two. -/
theorem truncatedWav_not_aligned :
    ¬ ∀ src, Wav.WavSource.construct .littleEndian 2 (Container.mk' truncatedWav) =
      some (.ok src) → staysAligned src := by
  intro h
  obtain ⟨src, hsrc, hsizes⟩ := truncatedWav_source
  obtain ⟨hframe, hbytes, hbeg⟩ : src.bytesPerFrame = 2 ∧ src.info.numBytes = 4 ∧
      src.view.beg = 44 := by simpa using hsizes
  have hB : ByteSource.At ⟨truncatedWav, by decide⟩ 0 (Container.mk' truncatedWav) := ⟨rfl, rfl⟩
  obtain ⟨f, -, hsized, hframes⟩ := Wav.construct_of_file hB hsrc
  have hleft := (hframes.staysAligned_iff hsized).1 (h src hsrc)
  have hbytes' : (ToIfstreamInfo.toIfstreamInfo src.info).numBytes = 4 := hbytes
  rw [wholeFramesLeft, hframe, hbytes', hbeg] at hleft
  exact absurd hleft (by decide)

end NiMedia
