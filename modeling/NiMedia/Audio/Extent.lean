/-
  Which handlers of chunks read behind their chunks.

  * `handlers_keep_iff`: the handlers of both readers keep to their chunks iff
    the sample loops, the compression, the markers and the instruments that the
    chunks are to have fit into them.
-/
import NiMedia.Wav.Extent
import NiMedia.Aiff.Extent

namespace NiMedia

open Bytes

/-- **Handlers.**  On every byte string, all handlers that the header readers get
    to keep to the payload of their chunks iff what they look for fits into it. -/
theorem handlers_keep_iff (P : Platform) (native : EndianType) (B : List UInt8) :
    (Wav.keepsToChunks native B ↔ Wav.chunksFit native B) ∧
      (Aiff.keepsToChunks P native B ↔ Aiff.chunksFit P native B) :=
  ⟨Wav.keepsToChunks_iff native B, Aiff.keepsToChunks_iff P native B⟩

/-- A `smpl` chunk of 36 bytes that counts one loop, before a `data` chunk. -/
def borrowingWav : List UInt8 :=
  [0x52, 0x49, 0x46, 0x46, 0x48, 0, 0, 0, 0x57, 0x41, 0x56, 0x45,
   0x73, 0x6D, 0x70, 0x6C, 36, 0, 0, 0,
   0, 0, 0, 0, 0, 0, 0, 0, 0, 0, 0, 0, 0, 0, 0, 0, 0, 0, 0, 0, 0, 0, 0, 0, 0, 0, 0, 0, 1, 0, 0, 0,
   0, 0, 0, 0,
   0x64, 0x61, 0x74, 0x61, 16, 0, 0, 0, 1, 2, 3, 4, 5, 6, 7, 8, 9, 10, 11, 12, 13, 14, 15, 16]

/-- The loop is taken from the `data` chunk. -/
theorem borrowingWav_not_keeps : ¬ Wav.keepsToChunks .littleEndian borrowingWav := by
  rw [Wav.keepsToChunks_iff]
  intro h
  have hloops : ((Wav.SampleChunk.layout .littleEndian).get (slice borrowingWav 20 36) 0).map
      (fun c => c.sampleLoops) = some 1 := by decide
  obtain ⟨c, hc, hone⟩ := Option.map_eq_some_iff.1 hloops
  rcases h (by decide) 0 12 ⟨Wav.smpl, 36⟩ rfl (by decide) (by decide) with hend | hfit
  · exact absurd hend (by decide)
  · have hle := hfit rfl (by decide) c hc
    rw [hone] at hle
    exact absurd hle (by decide)

end NiMedia
