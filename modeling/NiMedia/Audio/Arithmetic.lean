/-
  The integer arithmetic of the header readers.

  * `headerArithmetic_exact_iff`: on which byte strings all operations on the
    fields of a header have their exact values.
-/
import NiMedia.Wav.Arithmetic
import NiMedia.Aiff.Arithmetic

namespace NiMedia

open Words

/-- All operations of the header readers have their exact values. -/
def headerArithmeticExact (P : Platform) (native : EndianType) (B : Content) : Prop :=
  (∀ op, Wav.Performs native B.bytes op → op.isExact) ∧
    ∀ op, Aiff.Performs P native B op → op.isExact

/-- **Header arithmetic.**  On every byte string, all operations of the header
    readers are exact iff its headers fit. -/
theorem headerArithmetic_exact_iff (P : Platform) (native : EndianType) (B : Content) :
    headerArithmeticExact P native B ↔
      (Wav.isWave native B.bytes → Wav.HeadersFit native B.bytes) ∧
        (Aiff.isForm B.bytes → Aiff.HeadersFit P native B) :=
  and_congr (Wav.performs_exact_iff native B) (Aiff.performs_exact_iff P native B)

/-- A `fmt ` chunk of 65535 channels of 65535 bits. -/
def wideWav : List UInt8 :=
  [0x52, 0x49, 0x46, 0x46, 0x1C, 0, 0, 0, 0x57, 0x41, 0x56, 0x45,
   0x66, 0x6D, 0x74, 0x20, 16, 0, 0, 0,
   1, 0, 0xFF, 0xFF, 0x44, 0xAC, 0, 0, 0x44, 0xAC, 0, 0, 1, 0, 0xFF, 0xFF]

/-- The product of the widths and the channels overflows. -/
theorem wideWav_overflows :
    ¬ headerArithmeticExact .powersOfTwo .littleEndian ⟨wideWav, by decide⟩ := by
  rintro ⟨hwav, -⟩
  have hcomes : Wav.ComesTo .littleEndian wideWav (Wav.WavIfstreamInfo.default .littleEndian) 12
      ⟨Wav.fmt, 16⟩ := ⟨by decide, ⟨0, rfl⟩, by decide, by decide⟩
  have hreads : Wav.ReadsFmt .littleEndian wideWav (Wav.WavIfstreamInfo.default .littleEndian) 12
      ⟨Wav.fmt, 16⟩ ⟨1, 65535, 44100, 44100, 1, 65535⟩ := ⟨hcomes, rfl, le_rfl, by decide⟩
  have hlt := Operation.signed_isExact.1 (hwav _ (.frameBits hreads Nat.one_ne_zero))
  exact absurd hlt (by decide)

end NiMedia
