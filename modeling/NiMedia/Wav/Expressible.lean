/-
  What the header of a WAV file expresses.

  Of the format, the sink writes the bit width and whether it is a floating one;
  the number of channels and the sample rate are cut down to the fields of the
  header.  It refuses nothing.

  * `wav_honest_iff`: when the reader reads back the number of channels, the
    sample rate, and a format under which the samples have the values that were
    written.
-/
import NiMedia.Pcm.Sample
import NiMedia.Wav.RoundTrip

namespace NiMedia.Wav

open Bytes Simulation

variable {native : EndianType} {info : StreamInfo} {D : List UInt8}

/-! ## The format that is read back -/

/-- The samples have the same values in the format that the header stands for:
    unsigned ones of 8 bit; signed ones of more than 8 bit, and floating ones, if
    they are little-endian or the byte order makes no difference to them. -/
def keepsSamples (f : RuntimeFormat) (D : List UInt8) : Prop :=
  match f.number with
  | .unsignedInteger => f.bitwidth = ._8bit
  | .signedInteger => f.bitwidth ≠ ._8bit ∧
    (f.endian = .littleEndian ∨ eachSample f.bitwidth D fun bs => bs.reverse = bs)
  | .floatingPoint => f.endian = .littleEndian ∨ eachSample f.bitwidth D fun bs =>
    bs.reverse = bs ∨ ∀ e, floatOf f.bitwidth e bs = .notANumber

/-- A sample in the format that is read back. -/
theorem sameSample_readFormat {f : RuntimeFormat} {bs : List UInt8}
    (hl : bs.length = f.bitwidth.numBytes) :
    sameSample f (readFormat native f) bs ↔ match f.number with
      | .unsignedInteger => f.bitwidth = ._8bit
      | .signedInteger => f.bitwidth ≠ ._8bit ∧ (f.endian = .littleEndian ∨ bs.reverse = bs)
      | .floatingPoint => f.endian = .littleEndian ∨ bs.reverse = bs ∨
        ∀ e, floatOf f.bitwidth e bs = .notANumber := by
  unfold sameSample readFormat
  by_cases hf : f.number = .floatingPoint
  · simp only [hf, dif_pos, RuntimeFormat.ofTag, true_and]
  · rw [dif_neg hf]
    by_cases h8 : f.bitwidth = ._8bit
    · rw [h8] at hl
      have hrev := reverse_of_8bit hl
      cases hn : f.number <;> simp_all [RuntimeFormat.ofTag]
    · cases hn : f.number <;> simp_all [RuntimeFormat.ofTag]

/-- The samples in the format that is read back. -/
theorem decode_readFormat_iff {f : RuntimeFormat} (hD : f.bitwidth.numBytes ≤ D.length) :
    decode native f D = decode native (readFormat native f) D ↔ keepsSamples f D := by
  rw [decode_eq_iff (bitwidth_readFormat f), eachSample_congr fun _ hl => sameSample_readFormat hl,
    keepsSamples]
  cases f.number with
  | unsignedInteger => exact eachSample_const hD
  | signedInteger =>
    simp only
    rw [eachSample_and hD, eachSample_or]
  | floatingPoint => exact eachSample_or

/-! ## Honest headers -/

/-- The file of the blocks `ws` is read with the number of channels and the
    sample rate that were given to the sink, and in a format under which the
    samples are the ones that were written. -/
def headerHonest (native : EndianType) (info : StreamInfo) (ws : List (List UInt8)) : Prop :=
  ∃ file fuel i s, closedWav native info ws = .ok file ∧
    readWavHeader native fuel (WavSource.unread native (File.opened file)) = some (.ok (i, s)) ∧
    i.numChannels = info.numChannels ∧ i.sampleRate = info.sampleRate ∧
    decode native info.format ws.flatten = decode native i.format ws.flatten

/-- What the header can express. -/
def expressible (info : StreamInfo) (D : List UInt8) : Prop :=
  1 ≤ info.numChannels ∧ info.numChannels ≤ 255 ∧
    1 ≤ info.sampleRate ∧ info.sampleRate < 2 ^ 32 ∧
    info.bytesPerSample * info.numChannels ≤ D.length % 2 ^ 32 ∧ keepsSamples info.format D

theorem headerInfo_honest_iff :
    ((1 ≤ numChannels info ∧ numChannels info ≤ 255 ∧ 1 ≤ sampleRate info ∧
        info.bytesPerSample * numChannels info ≤ D.length % 2 ^ 32) ∧
      (headerInfo native info D.length).numChannels = info.numChannels ∧
      (headerInfo native info D.length).sampleRate = info.sampleRate ∧
      decode native info.format D = decode native (headerInfo native info D.length).format D) ↔
      expressible info D := by
  have hch : (headerInfo native info D.length).numChannels = info.numChannels % 2 ^ 16 := rfl
  have hrate : (headerInfo native info D.length).sampleRate = info.sampleRate % 2 ^ 32 := rfl
  have hformat : (headerInfo native info D.length).format = readFormat native info.format := rfl
  have hkeep : 1 ≤ info.numChannels →
      info.bytesPerSample * info.numChannels ≤ D.length % 2 ^ 32 →
      (decode native info.format D = decode native (readFormat native info.format) D ↔
        keepsSamples info.format D) := by
    intro h1 h2
    refine decode_readFormat_iff ?_
    have h3 := Nat.le_mul_of_pos_right info.bytesPerSample h1
    have h4 := Nat.mod_le D.length (2 ^ 32)
    exact h3.trans (h2.trans h4)
  rw [hch, hrate, hformat, expressible]
  constructor
  · rintro ⟨⟨h1, h2, h3, h4⟩, h5, h6, h7⟩
    have hc : numChannels info = info.numChannels := h5
    have hr : sampleRate info = info.sampleRate := h6
    rw [hc] at h1 h2 h4
    rw [hr] at h3
    exact ⟨h1, h2, h3, by omega, h4, (hkeep h1 h4).1 h7⟩
  · rintro ⟨h1, h2, h3, h4, h5, h6⟩
    have hc : numChannels info = info.numChannels := Nat.mod_eq_of_lt (by omega)
    have hr : sampleRate info = info.sampleRate := Nat.mod_eq_of_lt h4
    rw [hc, hr]
    exact ⟨⟨h1, h2, h3, h5⟩, hc, hr, (hkeep h1 h5).2 h6⟩

theorem headerHonest_of_closed {ws : List (List UInt8)} {file : List UInt8}
    (h : closedWav native info ws = .ok file) : headerHonest native info ws ↔
      ∃ fuel i s, readWavHeader native fuel (WavSource.unread native (File.opened file)) =
          some (.ok (i, s)) ∧ i.numChannels = info.numChannels ∧ i.sampleRate = info.sampleRate ∧
        decode native info.format ws.flatten = decode native i.format ws.flatten :=
  exists_ok_iff h

/-- **Honest headers.**  Whatever has been written, the header is honest iff it
    can express the info. -/
theorem wav_honest_iff (native : EndianType) (info : StreamInfo) (ws : List (List UInt8))
    (hmax : 44 + ws.flatten.length + 1 < 2 ^ 63) :
    headerHonest native info ws ↔ expressible info ws.flatten := by
  rw [headerHonest_of_closed (closedWav_eq native info ws (by omega)),
    reads_iff hmax (P := fun i => i.numChannels = info.numChannels ∧
      i.sampleRate = info.sampleRate ∧
      decode native info.format ws.flatten = decode native i.format ws.flatten)]
  exact headerInfo_honest_iff

theorem wav_honest_s16le : headerHonest .littleEndian s16leStereo [[1, 2], [3, 4]] :=
  (wav_honest_iff .littleEndian s16leStereo [[1, 2], [3, 4]] (by decide)).2
    ⟨by decide, by decide, by decide, by decide, by decide, by decide, .inl rfl⟩

/-- Signed 16 bit big-endian mono. -/
def s16beMono : StreamInfo where
  format := .ofTag ⟨.signedInteger, ._16bit, .bigEndian⟩ (by decide)

/-- Big-endian samples are read back as little-endian ones. -/
theorem s16be_dishonest : ¬ headerHonest .littleEndian s16beMono [[0x12, 0x34]] := by
  rw [headerHonest_of_closed (closedWav_eq _ _ [[0x12, 0x34]] (by decide))]
  rintro ⟨fuel, i, s, h⟩
  have hexp : expressible s16beMono [0x12, 0x34] := headerInfo_honest_iff.1 ((reads_iff (by decide)
    (P := fun i => i.numChannels = s16beMono.numChannels ∧ i.sampleRate = s16beMono.sampleRate ∧
      decode .littleEndian s16beMono.format [0x12, 0x34] =
        decode .littleEndian i.format [0x12, 0x34])).1 ⟨fuel, i, s, h⟩)
  obtain ⟨-, -, -, -, -, -, hle | hrev⟩ := hexp
  · cases hle
  · exact absurd (hrev 0 (by decide)) (by decide)

end NiMedia.Wav
