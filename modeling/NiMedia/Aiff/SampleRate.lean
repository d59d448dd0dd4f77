/-
  The info of an AIFF file (`audio/aiff/aiff_sink.h`, `audio/aiff/aiff_source.h`).

  The header holds the sample rate as an IEEE 80 bit number, and the other
  fields as integers.

  * `aiff_info`: what the reader says of the file of a sink is what the sink was
    given, the sample rate included.
-/
import NiMedia.Aiff.RoundTrip
import NiMedia.Audio.Logarithm

namespace NiMedia.Aiff

open Bytes

variable {P : Platform} {native : EndianType} {info : StreamInfo} {D : List UInt8}

/-- The rate in the header is the one of the info. -/
theorem rate_exact (h2 : P.logNear 2) (h : P.logNear info.sampleRate) (hrate : 1 ≤ info.sampleRate)
    (hlt : info.sampleRate < 2 ^ 53) (d : HeaderData P info) :
    ieee80ToDouble d.rate = .ofNat info.sampleRate := by
  obtain ⟨bs, hbs, hback⟩ := ieee80_exact (logTruncates_of_near h2 h hrate hlt) hrate hlt
  have heq := d.rate_eq
  rw [hbs] at heq
  rw [← Except.ok.inj heq]
  exact hback

/-- **The info.**  A whole sample rate, the channels, the format in its byte
    order and the frames are read back from the file of a sink as they were
    written. -/
theorem aiff_info (P : Platform) (native : EndianType) (info : StreamInfo)
    (h2 : P.logNear 2) (h : P.logNear info.sampleRate) (hrate : 1 ≤ info.sampleRate)
    (hlt : info.sampleRate < 2 ^ 53) (haccepted : accepted P info)
    (hch : info.numChannels ≤ 255) (ws : List (List UInt8)) (hne : ws.flatten ≠ [])
    (hframes : info.bytesPerFrame ∣ ws.flatten.length) (hsize : 58 + ws.flatten.length < 2 ^ 32) :
    ∃ file i s, closedAiff P native info ws = .ok file ∧
      readAiffHeader P native 3 (AiffSource.unread native (File.opened file)) =
        some (.ok (i, s)) ∧
      i.sampleRate = info.sampleRate ∧ i.numChannels = info.numChannels ∧
      i.format = readFormat info.format ∧
      i.numFrames * info.bytesPerFrame = ws.flatten.length := by
  obtain ⟨hne0, ⟨d⟩⟩ := accepted_iff.1 haccepted
  have hexact := rate_exact h2 h hrate hlt d
  have hch' : 1 ≤ info.numChannels ∧ info.numChannels ≤ 255 := ⟨by omega, hch⟩
  have hpositive : (ieee80ToDouble d.rate).le (Double.ofNat 0) = false := by
    rw [hexact]
    exact Double.not_le_zero (Double.ofNat_pos hrate (by omega))
  have hok : readable d ws.flatten.length :=
    (readable_iff hch' hne hframes (by omega)).2 hpositive
  obtain ⟨s, hs, -⟩ := reads native hsize hok
  refine ⟨_, _, s, closedAiff_eq native d hne0 ws (by omega), hs, ?_, ?_, rfl, ?_⟩
  · have hstores := Double.stores_ofNat hlt
    have hulong := ulong_stores (P := P) (N := info.sampleRate) (j := 0)
      (x := .ofNat info.sampleRate) (by simpa using hstores) hlt
    have hread : (headerInfo native (headerComm d ws.flatten.length)).sampleRate =
        P.ulong (ieee80ToDouble d.rate) := rfl
    rw [hread, hexact, hulong, pow_zero, Nat.div_one]
  · exact Nat.mod_eq_of_lt (by omega)
  · have hwritten : (headerInfo native (headerComm d ws.flatten.length)).numFrames =
        writtenFrames info ws.flatten.length := rfl
    rw [hwritten, writtenFrames_of_lt hch (by omega), Nat.div_mul_cancel hframes]

/-- Stereo of 24 bit at 65536 Hz. -/
theorem aiff_info_s24be :
    ∃ file i s, closedAiff .real .littleEndian s24beStereo [[1, 2, 3], [4, 5, 6]] = .ok file ∧
      readAiffHeader .real .littleEndian 3
        (AiffSource.unread .littleEndian (File.opened file)) = some (.ok (i, s)) ∧
      i.sampleRate = 65536 ∧ i.numChannels = 2 ∧
      i.format = readFormat s24beStereo.format ∧ i.numFrames * 6 = 6 := by
  have h2 := logNear_real (n := 2) (by decide) (by decide)
  have h := logNear_real (n := 65536) (by decide) (by decide)
  obtain ⟨bs, hbs, -⟩ := ieee80_exact (logTruncates_of_near h2 h (by decide) (by decide))
    (by decide) (by decide)
  exact aiff_info .real .littleEndian s24beStereo h2 h (by decide) (by decide)
    (accepted_iff.2 ⟨by decide, ⟨⟨none_, bs, rfl, hbs⟩⟩⟩) (by decide) [[1, 2, 3], [4, 5, 6]]
    (by decide) (by decide) (by decide)

end NiMedia.Aiff
