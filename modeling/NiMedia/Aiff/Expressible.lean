/-
  What the header of an AIFF file expresses.

  The sink accepts floating formats in both byte orders, but has tags for
  big-endian ones only; and it accepts a sample rate of zero, which the reader
  refuses.

  * `aiff_survive_iff`: when the samples survive the round trip.
-/
import NiMedia.Pcm.Sample
import NiMedia.Aiff.RoundTrip

namespace NiMedia.Aiff

open Bytes Simulation

variable {P : Platform} {native : EndianType} {info : StreamInfo} {D : List UInt8}

/-! ## The format that is read back -/

/-- The samples have the same values in the format that is read back: integers
    always; floating ones if they are big-endian or the byte order makes no
    difference to them. -/
def keepsSamples (f : RuntimeFormat) (D : List UInt8) : Prop :=
  f.number ≠ .floatingPoint ∨ f.endian = .bigEndian ∨ eachSample f.bitwidth D fun bs =>
    bs.reverse = bs ∨ ∀ e, floatOf f.bitwidth e bs = .notANumber

/-- Unsigned samples are accepted with 8 bit only. -/
theorem formatToTag_unsigned {f : RuntimeFormat} {tag : ℕ} (h : formatToTag f = some tag)
    (hn : f.number = .unsignedInteger) : f.bitwidth = ._8bit := by
  rw [formatToTag, hn] at h
  simp only at h
  split_ifs at h with hb
  exact hb

/-- A sample in the format that is read back. -/
theorem sameSample_readFormat {f : RuntimeFormat} {tag : ℕ} (h : formatToTag f = some tag)
    {bs : List UInt8} (hl : bs.length = f.bitwidth.numBytes) :
    sameSample f (readFormat f) bs ↔ f.number ≠ .floatingPoint ∨ f.endian = .bigEndian ∨
      bs.reverse = bs ∨ ∀ e, floatOf f.bitwidth e bs = .notANumber := by
  have hnumber : f.number = (readFormat f).number := rfl
  have hendian : (readFormat f).endian = readEndian f := rfl
  unfold sameSample
  rw [hendian, readEndian]
  cases hn : f.number with
  | signedInteger =>
    rw [if_pos rfl]
    exact ⟨fun _ => .inl nofun, fun _ => ⟨hnumber ▸ hn.symm, .inl rfl⟩⟩
  | unsignedInteger =>
    rw [formatToTag_unsigned h hn] at hl
    exact ⟨fun _ => .inl nofun, fun _ => ⟨hnumber ▸ hn.symm, .inr (.inl (reverse_of_8bit hl))⟩⟩
  | floatingPoint =>
    rw [if_neg nofun]
    constructor
    · rintro ⟨-, he | hrev | ⟨-, hnan⟩⟩
      · exact .inr (.inl he)
      · exact .inr (.inr (.inl hrev))
      · exact .inr (.inr (.inr hnan))
    · rintro (hne | he | hrev | hnan)
      · exact absurd rfl hne
      · exact ⟨hnumber ▸ hn.symm, .inl he⟩
      · exact ⟨hnumber ▸ hn.symm, .inr (.inl hrev)⟩
      · exact ⟨hnumber ▸ hn.symm, .inr (.inr ⟨rfl, hnan⟩)⟩

/-- The samples in the format that is read back. -/
theorem decode_readFormat_iff {f : RuntimeFormat} {tag : ℕ} (h : formatToTag f = some tag) :
    decode native f D = decode native (readFormat f) D ↔ keepsSamples f D := by
  have hw : (readFormat f).bitwidth = f.bitwidth := rfl
  rw [decode_eq_iff hw, eachSample_congr fun _ hl => sameSample_readFormat h hl, eachSample_or,
    eachSample_or, keepsSamples]

/-! ## Surviving samples -/

/-- The samples of the blocks `ws` are read back, in the format that the header
    says, as they were written. -/
def samplesSurvive (P : Platform) (native : EndianType) (info : StreamInfo)
    (ws : List (List UInt8)) : Prop :=
  ∃ file fuel i s, closedAiff P native info ws = .ok file ∧
    readAiffHeader P native fuel (AiffSource.unread native (File.opened file)) =
      some (.ok (i, s)) ∧
    decode native info.format ws.flatten = decode native i.format ws.flatten

/-- What the header can express: its sizes have 32 bits. -/
def expressible (info : StreamInfo) (D : List UInt8) : Prop :=
  58 + D.length < 2 ^ 32 ∧ 1 ≤ info.sampleRate ∧ keepsSamples info.format D

/-- The rate is read back as a positive number iff it is not zero. -/
theorem rate_iff (hP : P.logAccurate) (d : HeaderData P info) (hrate : info.sampleRate < 2 ^ 64) :
    (ieee80ToDouble d.rate).le (Double.ofNat 0) = false ↔ 1 ≤ info.sampleRate := by
  rcases Nat.eq_zero_or_pos info.sampleRate with h0 | h1
  · obtain ⟨bs, hbs, hle⟩ := ieee80_zero P
    have heq := d.rate_eq
    rw [h0, hbs] at heq
    obtain rfl : bs = d.rate := Except.ok.inj heq
    rw [hle, h0]
    exact ⟨nofun, nofun⟩
  · constructor
    · intro _
      exact h1
    · intro _
      exact ieee80_pos hP h1 hrate d.rate_eq

theorem samplesSurvive_of_closed {ws : List (List UInt8)} {file : List UInt8}
    (h : closedAiff P native info ws = .ok file) : samplesSurvive P native info ws ↔
      ∃ fuel i s, readAiffHeader P native fuel (AiffSource.unread native (File.opened file)) =
          some (.ok (i, s)) ∧
        decode native info.format ws.flatten = decode native i.format ws.flatten :=
  exists_ok_iff h

/-- Below 4 GiB, the samples survive iff the reader takes the header and its
    format keeps them. -/
theorem survive_iff (d : HeaderData P info) (hch : info.numChannels ≠ 0) {ws : List (List UInt8)}
    (hsize : 58 + ws.flatten.length < 2 ^ 32) :
    samplesSurvive P native info ws ↔
      readable d ws.flatten.length ∧ keepsSamples info.format ws.flatten := by
  rw [samplesSurvive_of_closed (closedAiff_eq native d hch ws (by omega)),
    reads_iff hsize (Q := fun i => decode native info.format ws.flatten =
      decode native i.format ws.flatten)]
  exact and_congr_right fun _ => decode_readFormat_iff d.tag_eq

/-- **Surviving samples.**  Of the whole frames that have been written to a sink,
    the samples survive if the header can express the info; and in a file below
    4 GiB, only then.  (In a larger one the reader walks on within what it takes
    for chunks.) -/
theorem aiff_survive_iff (P : Platform) (native : EndianType) (info : StreamInfo)
    (hP : P.logAccurate) (hrate : info.sampleRate < 2 ^ 64) (haccepted : accepted P info)
    (hch : info.numChannels ≤ 255) (ws : List (List UInt8)) (hne : ws.flatten ≠ [])
    (hframes : info.bytesPerFrame ∣ ws.flatten.length) :
    (expressible info ws.flatten → samplesSurvive P native info ws) ∧
      (58 + ws.flatten.length < 2 ^ 32 → samplesSurvive P native info ws →
        expressible info ws.flatten) := by
  obtain ⟨hne0, ⟨d⟩⟩ := accepted_iff.1 haccepted
  have hiff : ∀ hsize : 58 + ws.flatten.length < 2 ^ 32, samplesSurvive P native info ws ↔
      1 ≤ info.sampleRate ∧ keepsSamples info.format ws.flatten := by
    intro hsize
    rw [survive_iff d hne0 hsize, readable_iff ⟨Nat.pos_of_ne_zero hne0, hch⟩ hne hframes
      (by omega), rate_iff hP d hrate]
  constructor
  · rintro ⟨hsize, h⟩
    exact (hiff hsize).2 h
  · intro hsize h
    exact ⟨hsize, (hiff hsize).1 h⟩

theorem aiff_survive_s24be :
    samplesSurvive .powersOfTwo .littleEndian s24beStereo [[1, 2, 3], [4, 5, 6]] :=
  (aiff_survive_iff .powersOfTwo .littleEndian s24beStereo logAccurate_powersOfTwo (by decide)
    (accepted_iff.2 ⟨by decide, ⟨s24beData⟩⟩) (by decide) [[1, 2, 3], [4, 5, 6]] (by decide)
    (by decide)).1 ⟨by decide, by decide, .inl nofun⟩

/-- Little-endian floats. -/
def f32leMono : StreamInfo where
  sampleRate := 65536
  format := .ofTag ⟨.floatingPoint, ._32bit, .littleEndian⟩ (by decide)

def f32leData : HeaderData .powersOfTwo f32leMono where
  tag := fl32
  rate := [0x40, 0x0F, 0x80, 0, 0, 0, 0, 0, 0, 0]
  tag_eq := rfl
  rate_eq := by decide

/-- The little-endian 1.0 is read back as a big-endian number. -/
theorem f32le_lost :
    ¬ samplesSurvive .powersOfTwo .littleEndian f32leMono [[0, 0, 0x80, 0x3F]] := by
  rw [survive_iff f32leData (by decide) (by decide)]
  rintro ⟨-, hn | he | hsample⟩
  · exact hn rfl
  · cases he
  · rcases hsample 0 (by decide) with hrev | hnan
    · exact absurd hrev (by decide)
    · have hfinite : (floatOf ._32bit .littleEndian [0, 0, 0x80, 0x3F]).isFinite = true := by decide
      have hnan' : floatOf ._32bit .littleEndian [0, 0, 0x80, 0x3F] = .notANumber :=
        hnan .littleEndian
      rw [hnan'] at hfinite
      cases hfinite

end NiMedia.Aiff
