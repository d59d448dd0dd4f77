/-
  What the WAV header reader lets through.

  Channels and sample rate are checked in every `fmt ` chunk, the block align
  against them, and the number of frames with the `data` chunk; the last `fmt `
  chunk before it counts.

  * `opens_sane`: an info that is accepted behind a `fmt ` chunk is sane, and
    the view begins with the payload of the `data` chunk.
-/
import NiMedia.Wav.Explicit
import NiMedia.Wav.RoundTrip

namespace NiMedia.Wav

open Bytes Loop Simulation

section
variable (native : EndianType) (B : List UInt8)

/-- The last `fmt ` chunk before the `n`-th header begins with `c`. -/
def lastFmtChunk (n : ℕ) (c : FmtChunk) : Prop :=
  ∃ m < n, (∃ o tag, chunkOffset native B m = some o ∧ tagAt native B o = some tag ∧
    tag.id = fmt ∧ (FmtChunk.layout native).get B (o + 8) = some c) ∧
    ∀ k, m < k → k < n → ¬ isFmtAt native B k

/-- What is to be expected of an info that has been accepted with a `data` chunk
    of the given length. -/
structure Sane (c : FmtChunk) (length : ℕ) (info : WavIfstreamInfo) : Prop where
  numChannels : 1 ≤ info.numChannels ∧ info.numChannels ≤ 255
  sampleRate : 1 ≤ info.sampleRate
  format : info.format.tag ∈ wavFormats native
  bytesPerFrame : info.bytesPerFrame = c.blockAlign
  numFrames : 1 ≤ info.numFrames
  numBytes_le : info.numBytes ≤ length
  lt_numBytes : length < info.numBytes + info.bytesPerFrame

/-- The `n`-th header is the one of a `data` chunk at offset `o`. -/
structure DataAt (n o : ℕ) (tag : RiffTag) : Prop where
  chunkOffset : chunkOffset native B n = some o
  tagAt : tagAt native B o = some tag
  id : tag.id = data
  length : tag.length ≠ 0

end

variable {native : EndianType}

/-! ## The format -/

/-- What a format tag and a bit width stand for is a format of WAV files. -/
theorem determineFormat_ok {formatTag bits : ℕ} {f : RuntimeFormat}
    (h : determineFormat native formatTag bits = .ok f) :
    f.tag ∈ wavFormats native ∧ f.bitwidth.bits = bits := by
  have hmem := (mem_compiletimeFormats f.tag).1 f.tag_mem
  unfold determineFormat at h
  split_ifs at h with hpcm h8 hfloat
  · obtain ⟨hn, hb, he⟩ := RuntimeFormat.ofBits_ok h
    refine ⟨?_, hb⟩
    rw [RuntimeFormat.tag, hn, he]
    cases hw : f.bitwidth with
    | _8bit => simp [wavFormats]
    | _16bit => rw [hw, h8] at hb; cases hb
    | _24bit => rw [hw, h8] at hb; cases hb
    | _32bit => rw [hw, h8] at hb; cases hb
    | _64bit => rw [hw, h8] at hb; cases hb
  · obtain ⟨hn, hb, he⟩ := RuntimeFormat.ofBits_ok h
    refine ⟨?_, hb⟩
    rw [RuntimeFormat.tag, hn, he]
    cases hw : f.bitwidth with
    | _8bit => rw [hw] at hb; exact absurd hb.symm h8
    | _16bit => simp [wavFormats]
    | _24bit => simp [wavFormats]
    | _32bit => simp [wavFormats]
    | _64bit => simp [wavFormats]
  · obtain ⟨hn, hb, he⟩ := RuntimeFormat.ofBits_ok h
    refine ⟨?_, hb⟩
    rcases hmem with hnot | hw | hw
    · exact absurd hn hnot
    · have hw : f.bitwidth = ._32bit := hw
      rw [RuntimeFormat.tag, hn, he, hw]
      simp [wavFormats]
    · have hw : f.bitwidth = ._64bit := hw
      rw [RuntimeFormat.tag, hn, he, hw]
      simp [wavFormats]

/-- The block align is that of a frame. -/
theorem blockAlign_of_toFmt {c : FmtChunk} {formatTag : ℕ} {x : Fmt} {info : WavIfstreamInfo}
    (hlt : c.blockAlign < 2 ^ 16) (halign : ¬ c.invalidBlockAlign)
    (h : c.toFmt native formatTag = .ok x) (hx : info.fmt = x) :
    info.format.tag ∈ wavFormats native ∧ info.bytesPerFrame = c.blockAlign := by
  obtain ⟨hformat, hch, -, -, hle, -⟩ := toFmt_ok h
  subst hx
  obtain ⟨hmem, hbits⟩ := determineFormat_ok hformat
  refine ⟨hmem, ?_⟩
  have hbytes : info.bitsPerSample = 8 * info.bytesPerSample := info.bitsPerSample_eq
  have hbits : info.bitsPerSample = c.bitsPerSample := hbits
  have hch : info.numChannels = c.numChannels := hch
  have hle : info.numChannels ≤ 255 := hle
  have hsample := info.bytesPerSample_le
  have hprod : info.bytesPerSample * info.numChannels ≤ 8 * 255 := Nat.mul_le_mul hsample hle
  unfold FmtChunk.invalidBlockAlign at halign
  rw [not_or, not_not] at halign
  have hcast : (c.bitsPerSample : ℤ) * c.numChannels =
      8 * (info.bytesPerSample * info.numChannels : ℕ) := by
    rw [← hbits, ← hch, hbytes]
    push_cast
    ring
  rw [hcast, Words.wrap_of_range (by omega) (by omega),
    Words.wrap_of_range (by omega) (by omega)] at halign
  rw [StreamInfo.bytesPerFrame_of_le _ (by omega)]
  omega

/-! ## Acceptance -/

section
variable {B : Content} {n o : ℕ} {tag : RiffTag}

theorem layout_get_lt {X : List UInt8} {p : ℕ} {c : FmtChunk}
    (h : (FmtChunk.layout native).get X p = some c) : c.blockAlign < 2 ^ 16 := by
  obtain ⟨-, -, rfl⟩ := Layout.get_eq_some h
  exact field_lt (slice X p (FmtChunk.layout native).size) 12 2

/-- What the last `fmt ` chunk says is made of what it begins with. -/
theorem lastFmtChunk_of_formatBefore {info : WavIfstreamInfo} {m : ℕ}
    (h : formatBefore native B.bytes n info) (hmn : m < n) (hm : isFmtAt native B.bytes m) :
    ∃ c formatTag, lastFmtChunk native B.bytes n c ∧ c.blockAlign < 2 ^ 16 ∧
      ¬ c.invalidBlockAlign ∧ c.toFmt native formatTag = .ok info.fmt := by
  rcases h with ⟨-, hno⟩ | ⟨k, hk, ⟨o, tag, f, ho, htag, hid, -, hread⟩, hlast⟩
  · exact absurd hm (hno m hmn)
  · obtain ⟨c, formatTag, hc, halign, hfmt⟩ := readFmtChunk_ok hread
    exact ⟨c, formatTag, ⟨k, hk, ⟨o, tag, ho, htag, hid, hc⟩, hlast⟩, layout_get_lt hc, halign,
      hfmt⟩

/-- The `data` chunk completes the info with its frames. -/
theorem sane_of_dataChunk {c : FmtChunk} {length formatTag : ℕ} {info info' : WavIfstreamInfo}
    (hlt : c.blockAlign < 2 ^ 16) (halign : ¬ c.invalidBlockAlign)
    (hfmt : c.toFmt native formatTag = .ok info.fmt) (hlength : length < 2 ^ 32)
    (hdata : dataChunk length info = .ok info') : Sane native c length info' := by
  obtain ⟨hformat, hframe⟩ := blockAlign_of_toFmt hlt halign hfmt rfl
  obtain ⟨-, -, -, hch, hch', hrate⟩ := toFmt_ok hfmt
  have hpos : 0 < info.bytesPerFrame := by
    unfold FmtChunk.invalidBlockAlign at halign
    omega
  obtain ⟨hle, hinfo⟩ := (dataChunk_ok length hpos).1 hdata
  have hsame : info'.bytesPerFrame = info.bytesPerFrame := by rw [hinfo]; rfl
  have hnum : info'.numFrames = length / info.bytesPerFrame := by rw [hinfo]
  have hch'' : info'.numChannels ≤ 2 ^ 60 := by
    rw [hinfo]
    exact hch'.trans (by decide)
  -- the frames, and what is left of the chunk
  have hdiv := Nat.div_add_mod' length info.bytesPerFrame
  have hmod := Nat.mod_lt length hpos
  have hframes : 1 ≤ length / info.bytesPerFrame := (Nat.one_le_div_iff hpos).2 hle
  have hbytes : info'.numBytes = length / info.bytesPerFrame * info.bytesPerFrame := by
    rw [IfstreamInfo.numBytes_of_lt _ (by rw [hsame, hnum]; omega) hch'', hsame, hnum]
  refine ⟨?_, ?_, ?_, ?_, ?_, by omega, by omega⟩
  all_goals rw [hinfo]
  exacts [⟨hch, hch'⟩, hrate, hformat, hframe, hframes]

/-- An info that is accepted over a file, behind a `fmt ` chunk. -/
theorem accepted_sane {m fuel : ℕ} {info : WavIfstreamInfo} {f : File}
    (hdata : DataAt native B.bytes n o tag) (hmn : m < n) (hfmt : isFmtAt native B.bytes m)
    (h : readWavHeader native fuel (⟨B.bytes, 0⟩ : File) = some (.ok (info, f))) :
    (∃ c, lastFmtChunk native B.bytes n c ∧ Sane native c tag.length info) ∧
      f = ⟨B.bytes, o + 8⟩ := by
  obtain ⟨-, n', o', tag', info₀, ho, htag, hid, hlen, hformat, hchunk, hf⟩ :=
    readWavHeader_accepted h
  obtain rfl := isDataAt_unique (B := B) ⟨o', tag', ho, htag, hid, hlen⟩
    ⟨o, tag, hdata.chunkOffset, hdata.tagAt, hdata.id, hdata.length⟩
  obtain rfl : o' = o := Option.some.inj (ho.symm.trans hdata.chunkOffset)
  obtain rfl : tag' = tag := Option.some.inj (htag.symm.trans hdata.tagAt)
  obtain ⟨c, formatTag, hlast, hlt, halign, hc⟩ := lastFmtChunk_of_formatBefore hformat hmn hfmt
  exact ⟨⟨c, hlast, sane_of_dataChunk hlt halign hc (tagAt_length_lt htag) hchunk⟩, hf⟩

end

/-- What the reader accepts from a device, and the view of the source on it, are
    those of the `data` chunk with the `n`-th header, which is at offset `o`. -/
def opensSane {δ : Type} [Source δ] (native : EndianType) (B : List UInt8) (n o : ℕ)
    (tag : RiffTag) (d : δ) : Prop :=
  (∀ fuel info s, readWavHeader native fuel (WavSource.unread native d) = some (.ok (info, s)) →
    ∃ c, lastFmtChunk native B n c ∧ Sane native c tag.length info) ∧
  ∀ fuel src, WavSource.construct native fuel d = some (.ok src) →
    src.view.beg = (o + 8 : ℕ) ∧ ∃ c, lastFmtChunk native B n c ∧ Sane native c tag.length src.info

theorem opensSane_of {δ : Type} [ExactSource δ] {B : Content} {m n o : ℕ} {tag : RiffTag} {d : δ}
    (hd : ByteSource.At B 0 d) (hdata : DataAt native B.bytes n o tag) (hmn : m < n)
    (hfmt : isFmtAt native B.bytes m) : opensSane native B.bytes n o tag d := by
  have hrel : Rel B (WavSource.unread native d) ⟨B.bytes, 0⟩ := ⟨rfl, at_wavSource native B hd⟩
  constructor
  · intro fuel info s h
    obtain ⟨f, hf, -⟩ := rel_ok_left (readWavHeader_sim native fuel hrel) h
    exact (accepted_sane hdata hmn hfmt hf).1
  · intro fuel src h
    obtain ⟨f, hf, -, hframes⟩ := construct_of_file hd h
    obtain ⟨hsane, rfl⟩ := accepted_sane hdata hmn hfmt hf
    exact ⟨hframes.view.beg_eq, hsane⟩

/-- **Sane headers.**  On every byte string in which a `fmt ` chunk comes before
    the `data` chunk, served by a container or a file: what is accepted is sane,
    and the view begins with the payload of the `data` chunk. -/
theorem opens_sane (native : EndianType) (B : Content) {m n o : ℕ} {tag : RiffTag}
    (hdata : DataAt native B.bytes n o tag) (hmn : m < n) (hfmt : isFmtAt native B.bytes m) :
    opensSane native B.bytes n o tag (Container.mk' B.bytes) ∧
      opensSane native B.bytes n o tag (File.opened B.bytes) :=
  ⟨opensSane_of (at_container B) hdata hmn hfmt, opensSane_of (at_opened B) hdata hmn hfmt⟩

/-- A WAVE file of 8 bit mono, and then of 16 bit stereo, with 6 bytes of data. -/
def respecifiedWav : List UInt8 :=
  [0x52, 0x49, 0x46, 0x46, 0x42, 0, 0, 0, 0x57, 0x41, 0x56, 0x45,
   0x66, 0x6D, 0x74, 0x20, 16, 0, 0, 0, 1, 0, 1, 0, 0x44, 0xAC, 0, 0, 0x44, 0xAC, 0, 0, 1, 0, 8, 0,
   0x66, 0x6D, 0x74, 0x20, 16, 0, 0, 0, 1, 0, 2, 0, 0x44, 0xAC, 0, 0, 0x10, 0xB1, 2, 0, 4, 0, 16, 0,
   0x64, 0x61, 0x74, 0x61, 6, 0, 0, 0, 1, 2, 3, 4, 5, 6]

theorem opens_sane_respecified :
    opensSane .littleEndian respecifiedWav 2 60 ⟨data, 6⟩ (Container.mk' respecifiedWav) ∧
      opensSane .littleEndian respecifiedWav 2 60 ⟨data, 6⟩ (File.opened respecifiedWav) :=
  opens_sane .littleEndian ⟨respecifiedWav, by decide⟩ (m := 1)
    ⟨by decide, by decide, rfl, by decide⟩ (by decide)
    ⟨36, ⟨fmt, 16⟩, by decide, by decide, rfl⟩

end NiMedia.Wav
