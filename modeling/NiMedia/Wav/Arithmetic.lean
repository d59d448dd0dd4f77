/-
  The integer operations of the WAV header reader on the fields of a file.

  Fields of 16 bits are promoted to `int`, offsets are computed in `uint32_t`,
  and what goes into the info in `size_t`.

  * `performs_exact_iff`: all operations are exact iff the headers and the
    chunks behind which the reader goes on end below 4 GiB, and no product of a
    bit width and a number of channels exceeds an `int`.
-/
import NiMedia.Wav.Explicit

namespace NiMedia.Wav

open Bytes Loop Simulation Words

section
variable (native : EndianType) (B : List UInt8)

/-- With the info `info`, the reader comes to the header `tag`, of a chunk that
    is not empty, at offset `o`. -/
structure ComesTo (info : WavIfstreamInfo) (o : ℕ) (tag : RiffTag) : Prop where
  isWave : isWave native B
  reached : ∃ n, steps (loopStep (pass native)) n
    (WavIfstreamInfo.default native, (⟨B, 12⟩ : File)) = some (info, ⟨B, o⟩)
  tagAt : tagAt native B o = some tag
  length : tag.length ≠ 0

/-- There, it reads `c` from a `fmt ` chunk. -/
structure ReadsFmt (info : WavIfstreamInfo) (o : ℕ) (tag : RiffTag) (c : FmtChunk) : Prop extends
    ComesTo native B info o tag where
  id : tag.id = fmt
  size : 16 ≤ tag.length
  get : (FmtChunk.layout native).get B (o + 8) = some c

/-- There, it finds the `data` chunk. -/
structure FindsData (info : WavIfstreamInfo) (o : ℕ) (tag : RiffTag) : Prop extends
    ComesTo native B info o tag where
  id : tag.id = data

/-- There, it counts the loops of a `smpl` chunk. -/
structure CountsLoops (info : WavIfstreamInfo) (o : ℕ) (tag : RiffTag) (c : SampleChunk) :
    Prop extends ComesTo native B info o tag where
  id : tag.id = smpl
  size : 36 ≤ tag.length
  get : (SampleChunk.layout native).get B (o + 8) = some c

/-- The operations on integers that the reader performs, and those on its info
    when the source is opened. -/
inductive Performs : Operation → Prop
  -- static_cast<uint32_t>( src.seek( 0, std::ios_base::cur ) )
  | currentOffset {info o tag} : ComesTo native B info o tag → Performs (.unsigned 32 (o + 8))
  -- fmtChunk.blockAlign == 0 || fmtChunk.blockAlign * 8 != fmtChunk.bitsPerSample * …
  | blockAlign {info o tag c} : ReadsFmt native B info o tag c → c.blockAlign ≠ 0 →
      Performs (.signed 32 (c.blockAlign * 8))
  | frameBits {info o tag c} : ReadsFmt native B info o tag c → c.blockAlign ≠ 0 →
      Performs (.signed 32 (c.bitsPerSample * c.numChannels))
  -- riffTag.length / info.bytes_per_frame()
  | bytesPerFrame {info o tag} : FindsData native B info o tag →
      Performs (.unsigned 64 (info.bytesPerSample * info.numChannels))
  | numFrames {info o tag} : FindsData native B info o tag →
      Performs ⟨(tag.length / info.bytesPerFrame : ℕ),
        (tag.length / (info.bytesPerSample * info.numChannels) : ℕ)⟩
  -- info.sample_rate() * info.num_channels() * info.bits_per_sample()
  | sampleRate {info info' o tag} : FindsData native B info o tag →
      dataChunk tag.length info = .ok info' →
      Performs (.unsigned 64 (info.sampleRate * info.numChannels))
  | bitRate {info info' o tag} : FindsData native B info o tag →
      dataChunk tag.length info = .ok info' →
      Performs (.unsigned 64 (info.sampleRate * info.numChannels * info.bitsPerSample))
  -- m_info.num_bytes()
  | numSamples {info info' o tag} : FindsData native B info o tag →
      dataChunk tag.length info = .ok info' →
      Performs (.unsigned 64 (info'.numFrames * info'.numChannels))
  | numBytes {info info' o tag} : FindsData native B info o tag →
      dataChunk tag.length info = .ok info' →
      Performs (.unsigned 64 (info'.numFrames * info'.numChannels * info'.bytesPerSample))
  -- ++i, for i < sampleChunk.sampleLoops
  | sampleLoop {info o tag c i} : CountsLoops native B info o tag c → (i : ℕ) < c.sampleLoops →
      Performs (.signed 32 (i + 1))
  -- currentOffset + riffTag.length + 1
  | chunkEnd {info o tag} : ComesTo native B info o tag → goesOn native B o tag = true →
      Performs (.unsigned 32 (o + 8 + tag.length))
  | nextChunk {info o tag} : ComesTo native B info o tag → goesOn native B o tag = true →
      Performs (.unsigned 32 (o + 8 + tag.length + 1))

/-- The headers on the walk, and the chunks behind which it goes on, end below
    4 GiB, and the bits of a frame fit into an `int`. -/
structure HeadersFit : Prop where
  header : ∀ n o tag, chunkOffset native B n = some o → tagAt native B o = some tag →
    tag.length ≠ 0 → o + 8 < 2 ^ 32
  chunk : ∀ n o tag, chunkOffset native B n = some o → tagAt native B o = some tag →
    tag.length ≠ 0 → goesOn native B o tag = true → o + 8 + tag.length + 1 < 2 ^ 32
  frameBits : ∀ n o tag c, chunkOffset native B n = some o → tagAt native B o = some tag →
    tag.id = fmt → 16 ≤ tag.length → (FmtChunk.layout native).get B (o + 8) = some c →
    c.blockAlign ≠ 0 → c.bitsPerSample * c.numChannels < 2 ^ 31

end

/-- The sum in the offset of the next chunk is the one that is performed. -/
theorem nextOffset_eq_operation (o length : ℕ) : nextOffset ((o + 8) % 2 ^ 32) length =
    (Operation.unsigned 32 (o + 8 + length + 1)).result.toNat &&& 0xfffffffe := by
  have hsum : ((o + 8) % 2 ^ 32 + length + 1) % 2 ^ 32 = (o + 8 + length + 1) % 2 ^ 32 := by omega
  rw [nextOffset, hsum]
  rfl

section
variable {native : EndianType}

theorem fmtChunk_lt {X : List UInt8} {p : ℕ} {c : FmtChunk}
    (h : (FmtChunk.layout native).get X p = some c) :
    c.blockAlign < 2 ^ 16 ∧ c.sampleRate < 2 ^ 32 := by
  obtain ⟨-, -, rfl⟩ := Layout.get_eq_some h
  exact ⟨field_lt _ _ _, field_lt _ _ _⟩

theorem sampleLoops_lt {X : List UInt8} {p : ℕ} {c : SampleChunk}
    (h : (SampleChunk.layout native).get X p = some c) : c.sampleLoops < 2 ^ 31 := by
  obtain ⟨-, -, hc⟩ := Layout.get_eq_some h
  have hloops := congrArg SampleChunk.sampleLoops hc
  simp only [SampleChunk.layout, signedField] at hloops
  rw [hloops]
  exact wrap_lt 31 _

variable {B : Content}

theorem formatBefore_sampleRate {n : ℕ} {info : WavIfstreamInfo}
    (h : formatBefore native B.bytes n info) : info.sampleRate < 2 ^ 32 := by
  rcases h with ⟨hdef, -⟩ | ⟨m, -, ⟨o, tag, f, -, -, -, -, hread⟩, -⟩
  · have hrate : info.sampleRate = 44100 := congrArg Fmt.sampleRate hdef
    omega
  · obtain ⟨c, formatTag, hc, -, hfmt⟩ := readFmtChunk_ok hread
    obtain ⟨-, -, hrate, -⟩ := toFmt_ok hfmt
    have hrate : info.sampleRate = c.sampleRate := hrate
    rw [hrate]
    exact (fmtChunk_lt hc).2

/-! ## Where the reader comes to -/

section
variable {info : WavIfstreamInfo} {o : ℕ} {tag : RiffTag}

theorem ComesTo.chunkOffset (h : ComesTo native B.bytes info o tag) :
    ∃ n, chunkOffset native B.bytes n = some o ∧ formatBefore native B.bytes n info := by
  obtain ⟨n, hn⟩ := h.reached
  exact ⟨n, (steps_chunkOffset hn).1, steps_formatBefore n _ hn⟩

theorem comesTo_of_chunkOffset (hw : isWave native B.bytes) {n : ℕ}
    (ho : chunkOffset native B.bytes n = some o) (htag : tagAt native B.bytes o = some tag)
    (hlen : tag.length ≠ 0) : ∃ info, ComesTo native B.bytes info o tag := by
  obtain ⟨info, hs⟩ := steps_of_chunkOffset ho
  exact ⟨info, hw, ⟨n, hs⟩, htag, hlen⟩

/-- The sizes of an info on the walk. -/
theorem ComesTo.sizes (h : ComesTo native B.bytes info o tag) :
    info.numChannels ≤ 255 ∧ info.sampleRate * info.numChannels ≤ 2 ^ 32 * 255 ∧
      info.bytesPerFrame = info.bytesPerSample * info.numChannels ∧ tag.length < 2 ^ 32 := by
  obtain ⟨n, -, hformat⟩ := h.chunkOffset
  obtain ⟨-, hch⟩ := formatBefore_numChannels hformat
  have hrate := formatBefore_sampleRate hformat
  exact ⟨hch, Nat.mul_le_mul hrate.le hch, info.bytesPerFrame_of_le (hch.trans (by decide)),
    tagAt_length_lt h.tagAt⟩

/-- The counts of an info that the `data` chunk completes. -/
theorem FindsData.counts (h : FindsData native B.bytes info o tag) {info' : WavIfstreamInfo}
    (hdata : dataChunk tag.length info = .ok info') :
    info'.numFrames * info'.numChannels ≤ 2 ^ 32 * 255 := by
  obtain ⟨hch, -, -, hlen⟩ := h.toComesTo.sizes
  unfold dataChunk at hdata
  split_ifs at hdata
  cases hdata
  exact Nat.mul_le_mul ((Nat.div_le_self _ _).trans hlen.le) hch

end

/-! ## Exactness -/

/-- Each operation is exact where the headers fit. -/
theorem Performs.isExact {op : Operation} (h : Performs native B.bytes op)
    (hfit : HeadersFit native B.bytes) : op.isExact := by
  cases h with
  | currentOffset h =>
    obtain ⟨n, ho, -⟩ := h.chunkOffset
    exact Operation.unsigned_isExact.2 (hfit.header n _ _ ho h.tagAt h.length)
  | blockAlign h hne =>
    have hlt := (fmtChunk_lt h.get).1
    exact Operation.signed_isExact.2 (by omega)
  | frameBits h hne =>
    obtain ⟨n, ho, -⟩ := h.chunkOffset
    exact Operation.signed_isExact.2 (hfit.frameBits n _ _ _ ho h.tagAt h.id h.size h.get hne)
  | @bytesPerFrame info _ _ h =>
    obtain ⟨hch, -⟩ := h.toComesTo.sizes
    have hle := Nat.mul_le_mul info.bytesPerSample_le hch
    exact Operation.unsigned_isExact.2 (by omega)
  | numFrames h =>
    obtain ⟨-, -, hframe, -⟩ := h.toComesTo.sizes
    rw [Operation.isExact, hframe]
  | sampleRate h hdata =>
    obtain ⟨-, hrate, -⟩ := h.toComesTo.sizes
    exact Operation.unsigned_isExact.2 (by omega)
  | @bitRate info _ _ _ h hdata =>
    obtain ⟨-, hrate, -⟩ := h.toComesTo.sizes
    have hle := Nat.mul_le_mul hrate info.bitsPerSample_lt.le
    exact Operation.unsigned_isExact.2 (by omega)
  | numSamples h hdata =>
    have hle := h.counts hdata
    exact Operation.unsigned_isExact.2 (by omega)
  | @numBytes _ info' _ _ h hdata =>
    have hle := Nat.mul_le_mul (h.counts hdata) info'.bytesPerSample_le
    exact Operation.unsigned_isExact.2 (by omega)
  | sampleLoop h hi =>
    have hlt := sampleLoops_lt h.get
    exact Operation.signed_isExact.2 (by omega)
  | chunkEnd h hgo =>
    obtain ⟨n, ho, -⟩ := h.chunkOffset
    have hlt := hfit.chunk n _ _ ho h.tagAt h.length hgo
    exact Operation.unsigned_isExact.2 (by omega)
  | nextChunk h hgo =>
    obtain ⟨n, ho, -⟩ := h.chunkOffset
    exact Operation.unsigned_isExact.2 (hfit.chunk n _ _ ho h.tagAt h.length hgo)

/-- The headers fit where the operations of the walk are exact. -/
theorem headersFit_of_exact (hw : isWave native B.bytes)
    (h : ∀ op, Performs native B.bytes op → op.isExact) : HeadersFit native B.bytes where
  header := by
    intro n o tag ho htag hlen
    obtain ⟨info, hcomes⟩ := comesTo_of_chunkOffset hw ho htag hlen
    exact Operation.unsigned_isExact.1 (h _ (.currentOffset hcomes))
  chunk := by
    intro n o tag ho htag hlen hgo
    obtain ⟨info, hcomes⟩ := comesTo_of_chunkOffset hw ho htag hlen
    exact Operation.unsigned_isExact.1 (h _ (.nextChunk hcomes hgo))
  frameBits := by
    intro n o tag c ho htag hid hsize hget hne
    obtain ⟨info, hcomes⟩ := comesTo_of_chunkOffset hw ho htag (by omega)
    exact Operation.signed_isExact.1 (h _ (.frameBits ⟨hcomes, hid, hsize, hget⟩ hne))

variable (native B) in
theorem performs_exact_iff :
    (∀ op, Performs native B.bytes op → op.isExact) ↔
      (isWave native B.bytes → HeadersFit native B.bytes) := by
  constructor
  · intro h hw
    exact headersFit_of_exact hw h
  · intro hfit op hop
    have hw : isWave native B.bytes := by
      cases hop with
      | currentOffset h | chunkEnd h _ | nextChunk h _ | blockAlign h _ | frameBits h _
      | bytesPerFrame h | numFrames h | sampleRate h _ | bitRate h _ | numSamples h _
      | numBytes h _ | sampleLoop h _ => exact h.isWave
    exact hop.isExact (hfit hw)

end

end NiMedia.Wav
