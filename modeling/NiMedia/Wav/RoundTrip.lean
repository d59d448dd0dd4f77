/-
  What the WAV reader makes of the files of the WAV sink.

  `wavFile` is the file that a sink leaves (`closedWav_eq`); the reader walks
  over its two chunks, and the result is that of `readBack`, a function of the
  info that was given to the sink and of the number of bytes that were written.

  * `wav_roundtrip`: if the header can express the info, the info and the data
    are read back.
-/
import NiMedia.Wav.Walk
import NiMedia.Wav.Sink

namespace NiMedia.Wav

open Bytes Loop Simulation

variable {native : EndianType} {info : StreamInfo} {D : List UInt8}

/-! ## The chunks of the file -/

/-- The `fmt ` chunk that the sink writes. -/
def writtenFmt (info : StreamInfo) : FmtChunk where
  formatTag := audioFormat info
  numChannels := numChannels info
  sampleRate := sampleRate info
  avgBytesPerSec := byteRate info
  blockAlign := blockAlign info
  bitsPerSample := info.bitsPerSample

theorem length_wavFile : (wavFile native info D).length = 44 + D.length := by
  rw [wavFile, List.length_append, length_wavHeader]

theorem isWave_wavFile : isWave native (wavFile native info D) := by
  refine ⟨by rw [length_wavFile]; omega, ?_, ?_⟩
  · simp (disch := simp) only [wavFile, wavHeader, List.append_assoc, slice_head,
      EndianType.ofBytes_toBytes]
    rfl
  · simp (disch := simp) only [wavFile, wavHeader, List.append_assoc, slice_head, slice_skip,
      EndianType.length_toBytes, Nat.reduceSub, EndianType.ofBytes_toBytes]
    rfl

theorem tagAt_fmt : tagAt native (wavFile native info D) 12 = some ⟨fmt, 16⟩ := by
  rw [tagAt, if_pos (by rw [length_wavFile]; omega)]
  simp (disch := simp) only [wavFile, wavHeader, List.append_assoc, slice_head, slice_skip,
    EndianType.length_toBytes, Nat.reduceSub, Nat.reduceAdd, EndianType.ofBytes_toBytes]
  rfl

theorem tagAt_data : tagAt native (wavFile native info D) 36 = some ⟨data, D.length % 2 ^ 32⟩ := by
  have hmod : D.length % 2 ^ 32 % 256 ^ 4 = D.length % 2 ^ 32 := Nat.mod_mod _ (2 ^ 32)
  rw [tagAt, if_pos (by rw [length_wavFile]; omega)]
  simp (disch := simp) only [wavFile, wavHeader, List.append_assoc, slice_head, slice_skip,
    EndianType.length_toBytes, Nat.reduceSub, Nat.reduceAdd, EndianType.ofBytes_toBytes, hmod]
  rfl

theorem audioFormat_lt (info : StreamInfo) : audioFormat info < 2 ^ 16 := by
  unfold audioFormat; split <;> decide

theorem get_fmtChunk :
    (FmtChunk.layout native).get (wavFile native info D) 20 = some (writtenFmt info) := by
  have h2 : ∀ n, n < 2 ^ 16 → n % 256 ^ 2 = n := fun n h => Nat.mod_eq_of_lt h
  have h4 : ∀ n, n < 2 ^ 32 → n % 256 ^ 4 = n := fun n h => Nat.mod_eq_of_lt h
  rw [Layout.get_of_le (by rw [length_wavFile]; change 20 + 16 ≤ _; omega)]
  simp only [FmtChunk.layout, field]
  simp (disch := simp) only [slice_slice, wavFile, wavHeader, List.append_assoc, slice_head,
    slice_skip, EndianType.length_toBytes, Nat.reduceSub, Nat.reduceAdd,
    EndianType.ofBytes_toBytes]
  rw [h2 _ (audioFormat_lt info), h2 (numChannels info) (Nat.mod_lt _ (by decide)),
    h4 (sampleRate info) (Nat.mod_lt _ (by decide)), h4 (byteRate info) (Nat.mod_lt _ (by decide)),
    h2 (blockAlign info) (Nat.mod_lt _ (by decide)), h2 _ (Nat.mod_lt _ (by decide)),
    Nat.mod_eq_of_lt info.bitsPerSample_lt]
  rfl

/-! ## Reading the file -/

/-- What the reader makes of the `fmt ` chunk that the sink writes. -/
def readBackFmt (native : EndianType) (info : StreamInfo) : Except RuntimeError Fmt :=
  if (writtenFmt info).invalidBlockAlign then .error ⟨"Invalid block align"⟩
  else (writtenFmt info).toFmt native (audioFormat info)

/-- What it makes of the file of `n` bytes of data. -/
def readBack (native : EndianType) (info : StreamInfo) (n : ℕ) :
    Except RuntimeError WavIfstreamInfo := do
  let f ← readBackFmt native info
  if n % 2 ^ 32 = 0 then throw ⟨"Could not read 'data' tag."⟩
  else dataChunk (n % 2 ^ 32) ((WavIfstreamInfo.default native).setFmt f)

theorem readFmtChunk_wavFile :
    readFmtChunk native 16 (⟨wavFile native info D, 20⟩ : File) =
      (readBackFmt native info).map fun f => (f, ⟨wavFile native info D, 36⟩) := by
  have hl : (slice (wavFile native info D) 20 16).length = 16 :=
    length_slice (by rw [length_wavFile]; omega)
  have hfetch : fetch (FmtChunk.layout native) (⟨wavFile native info D, 20⟩ : File) =
      .ok (some (writtenFmt info), ⟨wavFile native info D, 36⟩) := by
    rw [fetch_file, get_fmtChunk]
    simp only [FmtChunk.layout, hl]
  rw [readFmtChunk, if_neg (by decide), run_bind, hfetch, Except.bind, readBackFmt]
  simp only [run_ite]
  by_cases hinv : (writtenFmt info).invalidBlockAlign
  · rw [if_pos hinv, if_pos hinv]; rfl
  · rw [if_neg hinv, if_neg hinv, readExtension, if_neg (by decide), pure_bind, run_liftM]
    rfl

theorem pass_fmtChunk (i : WavIfstreamInfo) :
    pass native i (⟨wavFile native info D, 12⟩ : File) =
      (readBackFmt native info).map fun f =>
        (.again (i.setFmt f), ⟨wavFile native info D, 36⟩) := by
  have hnext : nextOffset ((12 + 8) % 2 ^ 32) 16 = 36 := by decide
  simp only [pass_file, tagAt_fmt, readChunk_fmt, hnext]
  rw [if_neg (by decide), show 12 + 8 = 20 from rfl, readFmtChunk_wavFile]
  cases readBackFmt native info <;> rfl

theorem pass_dataChunk (i : WavIfstreamInfo) :
    pass native i (⟨wavFile native info D, 36⟩ : File) =
      if D.length % 2 ^ 32 = 0 then .error ⟨"Could not read 'data' tag."⟩
      else
        (dataChunk (D.length % 2 ^ 32) i).map fun i =>
          (.done i, ⟨wavFile native info D, 44⟩) := by
  simp only [pass_file, tagAt_data, readChunk_data]
  refine if_congr Iff.rfl rfl ?_
  cases dataChunk (D.length % 2 ^ 32) i <;> rfl

/-- **Reading the file of a sink.** -/
theorem readWavHeader_wavFile (p : ℕ) :
    readWavHeader native 2 (⟨wavFile native info D, p⟩ : File) =
      some ((readBack native info D.length).map fun i => (i, ⟨wavFile native info D, 44⟩)) := by
  rw [readWavHeader_isWave isWave_wavFile, iterate, loopStep, pass_fmtChunk, readBack]
  cases readBackFmt native info with
  | error e => rfl
  | ok f =>
    simp only [Except.map, iterate, loopStep, pass_dataChunk, ok_bind]
    split_ifs
    · rfl
    · cases dataChunk (D.length % 2 ^ 32) ((WavIfstreamInfo.default native).setFmt f) <;> rfl

/-! ## What is read back -/

/-- The format that is read back: of integers, 8 bit ones are unsigned and in the
    byte order of the host, the others signed and little-endian; floating ones
    are little-endian. -/
def readFormat (native : EndianType) (f : RuntimeFormat) : RuntimeFormat :=
  if h : f.number = .floatingPoint then
    .ofTag ⟨.floatingPoint, f.bitwidth, .littleEndian⟩ <| (mem_compiletimeFormats _).2 <|
      Or.inr (((mem_compiletimeFormats _).1 f.tag_mem).resolve_left (absurd h))
  else if f.bitwidth = ._8bit then
    .ofTag ⟨.unsignedInteger, ._8bit, native⟩ ((mem_compiletimeFormats _).2 (Or.inl nofun))
  else
    .ofTag ⟨.signedInteger, f.bitwidth, .littleEndian⟩ ((mem_compiletimeFormats _).2 (Or.inl nofun))

theorem bitwidth_readFormat (f : RuntimeFormat) : (readFormat native f).bitwidth = f.bitwidth := by
  unfold readFormat
  split_ifs with _ h
  · rfl
  · exact h.symm
  · rfl

theorem determineFormat_written :
    determineFormat native (audioFormat info) info.bitsPerSample =
      .ok (readFormat native info.format) := by
  unfold determineFormat audioFormat readFormat StreamInfo.bitsPerSample
  by_cases h : info.format.number = .floatingPoint
  · rw [if_pos h, if_neg (by decide), if_pos rfl, dif_pos h]
    exact RuntimeFormat.ofBits_ofTag ⟨_, info.format.bitwidth, .littleEndian⟩ _
  · rw [if_neg h, if_pos rfl, dif_neg h]
    by_cases h8 : info.format.bitwidth = ._8bit
    · rw [if_pos (by rw [h8]; rfl), if_pos h8, h8]
      exact RuntimeFormat.ofBits_ofTag ⟨_, ._8bit, native⟩ _
    · have hne : info.format.bitwidth.bits ≠ 8 := by
        cases hb : info.format.bitwidth <;> first | exact absurd hb h8 | decide
      rw [if_neg hne, if_neg h8]
      exact RuntimeFormat.ofBits_ofTag ⟨_, info.format.bitwidth, .littleEndian⟩ _

variable (info) in
/-- The block align is valid iff it is not zero and did not overflow. -/
theorem invalidBlockAlign_written :
    ¬ (writtenFmt info).invalidBlockAlign ↔
      0 < numChannels info ∧ numChannels info * info.bytesPerSample < 2 ^ 16 := by
  have hch : numChannels info < 2 ^ 16 := Nat.mod_lt _ (by decide)
  have hpos := info.bytesPerSample_pos
  have hle := info.bytesPerSample_le
  have hprod : numChannels info * info.bytesPerSample ≤ 2 ^ 16 * 8 :=
    Nat.mul_le_mul hch.le hle
  have hpos' : 0 < numChannels info * info.bytesPerSample ↔ 0 < numChannels info :=
    ⟨Nat.pos_of_mul_pos_right, fun h => Nat.mul_pos h hpos⟩
  have hbits : info.bitsPerSample * numChannels info =
      8 * (numChannels info * info.bytesPerSample) := by
    rw [info.bitsPerSample_eq]; ring
  have halign : blockAlign info = numChannels info * info.bytesPerSample % 2 ^ 16 := by
    rw [blockAlign, sizeT_of_lt (by omega)]
  have h8 : ∀ n : ℕ, (n : ℤ) * 8 = (n * 8 : ℕ) := fun n => by push_cast; rfl
  simp only [FmtChunk.invalidBlockAlign, writtenFmt, h8, ← Nat.cast_mul, hbits, halign]
  generalize numChannels info * info.bytesPerSample = m at *
  rw [Words.wrap_of_range (by omega) (by omega), Words.wrap_of_range (by omega) (by omega)]
  omega

theorem FmtChunk.toFmt_ok {c : FmtChunk} {formatTag : ℕ} {format : RuntimeFormat} {f : Fmt}
    (h : determineFormat native formatTag c.bitsPerSample = .ok format) :
    c.toFmt native formatTag = .ok f ↔
      (1 ≤ c.numChannels ∧ c.numChannels ≤ 255 ∧ 1 ≤ c.sampleRate) ∧
        f = ⟨format, c.numChannels, c.sampleRate⟩ := by
  rw [FmtChunk.toFmt, h, ok_bind]
  by_cases hch : c.numChannels < 1 ∨ 255 < c.numChannels
  · rw [if_pos hch]
    exact ⟨nofun, fun ⟨⟨h1, h2, _⟩, _⟩ => by omega⟩
  · rw [if_neg hch]
    by_cases hrate : c.sampleRate < 1
    · rw [if_pos hrate]
      exact ⟨nofun, fun ⟨⟨_, _, h3⟩, _⟩ => by omega⟩
    · rw [if_neg hrate]
      constructor
      · rintro ⟨⟩; exact ⟨by omega, rfl⟩
      · rintro ⟨-, rfl⟩; rfl

/-- What the header that the sink writes says. -/
def headerFmt (native : EndianType) (info : StreamInfo) : Fmt :=
  ⟨readFormat native info.format, numChannels info, sampleRate info⟩

theorem readBackFmt_ok {f : Fmt} :
    readBackFmt native info = .ok f ↔
      (1 ≤ numChannels info ∧ numChannels info ≤ 255 ∧ 1 ≤ sampleRate info) ∧
        f = headerFmt native info := by
  have hle := info.bytesPerSample_le
  have hvalid := invalidBlockAlign_written info
  unfold readBackFmt
  by_cases hinv : (writtenFmt info).invalidBlockAlign
  · rw [if_pos hinv]
    refine ⟨nofun, fun ⟨⟨h1, h2, _⟩, _⟩ => absurd hinv (hvalid.2 ⟨h1, ?_⟩)⟩
    have := Nat.mul_le_mul h2 hle
    omega
  · rw [if_neg hinv]
    exact FmtChunk.toFmt_ok (c := writtenFmt info) determineFormat_written

theorem dataChunk_ok (length : ℕ) {i i' : WavIfstreamInfo} (hpos : 0 < i.bytesPerFrame) :
    dataChunk length i = .ok i' ↔ i.bytesPerFrame ≤ length ∧ i' = { i with
      numFrames := length / i.bytesPerFrame
      bitRate := sizeT (i.sampleRate * i.numChannels * i.bitsPerSample) } := by
  have hframe : length / i.bytesPerFrame < 1 ↔ length < i.bytesPerFrame := by
    rw [Nat.div_lt_iff_lt_mul hpos, Nat.one_mul]
  rw [dataChunk, if_neg (show ¬ _ = 0 by omega)]
  by_cases h : length / i.bytesPerFrame < 1
  · rw [if_pos h]
    exact ⟨nofun, fun h' => by omega⟩
  · rw [if_neg h]
    constructor
    · rintro ⟨⟩; exact ⟨by omega, rfl⟩
    · rintro ⟨-, rfl⟩; rfl

/-- The info that is read back. -/
def headerInfo (native : EndianType) (info : StreamInfo) (n : ℕ) : WavIfstreamInfo :=
  { (WavIfstreamInfo.default native).setFmt (headerFmt native info) with
    numFrames := n % 2 ^ 32 / (info.bytesPerSample * numChannels info)
    bitRate := sizeT (sampleRate info * numChannels info *
      (readFormat native info.format).bitwidth.bits) }

variable (native info) in
theorem bytesPerFrame_headerInfo (n : ℕ) (h : numChannels info ≤ 255) :
    (headerInfo native info n).bytesPerFrame = info.bytesPerSample * numChannels info := by
  have hbytes : (headerInfo native info n).bytesPerSample = info.bytesPerSample :=
    congrArg (fun b => b.bits / 8) (bitwidth_readFormat info.format)
  have hch : (headerInfo native info n).numChannels = numChannels info := rfl
  rw [StreamInfo.bytesPerFrame_of_le _ (by omega), hbytes, hch]

theorem readBack_ok {n : ℕ} {i : WavIfstreamInfo} :
    readBack native info n = .ok i ↔
      (1 ≤ numChannels info ∧ numChannels info ≤ 255 ∧ 1 ≤ sampleRate info ∧
        info.bytesPerSample * numChannels info ≤ n % 2 ^ 32) ∧ i = headerInfo native info n := by
  unfold readBack
  cases hf : readBackFmt native info with
  | error e =>
    constructor
    · exact nofun
    · rintro ⟨⟨h1, h2, h3, -⟩, -⟩
      rw [readBackFmt_ok.2 ⟨⟨h1, h2, h3⟩, rfl⟩] at hf
      cases hf
  | ok f =>
    obtain ⟨⟨h1, h2, h3⟩, rfl⟩ := readBackFmt_ok.1 hf
    have hpos : 0 < info.bytesPerSample * numChannels info :=
      Nat.mul_pos info.bytesPerSample_pos h1
    have hframe : ((WavIfstreamInfo.default native).setFmt (headerFmt native info)).bytesPerFrame =
        info.bytesPerSample * numChannels info := bytesPerFrame_headerInfo native info n h2
    have hdata : dataChunk (n % 2 ^ 32) _ = .ok i ↔ _ := dataChunk_ok _ (hframe ▸ hpos)
    rw [hframe] at hdata
    rw [ok_bind]
    by_cases hn : n % 2 ^ 32 = 0
    · rw [if_pos hn]
      constructor
      · exact nofun
      · rintro ⟨⟨-, -, -, h4⟩, -⟩
        omega
    · rw [if_neg hn, hdata]
      constructor
      · rintro ⟨h4, h5⟩
        exact ⟨⟨h1, h2, h3, h4⟩, h5⟩
      · rintro ⟨⟨-, -, -, h4⟩, h5⟩
        exact ⟨h4, h5⟩

/-! ## The source on the file -/

/-- The file of a sink, as a content. -/
def wavContent (native : EndianType) (info : StreamInfo) (D : List UInt8)
    (h : 44 + D.length + 1 < 2 ^ 63) : Content where
  bytes := wavFile native info D
  fits := by rw [length_wavFile]; exact h

variable (native info) in
/-- The header reader of a source on the file. -/
theorem readWavHeader_unread (h : 44 + D.length + 1 < 2 ^ 63) :
    Option.Rel (Agree fun x y => x.1 = y.1 ∧ Rel (wavContent native info D h) x.2 y.2)
      (readWavHeader native 2 (WavSource.unread native (File.opened (wavFile native info D))))
      (some ((readBack native info D.length).map fun i => (i, ⟨wavFile native info D, 44⟩))) := by
  have hrel : Rel (wavContent native info D h)
      (WavSource.unread native (File.opened (wavFile native info D))) ⟨wavFile native info D, 0⟩ :=
    ⟨rfl, at_wavSource native _ (at_opened (wavContent native info D h))⟩
  have hsim := readWavHeader_sim native 2 hrel
  rwa [readWavHeader_wavFile] at hsim

/-- **What the reader says** of the file of a sink. -/
theorem reads_iff (h : 44 + D.length + 1 < 2 ^ 63) {P : WavIfstreamInfo → Prop} :
    (∃ fuel i s, readWavHeader native fuel
        (WavSource.unread native (File.opened (wavFile native info D))) = some (.ok (i, s)) ∧ P i) ↔
      (1 ≤ numChannels info ∧ numChannels info ≤ 255 ∧ 1 ≤ sampleRate info ∧
        info.bytesPerSample * numChannels info ≤ D.length % 2 ^ 32) ∧
          P (headerInfo native info D.length) := by
  have hrel : Rel (wavContent native info D h)
      (WavSource.unread native (File.opened (wavFile native info D))) ⟨wavFile native info D, 0⟩ :=
    ⟨rfl, at_wavSource native _ (at_opened (wavContent native info D h))⟩
  rw [runs_iff (fun fuel => readWavHeader_sim native fuel hrel) (readWavHeader_mono native _)
    (readWavHeader_wavFile 0)]
  constructor
  · rintro ⟨i, f, hr, hP⟩
    cases hb : readBack native info D.length with
    | error e => rw [hb] at hr; cases hr
    | ok i' =>
      rw [hb] at hr
      cases hr
      obtain ⟨hok, rfl⟩ := readBack_ok.1 hb
      exact ⟨hok, hP⟩
  · rintro ⟨hok, hP⟩
    exact ⟨_, _, by rw [readBack_ok.2 ⟨hok, rfl⟩]; rfl, hP⟩

/-- The formats that a WAV header can express. -/
def wavFormats (native : EndianType) : List CompiletimeFormat :=
  [⟨.unsignedInteger, ._8bit, native⟩,
   ⟨.signedInteger, ._16bit, .littleEndian⟩,
   ⟨.signedInteger, ._24bit, .littleEndian⟩,
   ⟨.signedInteger, ._32bit, .littleEndian⟩,
   ⟨.signedInteger, ._64bit, .littleEndian⟩,
   ⟨.floatingPoint, ._32bit, .littleEndian⟩,
   ⟨.floatingPoint, ._64bit, .littleEndian⟩]

theorem readFormat_self {f : RuntimeFormat} (h : f.tag ∈ wavFormats native) :
    readFormat native f = f := by
  refine RuntimeFormat.tag_injective ?_
  obtain ⟨number, bitwidth, endian, index, hindex⟩ := f
  simp only [RuntimeFormat.tag, wavFormats, List.mem_cons, CompiletimeFormat.mk.injEq,
    List.not_mem_nil, or_false] at h
  rcases h with ⟨rfl, rfl, rfl⟩ | ⟨rfl, rfl, rfl⟩ | ⟨rfl, rfl, rfl⟩ | ⟨rfl, rfl, rfl⟩ |
    ⟨rfl, rfl, rfl⟩ | ⟨rfl, rfl, rfl⟩ | ⟨rfl, rfl, rfl⟩ <;> rfl

variable (native info) in
/-- The source that a constructor leaves on the file. -/
theorem construct_wavFile (h : 44 + D.length + 1 < 2 ^ 63)
    (hok : 1 ≤ numChannels info ∧ numChannels info ≤ 255 ∧ 1 ≤ sampleRate info ∧
      info.bytesPerSample * numChannels info ≤ D.length % 2 ^ 32) :
    ∃ pos, WavSource.construct native 2 (File.opened (wavFile native info D)) =
      some (.ok
        ⟨⟨⟨wavFile native info D, pos⟩, 44, 44 + (headerInfo native info D.length).numBytes⟩,
          headerInfo native info D.length⟩) := by
  have hsim := readWavHeader_unread native info h
  rw [readBack_ok.2 ⟨hok, rfl⟩] at hsim
  obtain ⟨s, hs, -, hat⟩ := rel_ok_right hsim rfl
  have hlen : (44 : ℕ) ≤ (wavContent native info D h).bytes.length :=
    (Nat.le_add_right 44 D.length).trans (le_of_eq length_wavFile.symm)
  exact construct_file (readWavHeader native 2) (B := wavContent native info D h) hs hat hlen

/-- **The round trip.**  If the header can express the info, the file of any
    sequence of writes is read back with this info, and the view of the source
    on it covers what was written. -/
theorem wav_roundtrip (native : EndianType) (info : StreamInfo)
    (hformat : info.format.tag ∈ wavFormats native)
    (hch : 1 ≤ info.numChannels ∧ info.numChannels ≤ 255)
    (hrate : 1 ≤ info.sampleRate ∧ info.sampleRate < 2 ^ 32) (ws : List (List UInt8))
    (hne : ws.flatten ≠ []) (hframes : info.bytesPerFrame ∣ ws.flatten.length)
    (hsize : 44 + ws.flatten.length < 2 ^ 32) :
    ∃ file fuel i s source, closedWav native info ws = .ok file ∧
      readWavHeader native fuel (WavSource.unread native (File.opened file)) = some (.ok (i, s)) ∧
      i.format = info.format ∧ i.numChannels = info.numChannels ∧
      i.sampleRate = info.sampleRate ∧
      i.numFrames = ws.flatten.length / info.bytesPerFrame ∧
      WavSource.construct native fuel (File.opened file) = some (.ok source) ∧
      source.view.device.bytes = file ∧ source.view.bytes = ws.flatten := by
  generalize hD : ws.flatten = D at *
  have hfits : 44 + D.length + 1 < 2 ^ 63 := by omega
  have hclosed := closedWav_eq native info ws (by rw [hD]; omega)
  rw [hD] at hclosed
  have hnum : numChannels info = info.numChannels := Nat.mod_eq_of_lt (by omega)
  have hrate' : sampleRate info = info.sampleRate := Nat.mod_eq_of_lt hrate.2
  have hmod : D.length % 2 ^ 32 = D.length := Nat.mod_eq_of_lt (by omega)
  have hframe : info.bytesPerFrame = info.bytesPerSample * info.numChannels :=
    info.bytesPerFrame_of_le (by omega)
  have hle : info.bytesPerFrame ≤ D.length :=
    Nat.le_of_dvd (List.length_pos_of_ne_nil hne) hframes
  have hok : 1 ≤ numChannels info ∧ numChannels info ≤ 255 ∧ 1 ≤ sampleRate info ∧
      info.bytesPerSample * numChannels info ≤ D.length % 2 ^ 32 := by
    rw [hnum, hrate', hmod, ← hframe]
    exact ⟨hch.1, hch.2, hrate.1, hle⟩
  have hnumFrames : (headerInfo native info D.length).numFrames =
      D.length / info.bytesPerFrame := by
    rw [headerInfo, hmod, hframe, hnum]
  have hnumBytes : (headerInfo native info D.length).numBytes = D.length := by
    have hbytes := bytesPerFrame_headerInfo native info D.length hok.2.1
    rw [hnum, ← hframe] at hbytes
    refine IfstreamInfo.numBytes_of_dvd _ ?_ ?_ (by omega) (le_trans hok.2.1 (by decide))
    · rw [hnumFrames, hbytes]
    · rw [hbytes]
      exact hframes
  have hsim := readWavHeader_unread native info hfits
  rw [readBack_ok.2 ⟨hok, rfl⟩] at hsim
  obtain ⟨s, hs, -⟩ := rel_ok_right hsim rfl
  obtain ⟨pos, hconstruct⟩ := construct_wavFile native info hfits hok
  refine ⟨_, 2, headerInfo native info D.length, s, _, hclosed, hs, readFormat_self hformat, hnum,
    hrate', hnumFrames, hconstruct, rfl, ?_⟩
  rw [hnumBytes]
  exact Subview.bytes_append (by rw [length_wavHeader]; rfl) (by rw [length_wavHeader]; rfl)

/-- Signed 16 bit little-endian stereo. -/
def s16leStereo : StreamInfo where
  numChannels := 2
  format := .ofTag ⟨.signedInteger, ._16bit, .littleEndian⟩ (by decide)

theorem wav_roundtrip_s16le :
    ∃ file fuel i s source, closedWav .littleEndian s16leStereo [[1, 2, 3], [], [4]] = .ok file ∧
      readWavHeader .littleEndian fuel (WavSource.unread .littleEndian (File.opened file)) =
        some (.ok (i, s)) ∧
      i.format = s16leStereo.format ∧ i.numChannels = 2 ∧ i.sampleRate = 44100 ∧ i.numFrames = 1 ∧
      WavSource.construct .littleEndian fuel (File.opened file) = some (.ok source) ∧
      source.view.device.bytes = file ∧ source.view.bytes = [1, 2, 3, 4] :=
  wav_roundtrip .littleEndian s16leStereo (by decide) (by decide) (by decide) [[1, 2, 3], [], [4]]
    (by decide) (by decide) (by decide)

end NiMedia.Wav
