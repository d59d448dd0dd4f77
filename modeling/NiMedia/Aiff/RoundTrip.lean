/-
  What the AIFF reader makes of the files of the AIFF sink.

  `aiffFile` is the file that a sink leaves (`closedAiff_eq`); below 4 GiB, each
  of the walks of the reader goes over its two chunks, and the result is that of
  `readBack`.

  * `aiff_roundtrip`: the info and the data are read back.
-/
import NiMedia.Aiff.Walk
import NiMedia.Aiff.Sink

namespace NiMedia.Aiff

open Bytes Loop Simulation

variable {P : Platform} {native : EndianType} {info : StreamInfo} {d : HeaderData P info}
  {D : List UInt8} {o : ℕ}

/-! ## The chunks of the file -/

/-- The number of frames that the header says. -/
def writtenFrames (info : StreamInfo) (n : ℕ) : ℕ := n % 2 ^ 32 / frameSize info % 2 ^ 32

/-- The `COMM` chunk that the sink writes. -/
def writtenComm (d : HeaderData P info) (n : ℕ) : CommonChunk where
  numChannels := numChannels info
  numSampleFrames := writtenFrames info n
  sampleSize := info.bitsPerSample
  extSampleRate := d.rate

theorem length_aiffFile : (aiffFile d D).length = 58 + D.length := by
  rw [aiffFile, List.length_append, length_aiffHeader]

theorem isForm_aiffFile : isForm (aiffFile d D) := by
  refine ⟨by rw [length_aiffFile]; omega, ?_⟩
  simp (disch := simp) only [field, aiffFile, aiffHeader, List.append_assoc, slice_head, big32,
    EndianType.ofBytes_toBytes]
  rfl

theorem subTypeOf_aiffFile : subTypeOf (aiffFile d D) = aifc := by
  simp (disch := simp) only [subTypeOf, field, aiffFile, aiffHeader, List.append_assoc, slice_head,
    slice_skip, length_big32, Nat.reduceSub]
  rw [big32, EndianType.ofBytes_toBytes]
  rfl

theorem tagAt_comm : tagAt (aiffFile d D) 12 = some ⟨comm, 22⟩ := by
  rw [tagAt, if_pos (by rw [length_aiffFile]; omega)]
  simp (disch := simp) only [field, aiffFile, aiffHeader, List.append_assoc, slice_head,
    slice_skip, length_big32, Nat.reduceSub, Nat.reduceAdd]
  rw [big32, big32, EndianType.ofBytes_toBytes, EndianType.ofBytes_toBytes]
  rfl

theorem tagAt_ssnd : tagAt (aiffFile d D) 42 = some ⟨ssnd, (D.length + 8) % 2 ^ 32⟩ := by
  have hmod : (D.length + 8) % 2 ^ 32 % 256 ^ 4 = (D.length + 8) % 2 ^ 32 := Nat.mod_mod _ (2 ^ 32)
  have hrate := d.length_rate
  rw [tagAt, if_pos (by rw [length_aiffFile]; omega)]
  simp (disch := simp [hrate]) only [field, aiffFile, aiffHeader, List.append_assoc, slice_head,
    slice_skip, length_big32, length_big16, hrate, Nat.reduceSub, Nat.reduceAdd]
  rw [big32, big32, EndianType.ofBytes_toBytes, EndianType.ofBytes_toBytes, hmod]
  rfl

theorem tagAt_end (h : 58 + D.length ≤ o) : tagAt (aiffFile d D) o = none := by
  rw [tagAt, if_neg (by rw [length_aiffFile]; omega)]

theorem get_commonChunk :
    CommonChunk.layout.get (aiffFile d D) 20 = some (writtenComm d D.length) := by
  have h2 : ∀ n, n < 2 ^ 16 → n % 256 ^ 2 = n := fun n h => Nat.mod_eq_of_lt h
  have h4 : ∀ n, n < 2 ^ 32 → n % 256 ^ 4 = n := fun n h => Nat.mod_eq_of_lt h
  have hrate := d.length_rate
  rw [Layout.get_of_le (by rw [length_aiffFile]; change 20 + 18 ≤ _; omega)]
  simp only [CommonChunk.layout, field]
  simp (disch := simp [hrate]) only [slice_slice, aiffFile, aiffHeader, List.append_assoc,
    slice_head, slice_skip, length_big32, length_big16, Nat.reduceSub, Nat.reduceAdd]
  rw [big16, big16, big32, EndianType.ofBytes_toBytes, EndianType.ofBytes_toBytes,
    EndianType.ofBytes_toBytes, h2 (numChannels info) (Nat.mod_lt _ (by decide)),
    h2 _ (info.bitsPerSample_lt), h4 _ (Nat.mod_lt _ (by decide))]
  rfl

/-! ## The format that is read back -/

/-- Signed integers keep their byte order; the others are read back as
    big-endian ones. -/
def readEndian (f : RuntimeFormat) : EndianType :=
  if f.number = .signedInteger then f.endian else .bigEndian

def readFormat (f : RuntimeFormat) : RuntimeFormat :=
  .ofTag ⟨f.number, f.bitwidth, readEndian f⟩ <| (mem_compiletimeFormats _).2 <|
    (mem_compiletimeFormats f.tag).1 f.tag_mem

/-- What the tag of a format says. -/
def encoding (f : RuntimeFormat) : Encoding := ⟨f.number, f.bitwidth.bits, readEndian f⟩

variable (native) in
/-- **The tables** of the sink and of the reader agree, up to the byte order. -/
theorem determineEncoding_tag {f : RuntimeFormat} {tag : ℕ} (h : formatToTag f = some tag) :
    determineEncoding native tag f.bitwidth.bits = .ok (encoding f) := by
  unfold formatToTag at h
  unfold encoding readEndian
  cases hn : f.number with
  | signedInteger =>
    simp only [hn] at h
    split_ifs at h with hb he
    · cases h
      rw [if_pos rfl, he]
      rfl
    · cases h
      cases hx : f.endian with
      | bigEndian => rw [if_pos rfl]; rfl
      | littleEndian => exact absurd hx he
  | unsignedInteger =>
    simp only [hn] at h
    split_ifs at h
    cases h
    rfl
  | floatingPoint =>
    simp only [hn] at h
    split_ifs at h with hb hb <;> cases h <;> rw [hb] <;> rfl

theorem formatToTag_lt {f : RuntimeFormat} {tag : ℕ} (h : formatToTag f = some tag) :
    tag < 2 ^ 32 := by
  unfold formatToTag at h
  split at h <;> split_ifs at h <;> cases h <;> decide

/-! ## Reading the file -/

/-- What the reader makes of the `COMM` chunk that the sink writes. -/
def readBack (d : HeaderData P info) (n : ℕ) : Except RuntimeError Comm :=
  (writtenComm d n).toComm P (encoding info.format)

theorem readCommonChunk_aiffFile :
    readCommonChunk P native aifc 22 (⟨aiffFile d D, 20⟩ : File) =
      (readBack d D.length).map fun c => (c, ⟨aiffFile d D, 42⟩) := by
  have hl : (slice (aiffFile d D) 20 18).length = 18 :=
    length_slice (by rw [length_aiffFile]; omega)
  have hfetch : fetch CommonChunk.layout (⟨aiffFile d D, 20⟩ : File) =
      .ok (some (writtenComm d D.length), ⟨aiffFile d D, 38⟩) := by
    rw [fetch_file, get_commonChunk]
    simp only [CommonChunk.layout, hl]
  have htag : field .bigEndian (aiffFile d D) 38 4 = d.tag := by
    have hrate := d.length_rate
    simp (disch := simp [hrate]) only [field, aiffFile, aiffHeader, List.append_assoc, slice_head,
      slice_skip, length_big32, length_big16, hrate, Nat.reduceSub]
    rw [big32, EndianType.ofBytes_toBytes]
    exact Nat.mod_eq_of_lt (formatToTag_lt d.tag_eq)
  have hcompression : fetch bigUint32 (⟨aiffFile d D, 38⟩ : File) =
      .ok (some d.tag, ⟨aiffFile d D, 42⟩) := by
    rw [bigUint32, fetch_uint32 (by rw [length_aiffFile]; omega), htag]
  rw [readCommonChunk, if_neg (by decide), run_bind, hfetch, Except.bind]
  simp only [readEncoding, if_true, if_neg (show ¬ 18 + 4 < 22 by decide), run_bind, hcompression,
    Except.bind, run_liftM]
  have hencoding := determineEncoding_tag native d.tag_eq
  simp only [writtenComm, StreamInfo.bitsPerSample, hencoding]
  rfl

/-- The first walk goes over the `COMM` chunk, -/
theorem firstPass_comm (s : Found) :
    firstPass P native aifc s (⟨aiffFile d D, 12⟩ : File) =
      (readBack d D.length).map fun c =>
        (.again ⟨s.info.setComm c, true⟩, ⟨aiffFile d D, 42⟩) := by
  have htarget : target ((12 + 8) % 2 ^ 32) 22 = 42 := by decide
  rw [firstPass_chunk tagAt_comm, readChunk, if_pos rfl, run_bind, readCommonChunk_aiffFile]
  simp only [htarget]
  cases readBack d D.length <;> rfl

variable (native d) in
/-- over the `SSND` chunk, -/
theorem firstPass_ssnd (h : 58 + D.length < 2 ^ 32) (s : Found) :
    ∃ o, 58 + D.length ≤ o ∧ firstPass P native aifc s (⟨aiffFile d D, 42⟩ : File) =
      .ok (.again s, ⟨aiffFile d D, o⟩) := by
  refine ⟨target ((42 + 8) % 2 ^ 32) ((D.length + 8) % 2 ^ 32), ?_, ?_⟩
  · unfold target
    split_ifs <;> omega
  · have hcomm : ssnd ≠ comm := by decide
    have hmark : ssnd ≠ mark := by decide
    have hinst : ssnd ≠ inst := by decide
    rw [firstPass_chunk tagAt_ssnd, readChunk, if_neg hcomm, if_neg hmark, if_neg hinst]
    rfl

variable (native d) in
/-- and to the end of the file. -/
theorem firstWalk_aiffFile (h : 58 + D.length < 2 ^ 32) (s : Found) :
    ∃ p, iterate (loopStep (firstPass P native aifc)) 3 (s, (⟨aiffFile d D, 12⟩ : File)) =
      some ((readBack d D.length).map fun c => (⟨s.info.setComm c, true⟩, ⟨aiffFile d D, p⟩)) := by
  rw [iterate, loopStep, firstPass_comm]
  cases readBack d D.length with
  | error e => exact ⟨0, rfl⟩
  | ok c =>
    obtain ⟨o, ho, hssnd⟩ := firstPass_ssnd native d h ⟨s.info.setComm c, true⟩
    obtain ⟨p, hend⟩ := firstPass_end P native aifc ⟨s.info.setComm c, true⟩
      (tagAt_end (d := d) ho)
    refine ⟨p, ?_⟩
    simp only [Except.map, iterate, loopStep, hssnd, hend]

theorem get_soundDataChunk :
    SoundDataChunk.layout.get (aiffFile d D) 50 = some ⟨0, 0⟩ := by
  have hrate := d.length_rate
  rw [Layout.get_of_le (by rw [length_aiffFile]; change 50 + 8 ≤ _; omega)]
  simp only [SoundDataChunk.layout, field]
  simp (disch := simp [hrate]) only [slice_slice, aiffFile, aiffHeader, List.append_assoc,
    slice_head, slice_skip, length_big32, length_big16, hrate, Nat.reduceSub, Nat.reduceAdd]
  rw [big32, EndianType.ofBytes_toBytes]
  rfl

theorem secondPass_aiffFile :
    secondPass () (⟨aiffFile d D, 42⟩ : File) = .ok (.done (), ⟨aiffFile d D, 58⟩) := by
  have hl : (slice (aiffFile d D) 50 8).length = 8 :=
    length_slice (by rw [length_aiffFile]; omega)
  have hfetch : fetch SoundDataChunk.layout (⟨aiffFile d D, 50⟩ : File) =
      .ok (some ⟨0, 0⟩, ⟨aiffFile d D, 58⟩) := by
    rw [fetch_file, get_soundDataChunk]
    simp only [SoundDataChunk.layout, hl]
  have hseek : (seek ((0 : ℕ) : ℤ) .cur : Io File ℤ) ⟨aiffFile d D, 58⟩ =
      .ok (58, ⟨aiffFile d D, 58⟩) := congrArg Except.ok (File.seek_cur 0 ⟨aiffFile d D, 58⟩)
  obtain ⟨r, htell, -⟩ := tell_header (aiffFile d D) 42
  simp only [secondPass, run_bind, fetchTag_some tagAt_ssnd, Except.bind, htell, if_true, hfetch,
    hseek, run_pure]

theorem secondWalk_aiffFile :
    iterate (loopStep secondPass) 3 ((), (⟨aiffFile d D, 12⟩ : File)) =
      some (.ok ((), ⟨aiffFile d D, 58⟩)) := by
  have htarget : target ((12 + 8) % 2 ^ 32) 22 = 42 := by decide
  have hcomm := secondPass_chunk (tagAt_comm (d := d) (D := D)) (by decide)
  rw [htarget] at hcomm
  simp only [iterate, loopStep, hcomm, secondPass_aiffFile]

/-- The info that is read back. -/
def headerInfo (native : EndianType) (c : Comm) : AiffIfstreamInfo :=
  ((AiffIfstreamInfo.default native).setComm c).setBitRate

/-- **Reading the file of a sink.** -/
theorem readAiffHeader_aiffFile (h : 58 + D.length < 2 ^ 32) (p : ℕ) :
    readAiffHeader P native 3 (⟨aiffFile d D, p⟩ : File) =
      some ((readBack d D.length).map fun c => (headerInfo native c, ⟨aiffFile d D, 58⟩)) := by
  obtain ⟨q, hfirst⟩ := firstWalk_aiffFile native d h ⟨AiffIfstreamInfo.default native, false⟩
  rw [readAiffHeader_isForm isForm_aiffFile, subTypeOf_aiffFile, hfirst]
  cases readBack d D.length with
  | error e => rfl
  | ok c =>
    simp only [Except.map, andThen_ok, findSoundData, startAgain_file, if_true,
      secondWalk_aiffFile]
    rfl

/-! ## What is read back -/

theorem CommonChunk.toComm_ok {c : CommonChunk} {e : Encoding} {format : RuntimeFormat} {x : Comm}
    (h : RuntimeFormat.ofBits e.numberType e.bitWidth e.endian = .ok format) :
    c.toComm P e = .ok x ↔
      (1 ≤ c.numSampleFrames ∧ 1 ≤ c.numChannels ∧ c.numChannels ≤ 255 ∧
        (ieee80ToDouble c.extSampleRate).le (Double.ofNat 0) = false) ∧
        x = ⟨format, c.numChannels, c.numSampleFrames,
          P.ulong (ieee80ToDouble c.extSampleRate)⟩ := by
  rw [CommonChunk.toComm, h, ok_bind]
  by_cases hframes : c.numSampleFrames < 1
  · rw [if_pos hframes]
    exact ⟨nofun, fun ⟨⟨h1, _⟩, _⟩ => by omega⟩
  · rw [if_neg hframes]
    by_cases hch : c.numChannels < 1 ∨ 255 < c.numChannels
    · rw [if_pos hch]
      exact ⟨nofun, fun ⟨⟨_, h2, h3, _⟩, _⟩ => by omega⟩
    · rw [if_neg hch]
      cases hrate : (ieee80ToDouble c.extSampleRate).le (Double.ofNat 0) with
      | true =>
        simp only [hrate, if_true]
        exact ⟨nofun, fun ⟨⟨_, _, _, h4⟩, _⟩ => by cases h4⟩
      | false =>
        simp only [hrate, Bool.false_eq_true, if_false]
        constructor
        · rintro ⟨⟩; exact ⟨⟨by omega, by omega, by omega, trivial⟩, rfl⟩
        · rintro ⟨-, rfl⟩; rfl

/-- The reader does not refuse the header for `n` bytes of data. -/
def readable (d : HeaderData P info) (n : ℕ) : Prop :=
  1 ≤ writtenFrames info n ∧ 1 ≤ numChannels info ∧ numChannels info ≤ 255 ∧
    (ieee80ToDouble d.rate).le (Double.ofNat 0) = false

/-- What the header says. -/
def headerComm (d : HeaderData P info) (n : ℕ) : Comm :=
  ⟨readFormat info.format, numChannels info, writtenFrames info n, P.ulong (ieee80ToDouble d.rate)⟩

theorem readBack_ok {n : ℕ} {c : Comm} :
    readBack d n = .ok c ↔ readable d n ∧ c = headerComm d n :=
  CommonChunk.toComm_ok (c := writtenComm d n) (e := encoding info.format)
    (RuntimeFormat.ofBits_tag (readFormat info.format))

/-! ## The source on the file -/

/-- The file of a sink, as a content. -/
def aiffContent (d : HeaderData P info) (D : List UInt8) (h : 58 + D.length < 2 ^ 32) :
    Content where
  bytes := aiffFile d D
  fits := by rw [length_aiffFile]; omega

variable (native d) in
theorem rel_unread (h : 58 + D.length < 2 ^ 32) :
    Rel (aiffContent d D h) (AiffSource.unread native (File.opened (aiffFile d D)))
      ⟨aiffFile d D, 0⟩ :=
  ⟨rfl, at_aiffSource (at_opened (aiffContent d D h))⟩

/-- **What the reader says** of the file of a sink. -/
theorem reads_iff (h : 58 + D.length < 2 ^ 32) {Q : AiffIfstreamInfo → Prop} :
    (∃ fuel i s, readAiffHeader P native fuel
        (AiffSource.unread native (File.opened (aiffFile d D))) = some (.ok (i, s)) ∧ Q i) ↔
      readable d D.length ∧ Q (headerInfo native (headerComm d D.length)) := by
  rw [runs_iff (fun fuel => readAiffHeader_sim P native fuel (rel_unread native d h))
    (readAiffHeader_mono P native _) (readAiffHeader_aiffFile h 0)]
  constructor
  · rintro ⟨i, f, hr, hQ⟩
    cases hb : readBack d D.length with
    | error e => rw [hb] at hr; cases hr
    | ok c =>
      rw [hb] at hr
      cases hr
      obtain ⟨hok, rfl⟩ := readBack_ok.1 hb
      exact ⟨hok, hQ⟩
  · rintro ⟨hok, hQ⟩
    exact ⟨_, _, by rw [readBack_ok.2 ⟨hok, rfl⟩]; rfl, hQ⟩

variable (native) in
theorem reads (h : 58 + D.length < 2 ^ 32) (hok : readable d D.length) :
    ∃ s, readAiffHeader P native 3 (AiffSource.unread native (File.opened (aiffFile d D))) =
        some (.ok (headerInfo native (headerComm d D.length), s)) ∧
      Rel (aiffContent d D h) s ⟨aiffFile d D, 58⟩ := by
  have hsim := readAiffHeader_sim P native 3 (rel_unread native d h)
  rw [readAiffHeader_aiffFile h, readBack_ok.2 ⟨hok, rfl⟩] at hsim
  exact rel_ok_right hsim rfl

variable (native) in
/-- The source that a constructor leaves on the file. -/
theorem construct_aiffFile (h : 58 + D.length < 2 ^ 32) (hok : readable d D.length) :
    ∃ pos, AiffSource.construct P native 3 (File.opened (aiffFile d D)) =
      some (.ok ⟨⟨⟨aiffFile d D, pos⟩, 58,
          58 + (headerInfo native (headerComm d D.length)).numBytes⟩,
        headerInfo native (headerComm d D.length)⟩) := by
  obtain ⟨s, hs, -, hat⟩ := reads native h hok
  have hlen : (58 : ℕ) ≤ (aiffContent d D h).bytes.length :=
    (Nat.le_add_right 58 D.length).trans (le_of_eq length_aiffFile.symm)
  exact construct_file (readAiffHeader P native 3) (B := aiffContent d D h) hs hat hlen

/-- Frames of a few channels. -/
theorem frameSize_of_le (h : info.numChannels ≤ 255) : frameSize info = info.bytesPerFrame := by
  have hle := Nat.mul_le_mul h info.bytesPerSample_le
  have hbits : info.numChannels * info.bitsPerSample =
      8 * (info.bytesPerSample * info.numChannels) := by
    rw [info.bitsPerSample_eq]; ring
  rw [frameSize, hbits, info.bytesPerFrame_of_le (by omega), sizeT_of_lt, Nat.mul_div_cancel_left]
  · decide
  · rw [Nat.mul_comm info.bytesPerSample]; omega

theorem writtenFrames_of_lt {n : ℕ} (hch : info.numChannels ≤ 255) (hn : n < 2 ^ 32) :
    writtenFrames info n = n / info.bytesPerFrame := by
  have hdiv : n / info.bytesPerFrame ≤ n := Nat.div_le_self _ _
  rw [writtenFrames, frameSize_of_le hch, Nat.mod_eq_of_lt hn, Nat.mod_eq_of_lt (by omega)]

/-- Of whole frames, the reader refuses only those at a bad rate. -/
theorem readable_iff (hch : 1 ≤ info.numChannels ∧ info.numChannels ≤ 255) (hne : D ≠ [])
    (hframes : info.bytesPerFrame ∣ D.length) (hD : D.length < 2 ^ 32) :
    readable d D.length ↔ (ieee80ToDouble d.rate).le (Double.ofNat 0) = false := by
  have hnum : numChannels info = info.numChannels := Nat.mod_eq_of_lt (by omega)
  have hle : info.bytesPerFrame ≤ D.length :=
    Nat.le_of_dvd (List.length_pos_of_ne_nil hne) hframes
  have hpos : 0 < info.bytesPerFrame := by
    rw [info.bytesPerFrame_of_le (by omega)]
    exact Nat.mul_pos info.bytesPerSample_pos hch.1
  have hone : 1 ≤ D.length / info.bytesPerFrame := Nat.div_pos hle hpos
  rw [readable, hnum, writtenFrames_of_lt hch.2 hD]
  constructor
  · rintro ⟨-, -, -, hrate⟩
    exact hrate
  · intro hrate
    exact ⟨hone, hch.1, hch.2, hrate⟩

/-- **The round trip.**  The file of any sequence of writes to a sink is read
    back with the number of channels, the bits of the samples and the number of
    frames, and the view of the source on it covers what was written. -/
theorem aiff_roundtrip (P : Platform) (native : EndianType) (info : StreamInfo)
    (haccepted : accepted P info) (hch : 1 ≤ info.numChannels ∧ info.numChannels ≤ 255)
    (hrate : ∀ bs, doubleToIeee80 P (.ofNat info.sampleRate) = .ok bs →
      (ieee80ToDouble bs).le (Double.ofNat 0) = false) (ws : List (List UInt8))
    (hne : ws.flatten ≠ []) (hframes : info.bytesPerFrame ∣ ws.flatten.length)
    (hsize : 58 + ws.flatten.length < 2 ^ 32 - 1) :
    ∃ file fuel i s source, closedAiff P native info ws = .ok file ∧
      readAiffHeader P native fuel (AiffSource.unread native (File.opened file)) =
        some (.ok (i, s)) ∧
      i.numChannels = info.numChannels ∧ i.bitsPerSample = info.bitsPerSample ∧
      i.numFrames = ws.flatten.length / info.bytesPerFrame ∧
      AiffSource.construct P native fuel (File.opened file) = some (.ok source) ∧
      source.view.device.bytes = file ∧ source.view.bytes = ws.flatten := by
  obtain ⟨hne0, ⟨d⟩⟩ := accepted_iff.1 haccepted
  have hclosed := closedAiff_eq native d hne0 ws (by omega)
  generalize hD : ws.flatten = D at *
  have hlt : 58 + D.length < 2 ^ 32 := by omega
  have hnum : numChannels info = info.numChannels := Nat.mod_eq_of_lt (by omega)
  have hwritten : writtenFrames info D.length = D.length / info.bytesPerFrame :=
    writtenFrames_of_lt hch.2 (by omega)
  have hok : readable d D.length :=
    (readable_iff hch hne hframes (by omega)).2 (hrate d.rate d.rate_eq)
  have hbytes : (headerInfo native (headerComm d D.length)).bytesPerFrame = info.bytesPerFrame :=
    congrArg (fun n => sizeT (info.bytesPerSample * n)) hnum
  have hnumBytes : (headerInfo native (headerComm d D.length)).numBytes = D.length := by
    refine IfstreamInfo.numBytes_of_dvd _ ?_ (by rw [hbytes]; exact hframes) (by omega)
      (le_trans hok.2.2.1 (by decide))
    rw [hbytes]
    exact hwritten
  obtain ⟨s, hs, -⟩ := reads native hlt hok
  obtain ⟨pos, hconstruct⟩ := construct_aiffFile native hlt hok
  refine ⟨_, 3, _, s, _, hclosed, hs, hnum, rfl, hwritten, hconstruct, rfl, ?_⟩
  rw [hnumBytes]
  exact Subview.bytes_append (by rw [length_aiffHeader]; rfl) (by rw [length_aiffHeader]; rfl)

/-- Signed 24 bit big-endian stereo. -/
def s24beStereo : StreamInfo where
  sampleRate := 65536
  numChannels := 2
  format := .ofTag ⟨.signedInteger, ._24bit, .bigEndian⟩ (by decide)

/-- The header data of the sink for 65536 frames a second. -/
def s24beData : HeaderData .powersOfTwo s24beStereo where
  tag := none_
  rate := [0x40, 0x0F, 0x80, 0, 0, 0, 0, 0, 0, 0]
  tag_eq := rfl
  rate_eq := by decide

theorem aiff_roundtrip_s24be :
    ∃ file fuel i s source,
      closedAiff .powersOfTwo .littleEndian s24beStereo [[1, 2, 3], [], [4, 5, 6]] = .ok file ∧
      readAiffHeader .powersOfTwo .littleEndian fuel
        (AiffSource.unread .littleEndian (File.opened file)) = some (.ok (i, s)) ∧
      i.numChannels = 2 ∧ i.bitsPerSample = 24 ∧ i.numFrames = 1 ∧
      AiffSource.construct .powersOfTwo .littleEndian fuel (File.opened file) = some (.ok source) ∧
      source.view.device.bytes = file ∧ source.view.bytes = [1, 2, 3, 4, 5, 6] :=
  aiff_roundtrip .powersOfTwo .littleEndian s24beStereo
    (accepted_iff.2 ⟨by decide, ⟨s24beData⟩⟩) (by decide)
    (fun bs hbs => by rw [s24beData.rate_eq] at hbs; cases hbs; decide) [[1, 2, 3], [], [4, 5, 6]]
    (by decide) (by decide) (by decide)

end NiMedia.Aiff
