/-
  Streams over Ogg Vorbis files (`audio/ogg/ogg_source.h`).

  The constructor opens the file and reads its info.  `Decodes` says what the
  source relies on: libvorbisfile delivers the frames that it counted, without
  holes, and seeks to each of them and behind the last one.

  * `oggSource_actsAsCursor`: the source acts as a cursor over the decoded bytes.
  * `ogg_streams`: streams over the source, and copies of them, are those of the
    decoded bytes.
-/
import NiMedia.Audio.CopiedStream
import NiMedia.Ogg.Reading

namespace NiMedia

open Words SourceStream

namespace Ogg

/-! ## The constructor -/

/-- What `ov_info` points to. -/
structure VorbisInfo where
  channels : ℤ
  rate : ℤ
  bitrateNominal : ℤ

/-- `readInfo`, with what `ov_info` and `ov_pcm_total` return. -/
def readInfo (vinfo : Option VorbisInfo) (numFrames : ℤ) : Except RuntimeError Info :=
  match vinfo with
  | none => .error ⟨"Could not retreive vorbis info."⟩
  | some vinfo =>
    if hframes : numFrames < 1 then .error ⟨"Invalid / Empty File"⟩
    else if hchannels : vinfo.channels < 1 ∨ 255 < vinfo.channels then
      .error ⟨"Invalid number of channels: " ++ toString vinfo.channels⟩
    else if vinfo.rate < 8000 ∨ 192000 < vinfo.rate then
      .error ⟨"Invalid sample rate: " ++ toString vinfo.rate⟩
    else .ok {
      sampleRate := vinfo.rate.toNat
      numFrames := numFrames.toNat
      numChannels := vinfo.channels.toNat
      format := s16le
      bitRate := (vinfo.bitrateNominal % 2 ^ 64).toNat
      numFrames_pos := by omega
      numChannels_pos := by omega
      numChannels_le := by omega
      format_eq := ⟨rfl, rfl, rfl⟩ }

/-- The constructor; `file` is what `ov_open_callbacks` opens. -/
def construct {δ : Type} (file : Option δ) (vinfo : Option VorbisInfo) (numFrames : ℤ) :
    Except RuntimeError (Info × Source δ) :=
  match file with
  | none => .error ⟨"Could not open file."⟩
  | some d => (readInfo vinfo numFrames).map fun info => (info, opened d)

theorem construct_ok {δ : Type} {file : Option δ} {vinfo : Option VorbisInfo} {numFrames : ℤ}
    {info : Info} {s : Source δ} (h : construct file vinfo numFrames = .ok (info, s)) :
    ∃ d, file = some d ∧ readInfo vinfo numFrames = .ok info ∧ s = opened d := by
  cases file with
  | none => cases h
  | some d =>
    rw [construct] at h
    cases hinfo : readInfo vinfo numFrames with
    | error e => rw [hinfo] at h; cases h
    | ok info' =>
      rw [hinfo] at h
      cases h
      exact ⟨d, rfl, rfl, rfl⟩

/-! ## The source as a device -/

section
variable {δ : Type} (D : Decoder δ) (info : Info)

/-- `ogg_source`, with its decoder and its info. -/
structure OggSource (D : Decoder δ) (info : Info) where
  state : Source δ

/-- A buffer takes a count of zero as it takes -1.  Without a file, `seek` throws. -/
instance : NiMedia.Source (OggSource D info) where
  read n s := (deliver (read D n s.state).1, ⟨(read D n s.state).2⟩)
  seek off way s := match seek D info off way s.state with
    | some (pos, state) => (pos, ⟨state⟩)
    | none => (-1, s)

/-- What the source relies on: in the states with `Good`, the decoder has the
    frames of `pcm`, without holes, and seeks to all of them. -/
structure Decodes (pcm : List UInt8) (Good : δ → Prop) : Prop where
  length : pcm.length = info.numFrames * info.bytesPerFrame
  fits : pcm.length < 2 ^ 63
  good_read : ∀ {d} (n : ℤ), Good d → Good (D.ovRead n d).2
  no_hole : ∀ {d} {n : ℤ}, Good d → 0 < n → (D.ovRead n d).1 ≠ .code ovHole
  seek : ∀ {d k}, Good d → k ≤ info.numFrames → ∃ d', D.ovPcmSeek k d = (0, d') ∧ Good d' ∧
    D.toCome d' = pcm.drop (k * info.bytesPerFrame)

/-- The source stands at a frame of the cursor. -/
structure StandsAt (pcm : List UInt8) (Good : δ → Prop) (c : Cursor) (s : OggSource D info) :
    Prop where
  bytes : c.bytes = pcm
  dvd_pos : info.bytesPerFrame ∣ c.pos
  pos : s.state.pos = c.pos
  decoder : ∃ d, s.state.vorbisFile = some d ∧ Good d ∧ D.toCome d = c.left

end

section
variable {δ : Type} {D : Decoder δ} {info : Info} {pcm : List UInt8} {Good : δ → Prop} {d : δ}
  {c : Cursor} {s : OggSource D info}

theorem Info.bytesPerFrame_eq (info : Info) :
    info.bytesPerFrame = info.bytesPerSample * info.numChannels :=
  info.bytesPerFrame_of_le (info.numChannels_le.trans (by decide))

theorem Info.bytesPerFrame_pos (info : Info) : 0 < info.bytesPerFrame := by
  rw [info.bytesPerFrame_eq]
  exact Nat.mul_pos info.bytesPerSample_pos info.numChannels_pos

theorem Decodes.numBytes_eq (hdec : Decodes D info pcm Good) : info.numBytes = pcm.length := by
  have hcomm : info.numFrames * info.numChannels * info.bytesPerSample = pcm.length := by
    rw [hdec.length, info.bytesPerFrame_eq]
    ring
  have hfits := hdec.fits
  rw [← hcomm] at hfits ⊢
  exact sizeT_mul_mul info.bytesPerSample_pos (by omega)

/-! ### Reads -/

/-- Without holes, the loop delivers all that it is asked for, up to the end. -/
theorem Decodes.readLoop_eq (hdec : Decodes D info pcm Good) {requested : ℤ} (out : List UInt8)
    (hgood : Good d) (hreq : 0 ≤ requested) :
    ∃ d', readLoop D requested out d = (out ++ (D.toCome d).take requested.toNat, d') ∧ Good d' ∧
      D.toCome d' = (D.toCome d).drop requested.toNat := by
  induction requested, out, d using readLoop.induct D with
  | case1 requested out d bs d' h ih =>
    obtain ⟨-, hle, hcome⟩ := D.read_bytes h
    have hlen := hle.trans (request_le requested)
    have hgood' := hdec.good_read (request requested) hgood
    rw [h] at hgood'
    obtain ⟨d'', hloop, hgood'', hcome'⟩ := ih hgood' (by omega)
    have hsplit : requested.toNat = bs.length + (requested - bs.length).toNat := by omega
    refine ⟨d'', ?_, hgood'', ?_⟩
    · rw [readLoop_bytes h, hloop, hcome, hsplit, List.take_length_add_append, List.append_assoc]
    · rw [hcome', hcome, hsplit, List.drop_length_add_append]
  | case2 requested out d c d' h =>
    obtain ⟨-, hcome, hcode⟩ := D.read_code h
    have hgood' := hdec.good_read (request requested) hgood
    rw [h] at hgood'
    refine ⟨d', ?_, hgood', ?_⟩
    all_goals
      rcases hreq.eq_or_lt with rfl | hpos
      · simp [readLoop_code h, hcome]
      · rcases hcode (request_pos.2 hpos) with rfl | ⟨-, hnil⟩
        · exact absurd (congrArg Prod.fst h) (hdec.no_hole hgood (request_pos.2 hpos))
        · simp [readLoop_code h, hcome, hnil]

theorem StandsAt.read (h : StandsAt D info pcm Good c s) (hdec : Decodes D info pcm Good) {n : ℕ}
    (hn : BufferSize info.bytesPerFrame n) :
    (Source.read n s).1 = (c.read n).1 ∧
      StandsAt D info pcm Good (c.read n).2 (Source.read n s).2 := by
  obtain ⟨d, hfile, hgood, hcome⟩ := h.decoder
  have hint := hn.int
  have hwrap : wrap 32 (n : ℤ) = n := wrap_of_range (by omega) (by norm_num; omega)
  obtain ⟨d', hloop, hgood', hcome'⟩ := hdec.readLoop_eq [] hgood (Int.natCast_nonneg n)
  rw [Int.toNat_natCast, hcome, ← c.next_eq_take, List.nil_append, ← hwrap] at hloop
  rw [Int.toNat_natCast, hcome, ← c.left_read] at hcome'
  have hdvd : info.bytesPerFrame ∣ c.bytes.length := by
    rw [h.bytes, hdec.length]
    exact Nat.dvd_mul_left _ _
  have hend := c.pos_add_le n
  rw [h.bytes] at hend
  have hfits := hdec.fits
  have hpos : wrap 64 (s.state.pos + (c.next n).length) = ((c.read n).2.pos : ℤ) := by
    rw [h.pos, wrap_of_range (by omega) (by norm_num; omega), Cursor.pos_read]
    push_cast
    rfl
  have hread : Ogg.read D n s.state = (c.next n, ⟨some d', (c.read n).2.pos⟩) := by
    rw [read_eq hfile hloop, hpos]
  simp only [NiMedia.Source.read, hread]
  exact ⟨rfl, h.bytes, Nat.dvd_add h.dvd_pos (Cursor.dvd_next h.dvd_pos hdvd hn.frames), rfl, d',
    rfl, hgood', hcome'⟩

/-! ### Seeks -/

theorem StandsAt.seek (h : StandsAt D info pcm Good c s) (hdec : Decodes D info pcm Good) {off : ℤ}
    {way : SeekDir} (hfits : fits 0 c (.seek off way))
    (hdvd : info.bytesPerFrame ∣ c.sought off way) :
    (Device.seek off way s).1 = (c.seek off way).1 ∧
      StandsAt D info pcm Good (c.seek off way).2 (Device.seek off way s).2 := by
  obtain ⟨d, hfile, hgood, -⟩ := h.decoder
  have habs := c.absolutePosition_zero hfits
  rw [h.bytes, ← hdec.numBytes_eq, ← h.pos] at habs
  have hle : c.sought off way ≤ info.numFrames * info.bytesPerFrame := by
    rw [← hdec.length, ← h.bytes]
    exact Nat.min_le_right _ _
  obtain ⟨k, hk⟩ := hdvd
  rw [Nat.mul_comm] at hk
  have hframe : ((c.sought off way : ℕ) : ℤ) / info.bytesPerFrame = (k : ℤ) := by
    rw [hk, ← Int.natCast_ediv, Nat.mul_div_cancel _ info.bytesPerFrame_pos]
  have hkle : k ≤ info.numFrames := by
    rw [hk] at hle
    exact Nat.le_of_mul_le_mul_right hle info.bytesPerFrame_pos
  obtain ⟨d', hseek, hgood', hcome⟩ := hdec.seek hgood hkle
  have hstep : Ogg.seek D info off way s.state =
      some ((c.sought off way : ℤ), ⟨some d', c.sought off way⟩) := by
    simp only [Ogg.seek, hfile, habs, hframe, hseek, if_true]
  simp only [Device.seek, hstep]
  refine ⟨rfl, h.bytes, ?_, rfl, d', rfl, hgood', ?_⟩
  · rw [Cursor.pos_seek, hk]
    exact Nat.dvd_mul_left _ _
  · rw [hcome, Cursor.left, Cursor.bytes_seek, Cursor.pos_seek, hk, h.bytes]

/-- **The source** acts as a cursor over the decoded bytes. -/
theorem oggSource_actsAsCursor (hdec : Decodes D info pcm Good) :
    ActsAsCursor info.bytesPerFrame 0 anywhere (StandsAt D info pcm Good) where
  reach := reach_anywhere
  aligned h := by
    refine ⟨h.dvd_pos, ?_⟩
    rw [h.bytes, hdec.length]
    exact Nat.dvd_mul_left _ _
  read n h hn := ⟨n, le_rfl, hn.frames, hn.pos, h.read hdec hn⟩
  seek _ _ h hfits hdvd _ := h.seek hdec hfits hdvd

/-! ## Streams -/

/-- **Streams over Ogg Vorbis files.**  Whatever file the constructor lets through,
    if libvorbisfile decodes its frames without holes, a stream over the source
    answers any run of calls as one over the decoded bytes does, and is copied with
    all of them. -/
theorem ogg_streams (h : Host) (order : EvaluationOrder) {file : Option δ}
    {vinfo : Option VorbisInfo} {numFrames : ℤ} {state : Source δ}
    (hopen : construct file vinfo numFrames = .ok (info, state))
    (hdec : Decodes D info pcm Good) (hfile : ∀ d ∈ file, Good d ∧ D.toCome d = pcm) :
    StreamsOver h order info.bytesPerFrame 0 (info.bytesPerBuffer framesPerBuffer)
        (⟨state⟩ : OggSource D info) info.toStreamInfo pcm ∧
      CopiesOver anywhere h order info.bytesPerFrame 0 (info.bytesPerBuffer framesPerBuffer)
        (⟨state⟩ : OggSource D info) info.toStreamInfo pcm := by
  obtain ⟨d, rfl, -, rfl⟩ := construct_ok hopen
  obtain ⟨hgood, hcome⟩ := hfile d rfl
  have hb := buffers_of_channels info.numChannels_pos info.numChannels_le
    (oggSource_actsAsCursor hdec)
  have hstands : StandsAt D info pcm Good ⟨pcm, 0, Nat.zero_le _⟩ ⟨opened d⟩ :=
    ⟨rfl, dvd_zero _, rfl, d, rfl, hgood, hcome⟩
  have hfits : 0 + pcm.length < 2 ^ 63 := by
    rw [Nat.zero_add]
    exact hdec.fits
  exact ⟨streamsOver (c := ⟨pcm, 0, Nat.zero_le _⟩) hb hstands rfl hfits,
    copiesOver h order (c := ⟨pcm, 0, Nat.zero_le _⟩) hb hstands rfl hfits⟩

end

/-- How a decoder of some bytes reads at a position. -/
def pcmRead (pcm : List UInt8) (n : ℤ) (p : ℕ) : Ret × ℕ :=
  if n ≤ 0 then (.code ovEinval, p)
  else if pcm.length ≤ p then (.code 0, p)
  else (.bytes (Bytes.slice pcm p n.toNat), p + (Bytes.slice pcm p n.toNat).length)

theorem pcmRead_bytes {pcm : List UInt8} {n : ℤ} {p : ℕ} {bs : List UInt8} {p' : ℕ}
    (h : pcmRead pcm n p = (.bytes bs, p')) :
    bs ≠ [] ∧ (bs.length : ℤ) ≤ n ∧ pcm.drop p = bs ++ pcm.drop p' := by
  unfold pcmRead at h
  split_ifs at h with hn hp
  · cases h
  · cases h
  · cases h
    have hlen := length_slice_min pcm p n.toNat
    refine ⟨?_, by omega, ?_⟩
    · rw [← List.length_pos_iff]
      omega
    · rw [hlen, ← List.drop_drop, Bytes.slice]
      rcases Nat.le_total n.toNat (pcm.length - p) with hle | hle
      · rw [Nat.min_eq_left hle, List.take_append_drop]
      · rw [Nat.min_eq_right hle, ← List.length_drop, List.drop_length, List.append_nil,
          List.take_of_length_le (by rwa [List.length_drop])]

theorem pcmRead_code {pcm : List UInt8} {n : ℤ} {p : ℕ} {c : ℤ} {p' : ℕ}
    (h : pcmRead pcm n p = (.code c, p')) :
    c ≤ 0 ∧ pcm.drop p' = pcm.drop p ∧ (0 < n → c = ovHole ∨ c = 0 ∧ pcm.drop p = []) := by
  unfold pcmRead at h
  split_ifs at h with hn hp
  · cases h
    exact ⟨show ovEinval ≤ 0 by decide, rfl, fun hpos => absurd hpos (by omega)⟩
  · cases h
    exact ⟨le_rfl, rfl, fun _ => .inr ⟨rfl, List.drop_eq_nil_of_le hp⟩⟩
  · cases h

/-- A decoder of some bytes, at a position, in frames of `F` bytes. -/
def ofPcm (F : ℕ) (pcm : List UInt8) : Decoder ℕ where
  ovRead := pcmRead pcm
  ovPcmSeek k p :=
    if 0 ≤ k ∧ k.toNat * F ≤ pcm.length then (0, k.toNat * F) else (ovEinval, p)
  toCome p := pcm.drop p
  read_bytes := pcmRead_bytes
  read_code := pcmRead_code

theorem ofPcm_decodes {info : Info} {pcm : List UInt8}
    (hlength : pcm.length = info.numFrames * info.bytesPerFrame) (hfits : pcm.length < 2 ^ 63) :
    Decodes (ofPcm info.bytesPerFrame pcm) info pcm fun _ => True where
  length := hlength
  fits := hfits
  good_read _ _ := trivial
  no_hole := by
    intro p n _ hn h
    simp only [ofPcm, pcmRead, if_neg (show ¬ n ≤ 0 by omega)] at h
    split_ifs at h
    cases h
  seek := by
    intro p k _ hk
    have hle : k * info.bytesPerFrame ≤ pcm.length := by
      rw [hlength]
      exact Nat.mul_le_mul_right _ hk
    exact ⟨k * info.bytesPerFrame, by simp [ofPcm, hle], trivial, rfl⟩

/-- Three frames of mono: the first one, the last one by a seek, and the end. -/
theorem ogg_streams_mono :
    ∃ info state, construct (some 0) (some ⟨1, 44100, -1⟩) 3 = .ok (info, state) ∧
      ∃ s s' : SourceStream (OggSource (ofPcm 2 [1, 2, 3, 4, 5, 6]) info), s.source = ⟨state⟩ ∧
        Machine.Runs (Step (.ofNative .littleEndian) .leftToRight
            (info.bytesPerBuffer framesPerBuffer)) s
          [.read 2, .seekg (.frameSeekg (-1) .end_), .read 2, .tellg, .read 2, .rdstate]
          [.bytes [1, 2], .nothing, .bytes [5, 6], .position 6, .bytes [], .bits true true] s' := by
  obtain ⟨info, hopen, hframes, hinfo⟩ : ∃ info : Info,
      construct (some 0) (some ⟨1, 44100, -1⟩) 3 = .ok (info, opened 0) ∧ info.numFrames = 3 ∧
        info.toStreamInfo = { bitRate := 2 ^ 64 - 1, format := s16le } := ⟨_, rfl, rfl, rfl⟩
  have hframe : info.bytesPerFrame = 2 := by
    rw [hinfo]
    decide
  have hdec : Decodes (ofPcm 2 [1, 2, 3, 4, 5, 6]) info [1, 2, 3, 4, 5, 6] fun _ => True := by
    rw [← hframe]
    exact ofPcm_decodes (by rw [hframes, hframe]; rfl) (by decide)
  obtain ⟨⟨⟨s, hs⟩, hruns⟩, -⟩ := ogg_streams (.ofNative .littleEndian) .leftToRight hopen hdec
    (by rintro d ⟨rfl⟩; exact ⟨trivial, rfl⟩)
  have hs' := hruns s hs
    [.read 2, .seekg (.frameSeekg (-1) .end_), .read 2, .tellg, .read 2, .rdstate]
  rw [hframe, hinfo] at hs'
  obtain ⟨s', hrun⟩ := (hs' ⟨show 2 ∣ 2 by decide, fun _ => ⟨⟨by decide, by decide⟩, by decide⟩,
    show 2 ∣ 2 by decide, trivial, show 2 ∣ 2 by decide, trivial, trivial⟩ _).2 rfl
  refine ⟨info, opened 0, hopen, s, s', hs.source, ?_⟩
  rw [hinfo]
  exact hrun

end Ogg

end NiMedia
