/-
  Streams over audio files (`audio/ifstream.cpp`, `ifvectorstream.cpp` with
  `wav_source` and `aiff_source`).

  A source with a header reads whole frames out of a view on its device.  As long
  as it stands at a frame, it acts as a cursor over the audio data.

  * `headers_streamOver`: streams over the files that the readers accept, if their
    audio data is all there, are streams over this data.
-/
import NiMedia.Audio.Aligned
import NiMedia.Audio.SourceStream

namespace NiMedia

open Bytes Words Simulation

/-! ## Views with all of their bytes -/

section
variable {δ : Type} [ExactSource δ] {B : List UInt8} {beg : ℕ} {c : Cursor} {s : Subview δ}

/-- A seek of a cursor, at its view. -/
theorem ViewAt.seek_cursor (h : ViewAt B beg (beg + c.bytes.length) (beg + c.pos) s)
    (hin : beg + c.bytes.length ≤ B.length) {off : ℤ} {way : SeekDir}
    (hfits : fits beg c (.seek off way)) :
    ∃ s', s.seek off way = ((c.sought off way : ℤ), s') ∧
      ViewAt B beg (beg + c.bytes.length) (beg + c.sought off way) s' := by
  have hsought : c.sought off way ≤ c.bytes.length := Nat.min_le_right _ _
  have habs := c.absolutePosition_eq hfits
  have hland : ExactSource.land δ B (beg + c.sought off way) = beg + c.sought off way :=
    land_of_le (by omega)
  obtain ⟨s', hseek, hview⟩ := h.seek off way habs (by rw [hland]; omega)
  rw [hland] at hseek hview
  refine ⟨s', ?_, hview⟩
  rw [hseek]
  congr 1
  omega

/-- What a view reads is next. -/
theorem slice_cursor (hbytes : slice B beg c.bytes.length = c.bytes) (n : ℕ) :
    slice B (beg + c.pos) (min n (beg + c.bytes.length - (beg + c.pos))) = c.next n := by
  have hle := c.pos_le
  rw [Nat.add_sub_add_left, Cursor.next, ← slice_min_left c.bytes,
    ← slice_slice (B := B) (n := c.bytes.length) (by omega), hbytes]

end

/-! ## Sources with a header -/

section
variable {ι δ : Type} [ToIfstreamInfo ι] [ExactSource δ] {B : List UInt8} {beg F : ℕ} {c : Cursor}
  {s : HeaderSource ι δ}

/-- A source that stands at a frame of the bytes of the cursor, which the device
    has from `beg` on. -/
structure ShowsFrames (B : List UInt8) (beg F : ℕ) (c : Cursor) (s : HeaderSource ι δ) : Prop where
  framesAt : FramesAt B beg c.bytes.length F (beg + c.pos) s
  inside : beg + c.bytes.length ≤ B.length
  bytes : slice B beg c.bytes.length = c.bytes
  dvd_pos : F ∣ c.pos
  dvd_length : F ∣ c.bytes.length

theorem ShowsFrames.read (h : ShowsFrames B beg F c s) {n : ℕ} (hn : F ∣ n) :
    (Source.read n s).1 = (c.read n).1 ∧ ShowsFrames B beg F (c.read n).2 (Source.read n s).2 := by
  obtain ⟨s', bs, hbs, hstep, hat⟩ := h.framesAt.read n
  rw [slice_cursor h.bytes] at hbs
  subst hbs
  have hdvd : F ∣ (c.next n).length := Cursor.dvd_next h.dvd_pos h.dvd_length hn
  have hwhole : (c.next n).take ((c.next n).length - (c.next n).length % F) = c.next n := by
    rw [Nat.mod_eq_zero_of_dvd hdvd, Nat.sub_zero, List.take_length]
  have hread : Source.read n s = (deliver (c.next n), s') := by
    have hfst := congrArg Prod.fst hstep
    have hsnd := congrArg Prod.snd hstep
    simp only [sourceStep, SourceAnswer.bytes.injEq] at hfst hsnd
    refine Prod.ext (hfst.trans ?_) hsnd
    unfold deliver
    split_ifs
    · rfl
    · rw [Option.map_some, hwhole]
  rw [hread]
  rw [Nat.add_assoc] at hat
  exact ⟨rfl, hat, h.inside, h.bytes, Nat.dvd_add h.dvd_pos hdvd, h.dvd_length⟩

theorem ShowsFrames.seek (h : ShowsFrames B beg F c s) {off : ℤ} {way : SeekDir}
    (hfits : fits beg c (.seek off way)) (hdvd : F ∣ c.sought off way) :
    (Device.seek off way s).1 = (c.seek off way).1 ∧
      ShowsFrames B beg F (c.seek off way).2 (Device.seek off way s).2 := by
  obtain ⟨view, info⟩ := s
  obtain ⟨view', hseek, hview⟩ := h.framesAt.view.seek_cursor h.inside hfits
  have hdev : Device.seek off way (HeaderSource.mk view info) =
      ((c.sought off way : ℤ), ⟨view', info⟩) := by
    simp only [Device.seek, HeaderSource.seek, hseek]
  rw [hdev]
  exact ⟨rfl, ⟨hview, h.framesAt.bytesPerFrame⟩, h.inside, h.bytes, hdvd, h.dvd_length⟩

/-- **Sources with a header** act as cursors. -/
theorem headerSource_actsAsCursor (B : List UInt8) (beg F : ℕ) :
    ActsAsCursor F beg (σ := HeaderSource ι δ) anywhere (ShowsFrames B beg F) where
  reach := reach_anywhere
  aligned h := ⟨h.dvd_pos, h.dvd_length⟩
  read n h hn := ⟨n, le_rfl, hn.frames, hn.pos, h.read hn.frames⟩
  seek _ _ h hfits hdvd _ := h.seek hfits hdvd

end

/-! ## Streams -/

section
variable {ι δ : Type} [ToIfstreamInfo ι] [ExactSource δ] {B : List UInt8} {beg : ℕ}
  {src : HeaderSource ι δ}

/-- How many frames `make_stream_buffer` asks for at once. -/
def framesPerBuffer : ℕ := 4096

/-- The bytes of the view of a source. -/
def audioData (B : List UInt8) (src : HeaderSource ι δ) : List UInt8 :=
  slice B src.view.beg.toNat (ToIfstreamInfo.toIfstreamInfo src.info).numBytes

/-- The file has them all. -/
def hasAudioData (B : List UInt8) (src : HeaderSource ι δ) : Prop :=
  src.view.beg.toNat + (ToIfstreamInfo.toIfstreamInfo src.info).numBytes ≤ B.length

/-- `ifstream` and `ifvectorstream` over the source. -/
def streamsAudioData (h : Host) (order : EvaluationOrder) (B : List UInt8)
    (src : HeaderSource ι δ) : Prop :=
  SourceStream.StreamsOver h order src.bytesPerFrame src.view.beg.toNat
    ((ToIfstreamInfo.toIfstreamInfo src.info).bytesPerBuffer framesPerBuffer) src
    (ToIfstreamInfo.toIfstreamInfo src.info).toStreamInfo (audioData B src)

theorem IfstreamInfo.Sized.bytesPerFrame_pos {info : IfstreamInfo} (h : info.Sized) :
    0 < info.bytesPerFrame := by
  rw [h.bytesPerFrame_eq]
  exact Nat.mul_pos info.bytesPerSample_pos h.numChannels_pos

/-- The buffer is of whole frames, and is not too large for an `int`. -/
theorem buffers_of_channels {info : StreamInfo} (hpos : 1 ≤ info.numChannels)
    (hle : info.numChannels ≤ 255) {σ : Type} [Source σ] {E : Targets}
    {R : Cursor → σ → Prop} {start : ℕ} (hR : ActsAsCursor info.bytesPerFrame start E R) :
    SourceStream.Buffers info.bytesPerFrame start (info.bytesPerBuffer framesPerBuffer)
      info.bytesPerSample E R := by
  have hframe := info.bytesPerFrame_of_le (hle.trans (by decide))
  have hpos : 0 < info.bytesPerFrame := by
    rw [hframe]
    exact Nat.mul_pos info.bytesPerSample_pos hpos
  have hle : info.bytesPerFrame ≤ 8 * 255 := by
    rw [hframe]
    exact Nat.mul_le_mul info.bytesPerSample_le hle
  have hbuffer : info.bytesPerBuffer framesPerBuffer = framesPerBuffer * info.bytesPerFrame :=
    sizeT_of_lt (by unfold framesPerBuffer; omega)
  rw [hbuffer]
  unfold framesPerBuffer
  exact ⟨hR, hframe ▸ Nat.dvd_mul_right _ _, Nat.dvd_mul_left _ _, by omega, by omega⟩

theorem buffers_of_sized {info : IfstreamInfo} (hsized : info.Sized) {σ : Type} [Source σ]
    {E : Targets} {R : Cursor → σ → Prop} {start : ℕ}
    (hR : ActsAsCursor info.bytesPerFrame start E R) :
    SourceStream.Buffers info.bytesPerFrame start (info.bytesPerBuffer framesPerBuffer)
      info.bytesPerSample E R :=
  buffers_of_channels hsized.numChannels_pos hsized.numChannels_le hR

/-- A source whose audio data is all there stands at the first of its bytes. -/
theorem FramesAt.exists_cursor
    (hat : FramesAt B beg (ToIfstreamInfo.toIfstreamInfo src.info).numBytes src.bytesPerFrame beg
      src)
    (hsized : (ToIfstreamInfo.toIfstreamInfo src.info).Sized) (hdata : hasAudioData B src) :
    (audioData B src).length = (ToIfstreamInfo.toIfstreamInfo src.info).numBytes ∧
      ∃ c, ShowsFrames B src.view.beg.toNat src.bytesPerFrame c src ∧ c.bytes = audioData B src ∧
        c.pos = 0 ∧ src.view.beg.toNat + c.bytes.length < 2 ^ 63 := by
  have hbeg : src.view.beg.toNat = beg := by rw [hat.view.beg_eq, Int.toNat_natCast]
  have hmax := hat.view.max
  unfold hasAudioData at hdata
  unfold audioData
  rw [hbeg] at hdata ⊢
  generalize hN : (ToIfstreamInfo.toIfstreamInfo src.info).numBytes = N at hat hdata hmax ⊢
  have hlen : (slice B beg N).length = N := length_slice hdata
  have hframes : src.bytesPerFrame ∣ N := by
    rw [← hN, hsized.numBytes_eq]
    exact Nat.dvd_mul_left _ _
  obtain ⟨c, hbytes, hpos⟩ : ∃ c : Cursor, c.bytes = slice B beg N ∧ c.pos = 0 :=
    ⟨⟨_, 0, Nat.zero_le _⟩, rfl, rfl⟩
  refine ⟨hlen, c, ⟨?_, ?_, ?_, ?_, ?_⟩, hbytes, hpos, ?_⟩
  · rw [hbytes, hlen, hpos]
    exact hat
  · rwa [hbytes, hlen]
  · rw [hbytes, hlen]
  · rw [hpos]
    exact dvd_zero _
  · rwa [hbytes, hlen]
  · rw [hbytes, hlen]
    unfold maxPos at hmax
    omega

theorem FramesAt.streamsAudioData
    (hat : FramesAt B beg (ToIfstreamInfo.toIfstreamInfo src.info).numBytes src.bytesPerFrame beg
      src)
    (hsized : (ToIfstreamInfo.toIfstreamInfo src.info).Sized) (hdata : hasAudioData B src)
    (h : Host) (order : EvaluationOrder) : NiMedia.streamsAudioData h order B src := by
  obtain ⟨-, c, hshows, hbytes, hpos, hfits⟩ := hat.exists_cursor hsized hdata
  unfold NiMedia.streamsAudioData
  rw [← hbytes]
  exact SourceStream.streamsOver (buffers_of_sized hsized (headerSource_actsAsCursor B _ _)) hshows
    hpos hfits

end

/-- **Streams over files.**  Whatever bytes `wav_source` and `aiff_source` are
    opened on, served by a container or a file: if they accept them, and the audio
    data is all there, a stream over the source answers any run of reads, seeks to
    frames and questions as one over the audio data does, wherever its buffer ends
    and whichever seeks it serves itself. -/
theorem headers_streamOver (h : Host) (order : EvaluationOrder) (P : Platform)
    (native : EndianType) (B : Content) (fuel : ℕ) :
    (∀ src, Wav.WavSource.construct native fuel (Container.mk' B.bytes) = some (.ok src) →
      hasAudioData B.bytes src → streamsAudioData h order B.bytes src) ∧
    (∀ src, Wav.WavSource.construct native fuel (File.opened B.bytes) = some (.ok src) →
      hasAudioData B.bytes src → streamsAudioData h order B.bytes src) ∧
    (∀ src, Aiff.AiffSource.construct P native fuel (Container.mk' B.bytes) = some (.ok src) →
      hasAudioData B.bytes src → streamsAudioData h order B.bytes src) ∧
    ∀ src, Aiff.AiffSource.construct P native fuel (File.opened B.bytes) = some (.ok src) →
      hasAudioData B.bytes src → streamsAudioData h order B.bytes src := by
  refine ⟨?_, ?_, ?_, ?_⟩
  · intro src hsrc hdata
    obtain ⟨f, -, hsized, hframes⟩ := Wav.construct_of_file (at_container B) hsrc
    exact hframes.streamsAudioData hsized hdata h order
  · intro src hsrc hdata
    obtain ⟨f, -, hsized, hframes⟩ := Wav.construct_of_file (at_opened B) hsrc
    exact hframes.streamsAudioData hsized hdata h order
  · intro src hsrc hdata
    obtain ⟨-, -, hsized, o, tag, c, -, hframes⟩ := Aiff.construct_accepted (at_container B) hsrc
    exact hframes.streamsAudioData hsized hdata h order
  · intro src hsrc hdata
    obtain ⟨-, -, hsized, o, tag, c, -, hframes⟩ := Aiff.construct_accepted (at_opened B) hsrc
    exact hframes.streamsAudioData hsized hdata h order

theorem twoFramesWav_source :
    ∃ src, Wav.WavSource.construct .littleEndian 2 (Container.mk' twoFramesWav) =
      some (.ok src) ∧ (src.view.beg, src.info.numBytes, src.info.toStreamInfo) =
        (44, 4, { bitRate := 705600, format := s16le }) :=
  exists_ok_of_map (by decide)

/-- Its audio data. -/
theorem twoFramesWav_audioData :
    ∃ src, Wav.WavSource.construct .littleEndian 2 (Container.mk' twoFramesWav) =
      some (.ok src) ∧ src.view.beg = 44 ∧
        src.info.toStreamInfo = { bitRate := 705600, format := s16le } ∧
        hasAudioData twoFramesWav src ∧ audioData twoFramesWav src = [1, 2, 3, 4] := by
  obtain ⟨src, hsrc, hsizes⟩ := twoFramesWav_source
  obtain ⟨hbeg, hnum, hinfo⟩ : src.view.beg = 44 ∧ src.info.numBytes = 4 ∧
      src.info.toStreamInfo = { bitRate := 705600, format := s16le } := by simpa using hsizes
  have hnum' : (ToIfstreamInfo.toIfstreamInfo src.info).numBytes = 4 := hnum
  refine ⟨src, hsrc, hbeg, hinfo, ?_, ?_⟩
  · rw [hasAudioData, hbeg, hnum']
    decide
  · rw [audioData, hbeg, hnum']
    decide

/-- The first frame, twice. -/
theorem headers_streamOver_twoFrames :
    ∃ src, Wav.WavSource.construct .littleEndian 2 (Container.mk' twoFramesWav) =
      some (.ok src) ∧ ∃ s s' : SourceStream (Wav.WavSource Container),
        s.source = src ∧
        Machine.Runs (SourceStream.Step (.ofNative .littleEndian) .leftToRight
            (src.info.bytesPerBuffer framesPerBuffer)) s
          [.read 2, .tellg, .seekg (.frameSeekg 0 .beg), .read 2, .rdstate]
          [.bytes [1, 2], .position 2, .nothing, .bytes [1, 2], .bits false false] s' := by
  obtain ⟨src, hsrc, hbeg, hinfo, hdata, hbytes⟩ := twoFramesWav_audioData
  have hframe : src.bytesPerFrame = 2 := by
    change src.info.toStreamInfo.bytesPerFrame = 2
    rw [hinfo]
    decide
  obtain ⟨⟨s, hs⟩, hruns⟩ := (headers_streamOver (.ofNative .littleEndian) .leftToRight
    .powersOfTwo .littleEndian ⟨twoFramesWav, by decide⟩ 2).1 src hsrc hdata
  have hs' := hruns s hs [.read 2, .tellg, .seekg (.frameSeekg 0 .beg), .read 2, .rdstate]
  rw [hbytes, hframe, hbeg] at hs'
  change Machine.Along _ _ (SampleStream.opened src.info.toStreamInfo [1, 2, 3, 4]) _ →
    ∀ answers, _ ↔ _ = Machine.run _ (SampleStream.opened src.info.toStreamInfo [1, 2, 3, 4]) _
    at hs'
  rw [hinfo] at hs'
  obtain ⟨s', hrun⟩ := (hs' ⟨show 2 ∣ 2 by decide, trivial,
    fun _ => ⟨⟨by decide, by decide⟩, by decide⟩, show 2 ∣ 2 by decide, trivial, trivial⟩ _).2 rfl
  exact ⟨src, hsrc, s, s', hs.source, hrun⟩

end NiMedia
