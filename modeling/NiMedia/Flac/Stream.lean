/-
  Streams over FLAC files (`audio/flac/flac_source.h`).

  The decoder refuses to seek to the end, so that the source acts as a cursor as
  long as seeks are to frames, or to the end from there.

  * `flacSource_actsAsCursor`: the source acts as a cursor over the bytes of the
    stream.
  * `flac_streams`: streams over the source, and copies of them, are those of the
    samples.
  * `flac_values`: what is extracted are the samples, at the top of the word.
-/
import NiMedia.Audio.StreamRoundTrip
import NiMedia.Flac.Lossless
import NiMedia.Flac.Seeking

namespace NiMedia

open Bytes Words Loop SourceStream
open Istream (Request)

namespace Flac

/-! ## The source as a device -/

/-- `flac_source`, with its decoder and its info. -/
structure FlacSource {δ : Type} (info : Info) (D : Decoder δ) where
  state : Source δ

/-- A buffer takes a count of zero as it takes -1.  A pass of a read copies a byte
    at least, unless it is the last one or the decoder hands over nothing. -/
instance {δ : Type} {info : Info} {D : Decoder δ} : NiMedia.Source (FlacSource info D) where
  read n s := match read info D (n + 1) n s.state with
    | some (some (out, state)) => (deliver out, ⟨state⟩)
    | _ => (none, s)
  seek off way s := ((seek info D off way s.state).1, ⟨(seek info D off way s.state).2⟩)

section
variable {δ : Type} {info : Info} {S : Stream info} {D : Decoder δ} {At : ℕ → δ → Prop}

/-- The source stands at a frame of the cursor. -/
structure StandsAt (S : Stream info) (D : Decoder δ) (At : ℕ → δ → Prop) (c : Cursor)
    (s : FlacSource info D) : Prop where
  bytes : c.bytes = S.bytes
  dvd_pos : info.bytesPerFrame ∣ c.pos
  stands : Stands S At c.pos s.state

variable {c : Cursor} {s : FlacSource info D}

/-- Each pass that is not the last one delivers something. -/
theorem Holding.pass_decreases (hD : Decodes S D At) {n : ℕ} {x y : Source δ × List UInt8}
    (h : ∃ t ≤ info.numBytes, Holding S At t x.1) (hpass : readPass info D n x = .again y) :
    (∃ t ≤ info.numBytes, Holding S At t y.1) ∧ n - y.2.length < n - x.2.length := by
  obtain ⟨s, out⟩ := x
  obtain ⟨t, ht, h⟩ := h
  by_cases hmore : out.length < n
  · rcases h.pass hD ht hmore with ⟨s', k, hagain, hk, hkn, hle, -, h'⟩ | ⟨-, s', hdone, -⟩
    · rw [hagain] at hpass
      cases hpass
      have hlen : (slice S.bytes t k).length = k := length_slice (by rwa [S.length_bytes])
      refine ⟨⟨t + k, hle, h'⟩, ?_⟩
      dsimp only
      rw [List.length_append, hlen]
      omega
    · rw [hdone] at hpass
      cases hpass
  · rw [readPass_full (not_lt.1 hmore)] at hpass
    cases hpass

theorem StandsAt.read (h : StandsAt S D At c s) (hD : Decodes S D At) {n : ℕ}
    (hn : info.bytesPerFrame ∣ n) :
    (Source.read n s).1 = (c.read n).1 ∧ StandsAt S D At (c.read n).2 (Source.read n s).2 := by
  obtain ⟨state', hret, hstands⟩ := h.stands.read hD n
  have hnext : slice S.bytes c.pos n = c.next n := by
    rw [← h.bytes]
    rfl
  rw [hnext] at hret hstands
  have hread : Flac.read info D (n + 1) n s.state = some (some (c.next n, state')) :=
    hret.iterate_of_measure (fun x => ∃ t ≤ info.numBytes, Holding S At t x.1)
      (fun x => n - x.2.length) (fun _ _ => Holding.pass_decreases hD)
      ⟨c.pos, h.stands.le, h.stands.holding⟩ (by simp)
  have hdvd : info.bytesPerFrame ∣ c.bytes.length := by
    rw [h.bytes, S.length_bytes, S.numBytes_eq]
    exact Nat.dvd_mul_left _ _
  simp only [Source.read, hread]
  exact ⟨rfl, h.bytes, Nat.dvd_add h.dvd_pos (Cursor.dvd_next h.dvd_pos hdvd hn), hstands⟩

theorem StandsAt.seek (h : StandsAt S D At c s) (hD : Decodes S D At) {off : ℤ} {way : SeekDir}
    (hfits : fits 0 c (.seek off way)) (hdvd : info.bytesPerFrame ∣ c.sought off way)
    (hreach : c.sought off way < c.bytes.length ∨ c.pos = c.bytes.length) :
    (Device.seek off way s).1 = (c.seek off way).1 ∧
      StandsAt S D At (c.seek off way).2 (Device.seek off way s).2 := by
  have habs := c.absolutePosition_zero hfits
  have hle : c.sought off way ≤ c.bytes.length := Nat.min_le_right _ _
  have hlen : c.bytes.length = info.numBytes := by rw [h.bytes, S.length_bytes]
  rw [hlen, ← h.stands.pos] at habs
  rcases Nat.lt_or_eq_of_le hle with hlt | heq
  · obtain ⟨hpos, hstands⟩ := h.stands.seek_lt hD habs (hlen ▸ hlt)
    exact ⟨hpos, h.bytes, hdvd, hstands⟩
  · -- the decoder refuses, but the source is there
    have hend : c.pos = c.sought off way := by
      rcases hreach with hlt | hend
      · omega
      · rw [hend, heq]
    rw [heq, hlen] at habs
    obtain ⟨hpos, hstands⟩ := h.stands.seek_end hD habs
    rw [h.stands.pos, hend] at hpos
    rw [hend] at hstands
    exact ⟨hpos, h.bytes, hdvd, hstands⟩

/-- **The source** acts as a cursor over the bytes of the stream. -/
theorem flacSource_actsAsCursor (hD : Decodes S D At) :
    ActsAsCursor info.bytesPerFrame 0 beforeEnd (StandsAt S D At) where
  reach := reach_beforeEnd
  aligned h := by
    refine ⟨h.dvd_pos, ?_⟩
    rw [h.bytes, S.length_bytes, S.numBytes_eq]
    exact Nat.dvd_mul_left _ _
  read n h hn := ⟨n, le_rfl, hn.frames, hn.pos, h.read hD hn.frames⟩
  seek _ _ h hfits hdvd hreach := h.seek hD hfits hdvd (beforeEnd_of_asks hreach)

theorem flacSource_buffers (hD : Decodes S D At) :
    Buffers info.bytesPerFrame 0 (info.bytesPerBuffer framesPerBuffer) info.bytesPerSample beforeEnd
      (StandsAt S D At) :=
  buffers_of_channels info.numChannels_pos (info.numChannels_le.trans (by decide))
    (flacSource_actsAsCursor hD)

theorem standsAt_opened {d : δ} (hd : At 0 d) :
    StandsAt S D At ⟨S.bytes, 0, Nat.zero_le _⟩ ⟨opened d⟩ :=
  ⟨rfl, dvd_zero _, rfl, Nat.zero_le _, holding_opened hd⟩

theorem Stream.length_lt (S : Stream info) : 0 + S.bytes.length < 2 ^ 63 := by
  rw [Nat.zero_add, S.length_bytes]
  exact S.numBytes_lt

/-! ## Streams -/

/-- **Streams over FLAC files.**  Over a decoder of the stream, an `ifstream`
    answers any run of calls as one over the samples of the stream does, if no seek
    goes to the end from before it, and is copied with all of them. -/
theorem flac_streams (h : Host) (order : EvaluationOrder) (hD : Decodes S D At) {d : δ}
    (hd : At 0 d) :
    StreamsOverTo beforeEnd h order info.bytesPerFrame 0 (info.bytesPerBuffer framesPerBuffer)
        (⟨opened d⟩ : FlacSource info D) info.toStreamInfo S.bytes ∧
      CopiesOver beforeEnd h order info.bytesPerFrame 0 (info.bytesPerBuffer framesPerBuffer)
        (⟨opened d⟩ : FlacSource info D) info.toStreamInfo S.bytes :=
  ⟨streamsOverTo h order (flacSource_buffers hD) (standsAt_opened hd) rfl S.length_lt,
    copiesOver h order (flacSource_buffers hD) (standsAt_opened hd) rfl S.length_lt⟩

end

/-- Three frames: the first two, the last one by a seek, and the end. -/
theorem flac_streams_three :
    ∃ s s' : SourceStream (FlacSource threeInfo (frameByFrame three)),
      s.source = ⟨opened (0, false)⟩ ∧
      Machine.Runs (Step (.ofNative .littleEndian) .leftToRight
          (threeInfo.bytesPerBuffer framesPerBuffer)) s
        [.read 2, .seekg (.frameSeekg 2 .beg), .read 1, .tellg, .read 1, .rdstate]
        [.bytes [1, 2], .nothing, .bytes [3], .position 3, .bytes [], .bits true true] s' := by
  obtain ⟨⟨⟨s, hs⟩, hruns⟩, -⟩ := flac_streams (.ofNative .littleEndian) .leftToRight
    (frameByFrame_decodes three) (d := (0, false)) rfl
  obtain ⟨s', hrun⟩ := (hruns s hs
    [.read 2, .seekg (.frameSeekg 2 .beg), .read 1, .tellg, .read 1, .rdstate]
    ⟨⟨show 1 ∣ 2 by decide, trivial⟩,
      ⟨fun _ => ⟨⟨by decide, by decide⟩, one_dvd _⟩, fun _ => .inl (by decide)⟩,
      ⟨one_dvd _, trivial⟩, ⟨trivial, trivial⟩, ⟨one_dvd _, trivial⟩, ⟨trivial, trivial⟩,
      trivial⟩ _).2 rfl
  exact ⟨s, s', hs.source, hrun⟩

/-! ## Values -/

section
variable {m : StreamInfoBlock} {info : Info} {S : Stream info}

/-- Sample `u * C + c` of the stream is sample `u` of channel `c`. -/
theorem Stream.slice_sample (S : Stream info) {u c : ℕ} (hu : u < info.numFrames)
    (hc : c < info.numChannels) :
    slice S.bytes ((u * info.numChannels + c) * info.bytesPerSample) info.bytesPerSample =
      sampleBytesOf info (S.sample c u) := by
  have hframe := slice_flatMap (g := S.frameBytes) S.length_frameBytes
    (List.range info.numFrames) u (by simpa using hu)
  have hsample := slice_flatMap (g := fun c => sampleBytesOf info (S.sample c u))
    (fun c => length_sampleBytesOf _) (List.range info.numChannels) c (by simpa using hc)
  rw [List.getElem_range] at hframe hsample
  rw [info.bytesPerFrame_eq] at hframe
  have hfit : c * info.bytesPerSample + info.bytesPerSample ≤
      info.bytesPerSample * info.numChannels := by
    rw [← Nat.succ_mul, Nat.mul_comm]
    exact Nat.mul_le_mul_left _ hc
  have hpos : (u * info.numChannels + c) * info.bytesPerSample =
      u * (info.bytesPerSample * info.numChannels) + c * info.bytesPerSample := by ring
  rw [hpos, ← slice_slice hfit]
  exact (congrArg (fun bs => slice bs _ _) hframe).trans hsample

/-- The samples of the stream fit the bits per sample. -/
def Stream.Fits (S : Stream info) (bits : ℕ) : Prop :=
  ∀ u < info.numFrames, ∀ c < info.numChannels,
    -2 ^ (bits - 1) ≤ (S.sample c u).toInt ∧ (S.sample c u).toInt < 2 ^ (bits - 1)

/-- What a stream of values of the type `V` is to deliver. -/
structure Stream.Delivers (S : Stream info) (bits : ℕ) (V : IntType)
    (vals : List (ArithType.integer V).Val) : Prop where
  length : vals.length = info.numFrames * info.numChannels
  value : ∀ u < info.numFrames, ∀ c < info.numChannels,
    ∃ v, vals[u * info.numChannels + c]? = some v ∧
      V.toInt v = (S.sample c u).toInt * 2 ^ (V.bits - bits)

theorem getElem?_samples (h : Host) (V : ArithType) (f : RuntimeFormat) (D : List UInt8) {i n : ℕ}
    (hi : i < n) : (samples h V f D 0 n)[i]? =
      some (h.read V f (slice D (i * f.bitwidth.numBytes) f.bitwidth.numBytes)) := by
  rw [samples, List.getElem?_map, List.getElem?_range hi, Option.map_some, Nat.zero_add]

theorem delivers_samples (h : Host) (hinfo : FromStreamInfo m info) (hfits : S.Fits m.bitsPerSample)
    {V : IntType} (hV : V.signed = true) (hw : m.bitsPerSample ≤ V.bits) :
    S.Delivers m.bitsPerSample V (samples h (.integer V) info.format S.bytes 0
      (info.numFrames * info.numChannels)) where
  length := length_samples _ _ _
  value := by
    intro u hu c hc
    obtain ⟨h0, h1⟩ := hfits u hu c hc
    have hlt : u * info.numChannels + c < info.numFrames * info.numChannels := by
      have hle := Nat.mul_le_mul_right info.numChannels (Nat.succ_le_of_lt hu)
      rw [Nat.succ_mul] at hle
      omega
    refine ⟨h.read (.integer V) info.format (sampleBytesOf info (S.sample c u)), ?_, ?_⟩
    · rw [← S.slice_sample hu hc]
      exact getElem?_samples h (.integer V) info.format S.bytes hlt
    · rw [show info.format = hinfo.format.1 from rfl, h.read_integer V hinfo.format]
      exact toInt_read_sampleBytesOf h.native hinfo V hV hw _ h0 h1

/-- **Values** of a signed type that is wide enough, extracted one by one or in
    ranges, are the samples of the stream in their order, at the top of the word. -/
theorem flac_values (h : Host) {audioBytes : ℕ}
    (hmeta : metadataCallbackImpl audioBytes m = .ok info) {δ : Type} {D : Decoder δ}
    {At : ℕ → δ → Prop} (hD : Decodes S D At) {d : δ} (hd : At 0 d)
    (hfits : S.Fits m.bitsPerSample) (V : IntType) (hV : V.signed = true)
    (hw : m.bitsPerSample ≤ V.bits) :
    ∃ vals, S.Delivers m.bitsPerSample V vals ∧
      ∀ (order : EvaluationOrder) (outs : List (Request (.integer V))),
        Istream.total outs ≤ vals.length → ∀ s,
        Opened (info.bytesPerBuffer framesPerBuffer) (⟨opened d⟩ : FlacSource info D)
          info.toStreamInfo s → ∀ answers,
        (∃ s', Machine.Runs (Step h order (info.bytesPerBuffer framesPerBuffer)) s
          (outs.map Request.extracting) answers s') ↔
        answers = ((outs.map Request.count).splitLengths vals).map (.values (.integer V)) := by
  have hdel := delivers_samples h (metadataCallbackImpl_ok hmeta) hfits hV hw
  refine ⟨_, hdel, ?_⟩
  intro order outs htotal s hs answers
  rw [hdel.length] at htotal
  obtain ⟨-, hruns⟩ := streamsOverTo h order (flacSource_buffers hD)
    (standsAt_opened hd) rfl S.length_lt
  have hleft : (SampleStream.opened info.toStreamInfo S.bytes).cursor.left = S.bytes :=
    List.drop_zero
  have hlen : info.numFrames * info.numChannels * info.bytesPerSample ≤ S.bytes.length := by
    rw [S.length_bytes, S.numBytes_eq, info.bytesPerFrame_eq]
    exact (show _ = _ by ring).le
  rw [hruns s hs _ (SampleStream.along_requests _ _ _ _ outs) answers,
    SampleStream.run_requests ⟨rfl, rfl⟩ outs htotal (by rw [hleft]; exact hlen), hleft]
  rfl

end

/-- The stream info of `threeInfo`. -/
def threeBlock : StreamInfoBlock where
  minBlocksize := 1
  maxBlocksize := 1
  sampleRate := 44100
  channels := 1
  bitsPerSample := 8
  totalSamples := 3

theorem three_fits : three.Fits threeBlock.bitsPerSample := by
  intro u hu c _
  have hu : u < 3 := hu
  have hmono : three.sample c u = three.sample 0 u := rfl
  rw [hmono]
  interval_cases u <;> decide

/-- Three samples of 8 bits, as values of 16 bits. -/
theorem flac_values_three : ∃ vals, three.Delivers 8 ⟨true, .w16⟩ vals ∧
    ∀ s, Opened (threeInfo.bytesPerBuffer framesPerBuffer)
        (⟨opened (0, false)⟩ : FlacSource threeInfo (frameByFrame three)) threeInfo.toStreamInfo s →
      ∀ answers, (∃ s', Machine.Runs (Step (.ofNative .littleEndian) .leftToRight
          (threeInfo.bytesPerBuffer framesPerBuffer)) s
          [.value (.integer ⟨true, .w16⟩) 0, .range (.integer ⟨true, .w16⟩) [0, 0]] answers s') ↔
        answers = ([1, 2].splitLengths vals).map (.values (.integer ⟨true, .w16⟩)) := by
  obtain ⟨vals, hdel, hruns⟩ := flac_values (.ofNative .littleEndian)
    (rfl : metadataCallbackImpl 0 threeBlock = .ok threeInfo) (frameByFrame_decodes three)
    (d := (0, false)) rfl
    three_fits ⟨true, .w16⟩ rfl (by decide)
  exact ⟨vals, hdel, fun s hs answers => hruns .leftToRight [.value 0, .range [0, 0]]
    (by rw [hdel.length]; decide) s hs answers⟩

end Flac

end NiMedia
