/-
  Streams that are copied into a vector (`audio/ivectorstream.cpp`,
  `ifvectorstream.cpp`): `ivectorstream( istream&& )` and
  `ifvectorstream( ifstream&& )`.

  * `copiesToVector_iff`: wherever a stream stands, and whatever its buffer keeps,
    the copy is of all bytes that it is over; there is none if it has failed.
  * `headers_copied`: so a file that is copied into a vector, after any run of
    calls, gives the same stream again, with the same info.
-/
import NiMedia.Audio.FileStream

namespace NiMedia

open Bytes Words StreamBuffer

/-! ## Characters until the end -/

namespace StreamBuffer

/-- `std::vector<char>( std::istreambuf_iterator<char>( sb ), {} )`: the iterator
    compares by `sgetc` and moves on by `sbumpc`. -/
def drain : ℕ → StreamBuffer → Option (List UInt8 × StreamBuffer)
  | 0, _ => none
  | fuel + 1, sb =>
    match sb.underflow with
    | (none, sb') => some ([], sb')
    | (some c, sb') => (drain fuel sb'.sbumpc.2).map fun r => (c :: r.1, r.2)

variable {sb sb' : StreamBuffer} {c : UInt8} {fuel : ℕ}

/-- The character that is seen is the first to come. -/
theorem underflow_cons (h : sb.underflow = (some c, sb')) : ∃ cs, sb'.rest = c :: cs := by
  unfold underflow at h
  split_ifs at h with hlt
  · obtain ⟨hc, rfl⟩ := Prod.mk.inj h
    rw [List.getElem?_eq_getElem hlt] at hc
    refine ⟨sb.area.drop (sb.gptr + 1) ++ sb.blocks.flatten, ?_⟩
    rw [rest, List.drop_eq_getElem_cons hlt, Option.some.inj hc]
    rfl
  · cases hb : sb.blocks with
    | nil =>
      rw [hb] at h
      cases h
    | cons b bs =>
      rw [hb] at h
      obtain ⟨hc, rfl⟩ := Prod.mk.inj h
      obtain ⟨b', rfl⟩ := List.head?_eq_some_iff.1 hc
      exact ⟨b' ++ bs.flatten, rfl⟩

/-- **All characters** to come. -/
theorem drain_eq (hf : sb.Filled) (h : sb.rest.length < fuel) :
    ∃ sb', drain fuel sb = some (sb.rest, sb') := by
  induction fuel generalizing sb with
  | zero => cases h
  | succ fuel ih =>
    have hf' := filled_underflow hf
    have hrest := rest_underflow sb
    rcases hunder : sb.underflow with ⟨_ | c, sb'⟩
    · by_cases hnil : sb.rest = []
      · exact ⟨sb', by rw [drain, hunder, hnil]⟩
      · obtain ⟨c, sb₁, hsome, -⟩ := underflow_spec hf hnil
        rw [hunder] at hsome
        cases hsome
    · rw [hunder] at hf' hrest
      obtain ⟨cs, hcons⟩ := underflow_cons hunder
      obtain ⟨c', sb₁, hbump, hcons', hf₁, -⟩ := sbumpc_spec hf' (by
        rw [hcons]
        exact List.cons_ne_nil c cs)
      obtain ⟨rfl, -⟩ := List.cons.inj (hcons.symm.trans hcons')
      have hlen := congrArg List.length (hrest.symm.trans hcons')
      rw [List.length_cons] at hlen
      obtain ⟨sb₂, hdrain⟩ := ih hf₁ (by omega)
      refine ⟨sb₂, ?_⟩
      rw [drain, hunder]
      simp only [hbump, hdrain, Option.map_some]
      rw [← hcons', ← hrest]

/-- More fuel changes nothing. -/
theorem drain_mono {k : ℕ} {r : List UInt8 × StreamBuffer} (h : drain fuel sb = some r) :
    drain (fuel + k) sb = some r := by
  induction fuel generalizing sb r with
  | zero => cases h
  | succ fuel ih =>
    rw [Nat.succ_add, drain]
    rw [drain] at h
    rcases hunder : sb.underflow with ⟨_ | c, sb'⟩
    · rw [hunder] at h
      exact h
    · rw [hunder] at h
      obtain ⟨r', hr', rfl⟩ := Option.map_eq_some_iff.1 h
      simp only [ih hr', Option.map_some]

/-- A buffer that has been drained. -/
theorem drain_some (hf : sb.Filled) {vec : List UInt8} (h : drain fuel sb = some (vec, sb')) :
    vec = sb.rest := by
  obtain ⟨sb₁, hall⟩ := drain_eq hf (Nat.lt_succ_self _)
  have hmore := drain_mono (k := sb.rest.length + 1) h
  have hmore' := drain_mono (k := fuel) hall
  rw [Nat.add_comm, hmore'] at hmore
  exact (congrArg Prod.fst (Option.some.inj hmore)).symm

end StreamBuffer

/-! ## Copies -/

namespace SourceStream

section
variable {σ : Type} [Source σ] (h : Host) (order : EvaluationOrder) (n : ℕ)

/-- What `ivectorstream( istream&& other )` makes a stream over: nothing if
    `other` is not good. -/
inductive CopiesToVector (other : SourceStream σ) : Option (List UInt8) → Prop
  | bad (hbad : ¬ (other.stream.eofbit = false ∧ other.stream.failbit = false)) :
    CopiesToVector other none
  | good {other' : SourceStream σ} {fuel : ℕ} {vec : List UInt8} {sb : StreamBuffer}
    (hgood : other.stream.eofbit = false ∧ other.stream.failbit = false)
    (hseek : Step h order n other (.seekg (.frameSeekg 0 .beg)) .nothing other')
    (hdrain : drain fuel other'.stream.buf = some (vec, sb)) :
    CopiesToVector other (some vec)

end

section
variable {σ : Type} [Source σ] {h : Host} {order : EvaluationOrder} {F start n : ℕ}
  {E : Targets} {R : Cursor → σ → Prop} {s s' : SourceStream σ} {a : SampleStream}
  {c : Cursor}

/-- A client may always rewind. -/
theorem TracksAt.allowed_rewind (hs : TracksAt start n R s a c) (hreach : Reach E) :
    a.Allowed F start (.seekg (.frameSeekg 0 .beg)) ∧
      a.Reaches E (.seekg (.frameSeekg 0 .beg)) ∧
      a.cursor.sought ((SeekCall.frameSeekg 0 .beg).offset a.info)
        (SeekCall.frameSeekg 0 .beg).way = 0 := by
  have hoff : (SeekCall.frameSeekg 0 .beg).offset a.info = 0 := by
    rw [SeekCall.offset, Int.zero_mul]
    rfl
  have hsought : a.cursor.sought 0 .beg = 0 := by
    simp only [Cursor.sought, seekBase]
    omega
  have hfits := hs.fits
  rw [SampleStream.Allowed, SampleStream.Reaches, hoff]
  refine ⟨fun _ => ⟨?_, ?_⟩, fun _ => ?_, hsought⟩
  · simp only [NiMedia.fits, seekBase, SeekCall.way]
    omega
  · rw [SeekCall.way, hsought]
    exact dvd_zero F
  · have hasked : a.cursor.asked 0 .beg = 0 := Int.add_zero 0
    rw [SeekCall.way, hasked]
    exact hreach.zero a.cursor

/-- The stream that has been rewound. -/
theorem TracksAt.rewind (hs : TracksAt start n R s a c)
    (hb : Buffers F start n a.info.bytesPerSample E R) {o : ClientAnswer}
    (hok : a.failbit = false) (hseek : Step h order n s (.seekg (.frameSeekg 0 .beg)) o s') :
    o = .nothing ∧ s'.stream.buf.Filled ∧ s'.stream.buf.rest = a.cursor.bytes := by
  obtain ⟨hrewind, hreach, hzero⟩ := hs.allowed_rewind (F := F) hb.acts.reach
  obtain ⟨rfl, c', hs'⟩ := hs.answer hb hrewind hreach hseek
  have hfail : ¬ a.failbit = true := by
    rw [hok]
    exact Bool.false_ne_true
  have hsame : Buffers F start n
      (a.step h (.seekg (.frameSeekg 0 .beg))).2.info.bytesPerSample E R := by
    rwa [SampleStream.info_step]
  refine ⟨rfl, (hs'.whole hsame).filled, ?_⟩
  rw [hs'.rest hsame, SampleStream.step, SampleStream.seekg, if_neg hfail, Cursor.left]
  dsimp only
  rw [Cursor.bytes_seek, Cursor.pos_seek, hzero, List.drop_zero]

/-- **A copy** is of all bytes, from wherever the stream stands. -/
theorem copiesToVector_iff {w : ℕ} (hb : Buffers F start n w E R)
    (hs : a.info.bytesPerSample = w ∧ Tracks start n R s a) (r : Option (List UInt8)) :
    CopiesToVector h order n s r ↔ r = if a.good then some a.cursor.bytes else none := by
  obtain ⟨rfl, c, hs⟩ := hs
  have hgood := hs.good_iff
  constructor
  · intro hcopy
    cases hcopy with
    | bad hbad => rw [if_neg (mt hgood.1 hbad)]
    | good hok hseek hdrain =>
      obtain ⟨-, hfilled, hrest⟩ := hs.rewind hb (hs.failbit.symm.trans hok.2) hseek
      rw [if_pos (hgood.2 hok), drain_some hfilled hdrain, hrest]
  · rintro rfl
    by_cases hok : a.good = true
    · have hbits := hgood.1 hok
      obtain ⟨hrewind, hreach, -⟩ := hs.allowed_rewind (F := F) hb.acts.reach
      obtain ⟨o, s₁, hseek⟩ := hs.total h order hb hrewind hreach
      obtain ⟨rfl, hfilled, hrest⟩ := hs.rewind hb (hs.failbit.symm.trans hbits.2) hseek
      obtain ⟨sb, hdrain⟩ := drain_eq hfilled (Nat.lt_succ_self _)
      rw [if_pos hok, ← hrest]
      exact .good hbits hseek hdrain
    · rw [if_neg hok]
      exact .bad (mt hgood.2 hok)

/-- After any run of calls, a stream that is good is copied with all of its bytes. -/
def CopiesOver (E : Targets) (h : Host) (order : EvaluationOrder) (F start n : ℕ)
    (device : σ) (info : StreamInfo) (D : List UInt8) : Prop :=
  ∀ s s' calls answers, Opened n device info s →
    Machine.Along (SampleStream.step h) (fun a call => a.Allowed F start call ∧ a.Reaches E call)
      (SampleStream.opened info D) calls →
    Machine.Runs (Step h order n) s calls answers s' →
    ∀ vec, CopiesToVector h order n s' vec ↔
      vec = if (Machine.after (SampleStream.step h) (SampleStream.opened info D) calls).good then
        some D else none

variable (h order) in
theorem copiesOver {device : σ} {info : StreamInfo}
    (hb : Buffers F start n info.bytesPerSample E R) (hrel : R c device) (hpos : c.pos = 0)
    (hfits : start + c.bytes.length < 2 ^ 63) :
    CopiesOver E h order F start n device info c.bytes := by
  intro s s' calls answers ho hcalls hrun vec
  obtain ⟨-, hlast⟩ := (serves hb).runs ⟨rfl, ho.tracks hrel hpos hfits⟩ hcalls hrun
  rw [copiesToVector_iff hb hlast, SampleStream.bytes_after]
  rfl

end

end SourceStream

/-! ## Streams over vectors -/

/-- A container at a sample of `w` bytes. -/
structure Holds (w : ℕ) (c : Cursor) (s : Container) : Prop where
  container : s.container = c.bytes
  pos : s.pos = c.pos
  dvd_pos : w ∣ c.pos
  dvd_length : w ∣ c.bytes.length

/-- **Containers** act as cursors. -/
theorem container_actsAsCursor (w : ℕ) :
    ActsAsCursor w 0 (σ := Container) anywhere (Holds w) where
  reach := reach_anywhere
  aligned h := ⟨h.dvd_pos, h.dvd_length⟩
  read {c s} n h hn := by
    refine ⟨n, le_rfl, hn.frames, hn.pos, ?_⟩
    obtain ⟨hread, hbytes, hpos⟩ := Container.read_eq n s
    have hnext : slice s.container s.pos n = c.next n := by
      rw [h.container, h.pos]
      rfl
    rw [hnext] at hread hpos
    refine ⟨hread, hbytes.trans h.container, ?_,
      Nat.dvd_add h.dvd_pos (Cursor.dvd_next h.dvd_pos h.dvd_length hn.frames), h.dvd_length⟩
    rw [Cursor.pos_read, ← h.pos]
    exact hpos
  seek {c s} off way h hfits hdvd _ := by
    have habs : absolutePosition s.pos 0 s.container.length off way = c.sought off way := by
      rw [h.container, h.pos]
      exact c.absolutePosition_zero hfits
    refine ⟨habs, h.container, ?_, hdvd, h.dvd_length⟩
    have hpos : (Device.seek off way s).2.pos =
        (absolutePosition s.pos 0 s.container.length off way).toNat := rfl
    rw [hpos, habs, Int.toNat_natCast, Cursor.pos_seek]

/-- `info.num_frames( vec.size() / info.bytes_per_frame() )`. -/
def IfstreamInfo.ofVector (info : IfstreamInfo) (vec : List UInt8) : IfstreamInfo :=
  { info with numFrames := vec.length / info.bytesPerFrame }

section
variable {ι δ : Type} [ToIfstreamInfo ι] [ExactSource δ] {B : List UInt8} {beg : ℕ}
  {src : HeaderSource ι δ}

/-- The stream over a vector with the audio data, which stands at samples. -/
theorem vector_streamsOver {info : IfstreamInfo} (hsized : info.Sized) {D : List UInt8}
    (hD : D.length = info.numBytes) (h : Host) (order : EvaluationOrder) :
    SourceStream.StreamsOver h order info.bytesPerSample 0 (info.bytesPerBuffer framesPerBuffer)
      (Container.mk' D) info.toStreamInfo D := by
  obtain ⟨-, hsample, hframes, hpos, hint⟩ := buffers_of_sized hsized
    (container_actsAsCursor info.bytesPerFrame)
  have hlt := hsized.numBytes_lt
  have hdvd : info.bytesPerSample ∣ D.length := by
    rw [hD, hsized.numBytes_eq]
    exact hsample.trans (Nat.dvd_mul_left _ _)
  exact SourceStream.streamsOver (c := ⟨D, 0, Nat.zero_le _⟩)
    ⟨container_actsAsCursor info.bytesPerSample, dvd_refl _, hsample.trans hframes, hpos, hint⟩
    ⟨rfl, rfl, dvd_zero _, hdvd⟩ rfl (by dsimp only; omega)

/-- `ifvectorstream( ifstream&& )` of a stream over the source, at any time: if it
    is good, the copy is of the audio data, with the info of the source. -/
def copiesAudioData (h : Host) (order : EvaluationOrder) (B : List UInt8)
    (src : HeaderSource ι δ) : Prop :=
  let info := ToIfstreamInfo.toIfstreamInfo src.info
  let n := info.bytesPerBuffer framesPerBuffer
  let a := SampleStream.opened info.toStreamInfo (audioData B src)
  (∀ s s' calls answers, SourceStream.Opened n src info.toStreamInfo s →
      Machine.Along (SampleStream.step h) (SampleStream.Allowed src.bytesPerFrame
        src.view.beg.toNat) a calls →
      Machine.Runs (SourceStream.Step h order n) s calls answers s' →
      ∀ vec, SourceStream.CopiesToVector h order n s' vec ↔
        vec = if (Machine.after (SampleStream.step h) a calls).good then some (audioData B src)
          else none) ∧
    SourceStream.StreamsOver h order info.bytesPerSample 0 n (Container.mk' (audioData B src))
      info.toStreamInfo (audioData B src) ∧
    info.ofVector (audioData B src) = info

theorem FramesAt.copiesAudioData
    (hat : FramesAt B beg (ToIfstreamInfo.toIfstreamInfo src.info).numBytes src.bytesPerFrame beg
      src)
    (hsized : (ToIfstreamInfo.toIfstreamInfo src.info).Sized) (hdata : hasAudioData B src)
    (h : Host) (order : EvaluationOrder) : NiMedia.copiesAudioData h order B src := by
  obtain ⟨hlen, c, hshows, hbytes, hpos, hfits⟩ := hat.exists_cursor hsized hdata
  have hb := buffers_of_sized hsized
    (headerSource_actsAsCursor (ι := ι) (δ := δ) B src.view.beg.toNat src.bytesPerFrame)
  refine ⟨?_, vector_streamsOver hsized hlen h order, ?_⟩
  · intro s s' calls answers ho hcalls hrun vec
    have hcopies := SourceStream.copiesOver h order hb hshows hpos hfits
    rw [hbytes] at hcopies
    exact hcopies s s' calls answers ho (SourceStream.along_anywhere.2 hcalls) hrun vec
  · have hframes : (audioData B src).length /
        (ToIfstreamInfo.toIfstreamInfo src.info).bytesPerFrame =
          (ToIfstreamInfo.toIfstreamInfo src.info).numFrames := by
      rw [hlen, hsized.numBytes_eq]
      exact Nat.mul_div_cancel _ hsized.bytesPerFrame_pos
    rw [IfstreamInfo.ofVector, hframes]

end

/-- **Copies of files.**  Whatever bytes `wav_source` and `aiff_source` are opened
    on, served by a container or a file: if they accept them, and the audio data is
    all there, a stream over the source that is moved into a vector, after any run
    of calls, gives the audio data again, from its beginning and with the same info;
    unless the stream is not good. -/
theorem headers_copied (h : Host) (order : EvaluationOrder) (P : Platform)
    (native : EndianType) (B : Content) (fuel : ℕ) :
    (∀ src, Wav.WavSource.construct native fuel (Container.mk' B.bytes) = some (.ok src) →
      hasAudioData B.bytes src → copiesAudioData h order B.bytes src) ∧
    (∀ src, Wav.WavSource.construct native fuel (File.opened B.bytes) = some (.ok src) →
      hasAudioData B.bytes src → copiesAudioData h order B.bytes src) ∧
    (∀ src, Aiff.AiffSource.construct P native fuel (Container.mk' B.bytes) = some (.ok src) →
      hasAudioData B.bytes src → copiesAudioData h order B.bytes src) ∧
    ∀ src, Aiff.AiffSource.construct P native fuel (File.opened B.bytes) = some (.ok src) →
      hasAudioData B.bytes src → copiesAudioData h order B.bytes src := by
  refine ⟨?_, ?_, ?_, ?_⟩
  · intro src hsrc hdata
    obtain ⟨f, -, hsized, hframes⟩ := Wav.construct_of_file (at_container B) hsrc
    exact hframes.copiesAudioData hsized hdata h order
  · intro src hsrc hdata
    obtain ⟨f, -, hsized, hframes⟩ := Wav.construct_of_file (at_opened B) hsrc
    exact hframes.copiesAudioData hsized hdata h order
  · intro src hsrc hdata
    obtain ⟨-, -, hsized, o, tag, c, -, hframes⟩ := Aiff.construct_accepted (at_container B) hsrc
    exact hframes.copiesAudioData hsized hdata h order
  · intro src hsrc hdata
    obtain ⟨-, -, hsized, o, tag, c, -, hframes⟩ := Aiff.construct_accepted (at_opened B) hsrc
    exact hframes.copiesAudioData hsized hdata h order

/-- A copy of both frames, behind the first of them. -/
theorem headers_copied_twoFrames :
    ∃ src, Wav.WavSource.construct .littleEndian 2 (Container.mk' twoFramesWav) =
      some (.ok src) ∧ ∀ s s' : SourceStream (Wav.WavSource Container),
        SourceStream.Opened (src.info.bytesPerBuffer framesPerBuffer) src
          src.info.toStreamInfo s →
        Machine.Runs (SourceStream.Step (.ofNative .littleEndian) .leftToRight
          (src.info.bytesPerBuffer framesPerBuffer)) s [.read 2] [.bytes [1, 2]] s' →
        SourceStream.CopiesToVector (.ofNative .littleEndian) .leftToRight
          (src.info.bytesPerBuffer framesPerBuffer) s' (some [1, 2, 3, 4]) := by
  obtain ⟨src, hsrc, hbeg, hinfo, hdata, hbytes⟩ := twoFramesWav_audioData
  obtain ⟨hcopy, -⟩ := (headers_copied (.ofNative .littleEndian) .leftToRight .powersOfTwo
    .littleEndian ⟨twoFramesWav, by decide⟩ 2).1 src hsrc hdata
  refine ⟨src, hsrc, ?_⟩
  intro s s' ho hrun
  have hs' := hcopy s s' [.read 2] [.bytes [1, 2]] ho
  rw [hbytes] at hs'
  change (Machine.Along _ _ (SampleStream.opened src.info.toStreamInfo [1, 2, 3, 4]) _ → _ →
    ∀ vec, _ ↔ _ = if (Machine.after _ (SampleStream.opened src.info.toStreamInfo [1, 2, 3, 4])
      _).good = true then _ else _) at hs'
  rw [hinfo] at hs'
  exact (hs' ⟨show 2 ∣ 2 by decide, trivial⟩ hrun _).2 rfl

end NiMedia
