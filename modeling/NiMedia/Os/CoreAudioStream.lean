/-
  Streams over files that Core Audio decodes
  (`audio/os/mac/core_audio_source.h`: `read` and `seek`).

  The extended audio file services are a parameter.  A read of them may be short;
  the source does not ask them to read behind the last frame, nor to seek where
  it stands.

  * `coreAudioSource_actsAsCursor`: the source acts as a cursor over the decoded
    bytes.
  * `coreAudio_streams`: streams over the source, and copies of them, are those of
    the decoded bytes.
-/
import NiMedia.Audio.CopiedStream

namespace NiMedia

open Bytes Words SourceStream

namespace CoreAudio

/-! ## The source -/

/-- `ExtAudioFileRead`, for a number of frames, and `ExtAudioFileSeek`, to a frame.
    A read that succeeds has put bytes into the buffer. -/
structure ExtAudioFile (μ : Type) where
  read : ℕ → μ → Option (List UInt8) × μ
  seek : ℤ → μ → Bool × μ

/-- The stream info that `buildOutStreamInfo` lets through. -/
structure Info extends StreamInfo where
  numFrames : ℕ
  numFrames_pos : 1 ≤ numFrames
  numChannels_pos : 1 ≤ numChannels
  numChannels_le : numChannels ≤ 255

namespace Info

variable (info : Info)

def numBytes : ℕ := sizeT (sizeT (info.numFrames * info.numChannels) * info.bytesPerSample)

theorem bytesPerFrame_eq : info.bytesPerFrame = info.bytesPerSample * info.numChannels :=
  info.bytesPerFrame_of_le (info.numChannels_le.trans (by decide))

theorem bytesPerFrame_pos : 0 < info.bytesPerFrame := by
  rw [info.bytesPerFrame_eq]
  exact Nat.mul_pos info.bytesPerSample_pos info.numChannels_pos

theorem numBytes_eq (h : info.numFrames * info.bytesPerFrame < 2 ^ 63) :
    info.numBytes = info.numFrames * info.bytesPerFrame := by
  have hcomm : info.numFrames * info.bytesPerFrame =
      info.numFrames * info.numChannels * info.bytesPerSample := by
    rw [info.bytesPerFrame_eq]
    ring
  rw [hcomm] at h ⊢
  exact sizeT_mul_mul info.bytesPerSample_pos (by omega)

end Info

/-- `core_audio_source`, with its services and its info. -/
structure CoreAudioSource {μ : Type} (X : ExtAudioFile μ) (info : Info) where
  media : μ
  pos : ℤ

section
variable {μ : Type} {X : ExtAudioFile μ} {info : Info}

def seek (off : ℤ) (way : SeekDir) (s : CoreAudioSource X info) : ℤ × CoreAudioSource X info :=
  let pos := absolutePosition s.pos 0 info.numBytes off way
  if s.pos ≠ pos then
    let (ok, media) := X.seek (pos / info.bytesPerFrame) s.media
    if ok then (pos, ⟨media, pos⟩) else (s.pos, ⟨media, s.pos⟩)
  else (s.pos, s)

def read (size : ℕ) (s : CoreAudioSource X info) : List UInt8 × CoreAudioSource X info :=
  if size = 0 ∨ info.numBytes ≤ s.pos then ([], s)
  else
    let size := min size (info.numBytes - s.pos).toNat
    match X.read (size / info.bytesPerFrame % 2 ^ 32) s.media with
    | (none, media) => ([], ⟨media, s.pos⟩)
    | (some dst, media) => (dst, ⟨media, wrap 64 (s.pos + dst.length)⟩)

/-- A buffer takes a count of zero as it takes -1. -/
instance : Source (CoreAudioSource X info) where
  read n s := (deliver (read n s).1, (read n s).2)
  seek := seek

/-- A file with the frames of `pcm`: `At k m` says that frame `k` is next.  A read
    brings some of the frames that are asked for, and a seek goes to any of them. -/
structure Decodes (X : ExtAudioFile μ) (info : Info) (pcm : List UInt8) (At : ℕ → μ → Prop) :
    Prop where
  length : pcm.length = info.numFrames * info.bytesPerFrame
  fits : pcm.length < 2 ^ 63
  read : ∀ {k m n}, At k m → 0 < n → k + n ≤ info.numFrames → ∃ j m', 0 < j ∧ j ≤ n ∧
    X.read n m = (some (slice pcm (k * info.bytesPerFrame) (j * info.bytesPerFrame)), m') ∧
      At (k + j) m'
  seek : ∀ {k m} {q : ℕ}, At k m → q < info.numFrames → ∃ m', X.seek q m = (true, m') ∧ At q m'

/-- The source stands at a frame of the cursor. -/
structure StandsAt (info : Info) (pcm : List UInt8) (At : ℕ → μ → Prop) (c : Cursor)
    (s : CoreAudioSource X info) : Prop where
  bytes : c.bytes = pcm
  pos : s.pos = c.pos
  media : ∃ k, c.pos = k * info.bytesPerFrame ∧ At k s.media

variable {pcm : List UInt8} {At : ℕ → μ → Prop} {c : Cursor} {s : CoreAudioSource X info}

theorem Decodes.numBytes_eq (hdec : Decodes X info pcm At) : info.numBytes = pcm.length := by
  have hfits := hdec.fits
  rw [hdec.length] at hfits ⊢
  exact info.numBytes_eq hfits

/-! ### Reads -/

theorem StandsAt.length (h : StandsAt info pcm At c s) (hdec : Decodes X info pcm At) :
    c.bytes.length = info.numFrames * info.bytesPerFrame := by
  rw [h.bytes, hdec.length]

/-- At the end, the services are not asked. -/
theorem read_end (hdec : Decodes X info pcm At) (hend : (pcm.length : ℤ) ≤ s.pos) (n : ℕ) :
    CoreAudio.read n s = ([], s) := by
  rw [CoreAudio.read, if_pos (.inr (by rw [hdec.numBytes_eq]; exact hend))]

/-- Before the end, they are asked for the frames that there are. -/
theorem read_more (hdec : Decodes X info pcm At) {k N : ℕ}
    (hpos : s.pos = (k * info.bytesPerFrame : ℕ)) (hlt : k < info.numFrames) (hN : 0 < N)
    (hint : N * info.bytesPerFrame < 2 ^ 31) (hat : At k s.media) :
    ∃ j m', 0 < j ∧ j ≤ N ∧ k + j ≤ info.numFrames ∧ At (k + j) m' ∧
      CoreAudio.read (N * info.bytesPerFrame) s =
        (slice pcm (k * info.bytesPerFrame) (j * info.bytesPerFrame),
          ⟨m', ((k + j) * info.bytesPerFrame : ℕ)⟩) := by
  have hF := info.bytesPerFrame_pos
  have hfits := hdec.fits
  have hnum := hdec.numBytes_eq
  rw [hdec.length] at hfits hnum
  have hmul : k * info.bytesPerFrame < info.numFrames * info.bytesPerFrame :=
    Nat.mul_lt_mul_of_pos_right hlt hF
  have hsize : 0 < N * info.bytesPerFrame := Nat.mul_pos hN hF
  have hmore : ¬ (N * info.bytesPerFrame = 0 ∨ (info.numBytes : ℤ) ≤ s.pos) := by
    rw [hnum, hpos]
    omega
  -- as many frames as are left
  have hrest : ((info.numBytes : ℤ) - s.pos).toNat =
      (info.numFrames - k) * info.bytesPerFrame := by
    rw [hnum, hpos, Nat.sub_mul]
    omega
  have hframes : min (N * info.bytesPerFrame) (info.numBytes - s.pos).toNat / info.bytesPerFrame %
      2 ^ 32 = min N (info.numFrames - k) := by
    have hle : N ≤ N * info.bytesPerFrame := Nat.le_mul_of_pos_right N hF
    rw [hrest, Nat.mul_min_mul_right, Nat.mul_div_cancel _ hF]
    exact Nat.mod_eq_of_lt (by omega)
  obtain ⟨j, m', hj, hjle, hread, hat'⟩ := hdec.read (n := min N (info.numFrames - k)) hat
    (by omega) (by omega)
  have hin : (k + j) * info.bytesPerFrame ≤ info.numFrames * info.bytesPerFrame :=
    Nat.mul_le_mul_right _ (by omega)
  have hlen : (slice pcm (k * info.bytesPerFrame) (j * info.bytesPerFrame)).length =
      j * info.bytesPerFrame := by
    rw [Nat.add_mul] at hin
    exact length_slice (by rwa [hdec.length])
  have hwrap : wrap 64 ((k * info.bytesPerFrame : ℕ) + (j * info.bytesPerFrame : ℕ) : ℤ) =
      ((k + j) * info.bytesPerFrame : ℕ) := by
    have hlt : (k + j) * info.bytesPerFrame < 2 ^ 63 := by omega
    rw [← Nat.cast_add, ← Nat.add_mul]
    generalize (k + j) * info.bytesPerFrame = x at hlt ⊢
    exact wrap_of_range (by omega) (by norm_num; omega)
  refine ⟨j, m', hj, by omega, by omega, hat', ?_⟩
  rw [CoreAudio.read, if_neg hmore]
  simp only [hframes, hread]
  rw [hlen, hpos, hwrap]

/-- A read of some frames is one of as many as the services bring. -/
theorem StandsAt.read (h : StandsAt info pcm At c s) (hdec : Decodes X info pcm At) {n : ℕ}
    (hn : BufferSize info.bytesPerFrame n) : ∃ k ≤ n, info.bytesPerFrame ∣ k ∧ 0 < k ∧
      (Source.read n s).1 = (c.read k).1 ∧
      StandsAt info pcm At (c.read k).2 (Source.read n s).2 := by
  obtain ⟨k, hk, hat⟩ := h.media
  obtain ⟨⟨N, rfl⟩, hpos, hint⟩ := hn
  rw [Nat.mul_comm] at hpos hint ⊢
  have hlen := h.length hdec
  have hle := c.pos_le
  rw [hlen, hk] at hle
  rcases Nat.eq_or_lt_of_le (Nat.le_of_mul_le_mul_right hle info.bytesPerFrame_pos) with rfl | hlt
  · have hend : c.next (N * info.bytesPerFrame) = [] := by
      rw [← List.length_eq_zero_iff, c.length_next, hlen, hk, Nat.sub_self, Nat.min_zero]
    have hread := read_end hdec (s := s) (by rw [hdec.length, h.pos, hk]) (N * info.bytesPerFrame)
    refine ⟨_, le_rfl, Nat.dvd_mul_left _ _, hpos, ?_⟩
    simp only [Source.read, hread]
    rw [Cursor.read_end hend, Cursor.fst_read, hend]
    exact ⟨rfl, h⟩
  · obtain ⟨j, m', hj, hjN, hin, hat', hread⟩ := read_more hdec (by rw [h.pos, hk]) hlt
      (Nat.pos_of_mul_pos_right hpos) hint hat
    have hnext : slice pcm (k * info.bytesPerFrame) (j * info.bytesPerFrame) =
        c.next (j * info.bytesPerFrame) := by
      rw [Cursor.next, h.bytes, hk]
    have hjlen : (c.next (j * info.bytesPerFrame)).length = j * info.bytesPerFrame := by
      have hmul := Nat.mul_le_mul_right info.bytesPerFrame hin
      rw [Nat.add_mul] at hmul
      rw [c.length_next, hlen, hk]
      omega
    have hpos' : (c.read (j * info.bytesPerFrame)).2.pos = (k + j) * info.bytesPerFrame := by
      rw [Cursor.pos_read, hjlen, hk, Nat.add_mul]
    refine ⟨j * info.bytesPerFrame, Nat.mul_le_mul_right _ hjN, Nat.dvd_mul_left _ _,
      Nat.mul_pos hj info.bytesPerFrame_pos, ?_⟩
    simp only [Source.read, hread, hnext]
    exact ⟨rfl, h.bytes, by rw [hpos'], k + j, hpos', hat'⟩

/-! ### Seeks -/

theorem StandsAt.seek (h : StandsAt info pcm At c s) (hdec : Decodes X info pcm At) {off : ℤ}
    {way : SeekDir} (hfits : fits 0 c (.seek off way))
    (hdvd : info.bytesPerFrame ∣ c.sought off way)
    (hreach : c.sought off way < c.bytes.length ∨ c.pos = c.bytes.length) :
    (Device.seek off way s).1 = (c.seek off way).1 ∧
      StandsAt info pcm At (c.seek off way).2 (Device.seek off way s).2 := by
  obtain ⟨k, hk, hat⟩ := h.media
  have habs := c.absolutePosition_zero hfits
  have hF := info.bytesPerFrame_pos
  have hlen := h.length hdec
  rw [h.bytes, ← hdec.numBytes_eq, ← h.pos] at habs
  have hle : c.sought off way ≤ c.bytes.length := Nat.min_le_right _ _
  obtain ⟨q, hq⟩ := hdvd
  rw [Nat.mul_comm] at hq
  by_cases hsame : c.sought off way = c.pos
  · have hstep : CoreAudio.seek off way s = (s.pos, s) := by
      rw [CoreAudio.seek, if_neg (by rw [habs, hsame, h.pos]; exact fun hne => hne rfl)]
    simp only [Device.seek, hstep]
    refine ⟨by rw [h.pos, Cursor.fst_seek, hsame], h.bytes, ?_, k, ?_, hat⟩
    · rw [h.pos, Cursor.pos_seek, hsame]
    · rw [Cursor.pos_seek, hsame, hk]
  · have hlt : q < info.numFrames := by
      have hbefore : c.sought off way < c.bytes.length := by
        rcases hreach with hlt | hend
        · exact hlt
        · omega
      rw [hq, hlen] at hbefore
      exact Nat.lt_of_mul_lt_mul_right hbefore
    obtain ⟨m', hseek, hat'⟩ := hdec.seek hat hlt
    have hframe : ((c.sought off way : ℕ) : ℤ) / info.bytesPerFrame = (q : ℤ) := by
      rw [hq, ← Int.natCast_ediv, Nat.mul_div_cancel _ hF]
    have hne : s.pos ≠ ((c.sought off way : ℕ) : ℤ) := by
      rw [h.pos]
      exact fun heq => hsame (Nat.cast_inj.1 heq).symm
    have hstep : CoreAudio.seek off way s =
        ((c.sought off way : ℤ), ⟨m', c.sought off way⟩) := by
      simp only [CoreAudio.seek, habs, if_pos hne, hframe, hseek, if_true]
    simp only [Device.seek, hstep]
    exact ⟨rfl, h.bytes, rfl, q, hq, hat'⟩

/-- **The source** acts as a cursor over the decoded bytes. -/
theorem coreAudioSource_actsAsCursor (hdec : Decodes X info pcm At) :
    ActsAsCursor info.bytesPerFrame 0 beforeEnd (StandsAt (X := X) info pcm At) where
  reach := reach_beforeEnd
  aligned h := by
    obtain ⟨k, hk, -⟩ := h.media
    rw [hk, h.bytes, hdec.length]
    exact ⟨Nat.dvd_mul_left _ _, Nat.dvd_mul_left _ _⟩
  read _ h hn := h.read hdec hn
  seek _ _ h hfits hdvd hreach := h.seek hdec hfits hdvd (beforeEnd_of_asks hreach)

/-! ## Streams -/

/-- **Streams over Core Audio.**  If the services decode the frames of a file, in
    pieces of any size, a stream over the source answers any run of calls as one
    over the decoded bytes does, if no seek goes to the end from before it, and is
    copied with all of them. -/
theorem coreAudio_streams (h : Host) (order : EvaluationOrder) (hdec : Decodes X info pcm At)
    {m : μ} (hm : At 0 m) :
    StreamsOverTo beforeEnd h order info.bytesPerFrame 0 (info.bytesPerBuffer framesPerBuffer)
        (⟨m, 0⟩ : CoreAudioSource X info) info.toStreamInfo pcm ∧
      CopiesOver beforeEnd h order info.bytesPerFrame 0 (info.bytesPerBuffer framesPerBuffer)
        (⟨m, 0⟩ : CoreAudioSource X info) info.toStreamInfo pcm := by
  have hb := buffers_of_channels info.numChannels_pos info.numChannels_le
    (coreAudioSource_actsAsCursor hdec)
  have hstands : StandsAt info pcm At ⟨pcm, 0, Nat.zero_le _⟩ (⟨m, 0⟩ : CoreAudioSource X info) :=
    ⟨rfl, rfl, 0, (Nat.zero_mul _).symm, hm⟩
  have hfits : 0 + pcm.length < 2 ^ 63 := by
    rw [Nat.zero_add]
    exact hdec.fits
  exact ⟨streamsOverTo h order (c := ⟨pcm, 0, Nat.zero_le _⟩) hb hstands rfl hfits,
    copiesOver h order (c := ⟨pcm, 0, Nat.zero_le _⟩) hb hstands rfl hfits⟩

end

/-- Services that bring a frame at a time. -/
def frameByFrame (F : ℕ) (pcm : List UInt8) : ExtAudioFile ℕ where
  read n k := (some (slice pcm (k * F) (min n 1 * F)), k + min n 1)
  seek q _ := (true, q.toNat)

theorem frameByFrame_decodes (info : Info) {pcm : List UInt8}
    (hlength : pcm.length = info.numFrames * info.bytesPerFrame) (hfits : pcm.length < 2 ^ 63) :
    Decodes (frameByFrame info.bytesPerFrame pcm) info pcm fun k m => m = k where
  length := hlength
  fits := hfits
  read := by
    rintro k m n rfl hn -
    have hone : min n 1 = 1 := Nat.min_eq_right hn
    refine ⟨1, m + 1, Nat.one_pos, hn, ?_, rfl⟩
    simp only [frameByFrame, hone]
  seek := by
    rintro k m q - -
    exact ⟨q, rfl, rfl⟩

/-- Three frames of 8 bit mono. -/
def threeInfo : Info where
  format := s8
  numFrames := 3
  numFrames_pos := by decide
  numChannels_pos := Nat.one_pos
  numChannels_le := by decide

/-- The first two frames, at once; the last one by a seek, and the end. -/
theorem coreAudio_streams_three :
    ∃ s s' : SourceStream (CoreAudioSource (frameByFrame 1 [1, 2, 3]) threeInfo),
      s.source = ⟨0, 0⟩ ∧
      Machine.Runs (Step (.ofNative .littleEndian) .leftToRight
          (threeInfo.bytesPerBuffer framesPerBuffer)) s
        [.read 2, .seekg (.frameSeekg 2 .beg), .read 1, .tellg, .read 1, .rdstate]
        [.bytes [1, 2], .nothing, .bytes [3], .position 3, .bytes [], .bits true true] s' := by
  have hdec : Decodes (frameByFrame 1 [1, 2, 3]) threeInfo [1, 2, 3] fun k m => m = k :=
    frameByFrame_decodes threeInfo rfl (by decide)
  obtain ⟨⟨⟨s, hs⟩, hruns⟩, -⟩ := coreAudio_streams (.ofNative .littleEndian) .leftToRight hdec rfl
  obtain ⟨s', hrun⟩ := (hruns s hs
    [.read 2, .seekg (.frameSeekg 2 .beg), .read 1, .tellg, .read 1, .rdstate]
    ⟨⟨show 1 ∣ 2 by decide, trivial⟩,
      ⟨fun _ => ⟨⟨by decide, by decide⟩, one_dvd _⟩, fun _ => .inl (by decide)⟩,
      ⟨one_dvd _, trivial⟩, ⟨trivial, trivial⟩, ⟨one_dvd _, trivial⟩, ⟨trivial, trivial⟩,
      trivial⟩ _).2 rfl
  exact ⟨s, s', hs.source, hrun⟩

end CoreAudio

end NiMedia
