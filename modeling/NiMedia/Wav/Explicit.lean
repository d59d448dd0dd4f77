/-
  Whether an accepted WAV file has an explicit format.

  The reader starts with a default info, of signed 8 bit, mono; it accepts the
  first non-empty `data` chunk it gets to, with the format of the last `fmt `
  chunk before it, or with the default one if there is none.

  * `accepts_explicit_iff`: what is accepted has an explicit format iff the walk
    does not get to a non-empty `data` chunk without having met a `fmt ` chunk.
-/
import NiMedia.Audio.Frames
import NiMedia.Wav.Walk

namespace NiMedia.Wav

open Bytes Loop Simulation

section
variable (native : EndianType) (B : List UInt8)

/-- The `n`-th header is one of a `fmt ` chunk. -/
def isFmtAt (n : ℕ) : Prop :=
  ∃ o tag, chunkOffset native B n = some o ∧ tagAt native B o = some tag ∧ tag.id = fmt

/-- The `n`-th header is one of a `fmt ` chunk of at least 16 bytes, which says
    `f`. -/
def parsesFmtAt (n : ℕ) (f : Fmt) : Prop :=
  ∃ o tag f', chunkOffset native B n = some o ∧ tagAt native B o = some tag ∧ tag.id = fmt ∧
    16 ≤ tag.length ∧ readFmtChunk native tag.length (⟨B, o + 8⟩ : File) = .ok (f, f')

/-- The `n`-th header is one of a `data` chunk that is not empty. -/
def isDataAt (n : ℕ) : Prop :=
  ∃ o tag, chunkOffset native B n = some o ∧ tagAt native B o = some tag ∧ tag.id = data ∧
    tag.length ≠ 0

/-- The walk has got to a `data` chunk, and the last `fmt ` chunk before it says
    what the info says. -/
def explicitFormat (info : WavIfstreamInfo) : Prop :=
  ∃ m n, m < n ∧ isDataAt native B n ∧ parsesFmtAt native B m info.fmt ∧
    ∀ k, m < k → k < n → ¬ isFmtAt native B k

/-- The walk gets to a `data` chunk without having met a `fmt ` chunk. -/
def unformatted : Prop :=
  isWave native B ∧ ∃ n, isDataAt native B n ∧ ∀ m < n, ¬ isFmtAt native B m

end

variable {native : EndianType}

theorem readFmtChunk_length {length : ℕ} {f f' : File} {x : Fmt}
    (h : readFmtChunk native length f = .ok (x, f')) : 16 ≤ length := by
  by_contra hlt
  rw [readFmtChunk, if_pos (by omega)] at h
  cases h

/-! ## The format along the walk -/

/-- Before the `n`-th pass, the format of the info is the one of the last `fmt `
    chunk, or the default one. -/
def formatBefore (native : EndianType) (B : List UInt8) (n : ℕ) (info : WavIfstreamInfo) : Prop :=
  (info.fmt = (WavIfstreamInfo.default native).fmt ∧ ∀ m < n, ¬ isFmtAt native B m) ∨
    ∃ m < n, parsesFmtAt native B m info.fmt ∧ ∀ k, m < k → k < n → ¬ isFmtAt native B k

variable {B : Content}

/-- The state of the loop before its passes. -/
theorem steps_chunkOffset {n : ℕ} {s : WavIfstreamInfo × File}
    (h : steps (loopStep (pass native)) n
      (WavIfstreamInfo.default native, (⟨B.bytes, 12⟩ : File)) = some s) :
    chunkOffset native B.bytes n = some s.2.pos ∧ s.2.bytes = B.bytes :=
  (steps_walk (fun s : WavIfstreamInfo × File => s.2.pos) (pass_chunkNext native)
    pass_chunkEnd (show overFile B (WavIfstreamInfo.default native, ⟨B.bytes, 12⟩) from rfl) n).1
    s h

theorem steps_of_chunkOffset {n o : ℕ} (h : chunkOffset native B.bytes n = some o) :
    ∃ info, steps (loopStep (pass native)) n
      (WavIfstreamInfo.default native, (⟨B.bytes, 12⟩ : File)) = some (info, ⟨B.bytes, o⟩) := by
  cases hs : steps (loopStep (pass native)) n
      (WavIfstreamInfo.default native, (⟨B.bytes, 12⟩ : File)) with
  | none =>
    have hend := (steps_walk (fun s : WavIfstreamInfo × File => s.2.pos)
      (pass_chunkNext native) pass_chunkEnd
      (show overFile B (WavIfstreamInfo.default native, ⟨B.bytes, 12⟩) from rfl) n).2 hs
    rw [chunkOffset] at h
    rw [h] at hend
    cases hend
  | some s =>
    obtain ⟨ho, hB⟩ := steps_chunkOffset hs
    obtain ⟨info, ⟨_, p⟩⟩ := s
    obtain rfl : _ = B.bytes := hB
    obtain rfl : o = p := Option.some.inj (h.symm.trans ho)
    exact ⟨info, rfl⟩

/-- **The format along the walk.** -/
theorem steps_formatBefore : ∀ (n : ℕ) (s : WavIfstreamInfo × File),
    steps (loopStep (pass native)) n (WavIfstreamInfo.default native, ⟨B.bytes, 12⟩) = some s →
      formatBefore native B.bytes n s.1
  | 0, _, h => by cases h; exact Or.inl ⟨rfl, fun m hm => by omega⟩
  | n + 1, (info', f'), h => by
    obtain ⟨⟨info, ⟨bytes, o⟩⟩, hs, hstep⟩ := steps_succ_inv h
    obtain ⟨ho, hB⟩ := steps_chunkOffset hs
    obtain rfl : bytes = B.bytes := hB
    obtain ⟨tag, f, htag, hlen, hx, -⟩ := pass_again hstep
    obtain ⟨-, hother, hfmt⟩ := readChunk_again hx
    by_cases hf : tag.id = fmt
    · have hread := hfmt hf
      exact Or.inr ⟨n, by omega, ⟨o, tag, f, ho, htag, hf, readFmtChunk_length hread, hread⟩,
        fun k h1 h2 => by omega⟩
    · -- the pass is not over a `fmt ` chunk, and leaves the format alone
      have hnot : ¬ isFmtAt native B.bytes n := by
        rintro ⟨o', tag', ho', htag', hf'⟩
        rw [ho] at ho'; cases ho'
        rw [htag] at htag'; cases htag'
        exact hf hf'
      have heq : info'.fmt = info.fmt := hother hf
      rcases steps_formatBefore n _ hs with ⟨hdef, hno⟩ | ⟨m, hm, hparse, hno⟩
      · refine Or.inl ⟨heq.trans hdef, fun m hm => ?_⟩
        rcases Nat.lt_succ_iff_lt_or_eq.1 hm with h | rfl
        · exact hno m h
        · exact hnot
      · refine Or.inr ⟨m, by omega, heq ▸ hparse, fun k h1 h2 => ?_⟩
        rcases Nat.lt_succ_iff_lt_or_eq.1 h2 with h | rfl
        · exact hno k h1 h
        · exact hnot

/-! ## Acceptance -/

theorem dataChunk_fmt {length : ℕ} {info info' : WavIfstreamInfo}
    (h : dataChunk length info = .ok info') : info'.fmt = info.fmt := by
  unfold dataChunk at h
  split_ifs at h
  cases h; rfl

theorem bytesPerFrame_of_fmt {info info' : WavIfstreamInfo} (h : info.fmt = info'.fmt) :
    info.bytesPerFrame = info'.bytesPerFrame := by
  simp only [WavIfstreamInfo.fmt, Fmt.mk.injEq] at h
  rw [StreamInfo.bytesPerFrame, StreamInfo.bytesPerFrame, StreamInfo.bytesPerSample,
    StreamInfo.bytesPerSample, StreamInfo.bitsPerSample, StreamInfo.bitsPerSample, h.1, h.2.1]

/-- The pass over the `data` chunk ends the loop. -/
theorem accepted_steps {fuel : ℕ} {info : WavIfstreamInfo} {f : File}
    (h : readWavHeader native fuel (⟨B.bytes, 0⟩ : File) = some (.ok (info, f))) :
    isWave native B.bytes ∧ ∃ n o tag info₀,
      steps (loopStep (pass native)) n (WavIfstreamInfo.default native, (⟨B.bytes, 12⟩ : File)) =
        some (info₀, ⟨B.bytes, o⟩) ∧
      tagAt native B.bytes o = some tag ∧ tag.id = data ∧ tag.length ≠ 0 ∧
      dataChunk tag.length info₀ = .ok info ∧ f = ⟨B.bytes, o + 8⟩ := by
  by_cases hw : isWave native B.bytes
  · rw [readWavHeader_isWave hw] at h
    obtain ⟨n, ⟨info₀, ⟨bytes, o⟩⟩, hs, hdone⟩ := returns_iff_steps.1 (Returns.of_iterate fuel h)
    obtain ⟨-, hB⟩ := steps_chunkOffset hs
    obtain rfl : bytes = B.bytes := hB
    obtain ⟨tag, htag, hlen, hd, hdata, hf⟩ := (pass_done hdone).2 info f rfl
    exact ⟨hw, n, o, tag, info₀, hs, htag, hd, hlen, hdata, hf⟩
  · obtain ⟨e, he⟩ := readWavHeader_not_isWave hw fuel 0
    rw [h] at he
    cases he

/-- **Acceptance.**  What the header reader returns over a file: the info of the
    chunks before the `data` chunk, completed by it. -/
theorem readWavHeader_accepted {fuel : ℕ} {info : WavIfstreamInfo} {f : File}
    (h : readWavHeader native fuel (⟨B.bytes, 0⟩ : File) = some (.ok (info, f))) :
    isWave native B.bytes ∧ ∃ n o tag info₀, chunkOffset native B.bytes n = some o ∧
      tagAt native B.bytes o = some tag ∧ tag.id = data ∧ tag.length ≠ 0 ∧
      formatBefore native B.bytes n info₀ ∧ dataChunk tag.length info₀ = .ok info ∧
      f = ⟨B.bytes, o + 8⟩ := by
  obtain ⟨hw, n, o, tag, info₀, hs, htag, hd, hlen, hdata, hf⟩ := accepted_steps h
  exact ⟨hw, n, o, tag, info₀, (steps_chunkOffset hs).1, htag, hd, hlen, steps_formatBefore n _ hs,
    hdata, hf⟩

/-- What is accepted over a file has an explicit format, unless there is no
    `fmt ` chunk before the `data` chunk. -/
theorem accepted_explicit (hno : ¬ unformatted native B.bytes) {fuel : ℕ}
    {info : WavIfstreamInfo} {f : File}
    (h : readWavHeader native fuel (⟨B.bytes, 0⟩ : File) = some (.ok (info, f))) :
    explicitFormat native B.bytes info := by
  obtain ⟨hw, n, o, tag, info₀, ho, htag, hd, hlen, hformat, hdata, -⟩ :=
    readWavHeader_accepted h
  have hat : isDataAt native B.bytes n := ⟨o, tag, ho, htag, hd, hlen⟩
  rcases hformat with ⟨-, hnone⟩ | ⟨m, hm, hparse, hlast⟩
  · exact absurd ⟨hw, n, hat, hnone⟩ hno
  · exact ⟨m, n, hm, hat, (dataChunk_fmt hdata) ▸ hparse, hlast⟩

/-! ## Sizes -/

theorem toFmt_ok {c : FmtChunk} {formatTag : ℕ} {x : Fmt}
    (h : c.toFmt native formatTag = .ok x) :
    determineFormat native formatTag c.bitsPerSample = .ok x.format ∧
      x.numChannels = c.numChannels ∧ x.sampleRate = c.sampleRate ∧
      1 ≤ x.numChannels ∧ x.numChannels ≤ 255 ∧ 1 ≤ x.sampleRate := by
  unfold FmtChunk.toFmt at h
  cases hformat : determineFormat native formatTag c.bitsPerSample with
  | error e => rw [hformat] at h; cases h
  | ok format =>
    rw [hformat, ok_bind] at h
    by_cases hch : c.numChannels < 1 ∨ 255 < c.numChannels
    · rw [if_pos hch] at h
      cases h
    · by_cases hrate : c.sampleRate < 1
      · rw [if_neg hch, if_pos hrate] at h
        cases h
      · rw [if_neg hch, if_neg hrate] at h
        cases h
        rw [not_or] at hch
        exact ⟨rfl, rfl, rfl, Nat.not_lt.1 hch.1, Nat.not_lt.1 hch.2, Nat.not_lt.1 hrate⟩

theorem readFmtChunk_ok {length p : ℕ} {x : Fmt} {f : File}
    (h : readFmtChunk native length (⟨B.bytes, p⟩ : File) = .ok (x, f)) :
    ∃ c formatTag, (FmtChunk.layout native).get B.bytes p = some c ∧ ¬ c.invalidBlockAlign ∧
      c.toFmt native formatTag = .ok x := by
  rw [readFmtChunk, if_neg (Nat.not_lt.2 (readFmtChunk_length h))] at h
  obtain ⟨⟨r, f₁⟩, hfetch, h⟩ := run_bind_ok h
  rw [fetch_file] at hfetch
  cases hc : (FmtChunk.layout native).get B.bytes p with
  | none => rw [hc] at hfetch; cases hfetch; cases h
  | some c =>
    rw [hc] at hfetch
    cases hfetch
    by_cases halign : c.invalidBlockAlign
    · simp only [if_pos halign] at h
      cases h
    · simp only [if_neg halign] at h
      obtain ⟨⟨formatTag, f₂⟩, -, h⟩ := run_bind_ok h
      rw [run_liftM] at h
      cases hx : c.toFmt native formatTag with
      | error e => rw [hx] at h; cases h
      | ok x' => rw [hx] at h; cases h; exact ⟨c, formatTag, rfl, halign, hx⟩

theorem formatBefore_numChannels {n : ℕ} {info : WavIfstreamInfo}
    (h : formatBefore native B.bytes n info) : 1 ≤ info.numChannels ∧ info.numChannels ≤ 255 := by
  rcases h with ⟨hdef, -⟩ | ⟨m, -, ⟨o, tag, f, -, -, -, -, hread⟩, -⟩
  · have hch : info.numChannels = 1 := congrArg Fmt.numChannels hdef
    omega
  · obtain ⟨c, formatTag, -, -, hfmt⟩ := readFmtChunk_ok hread
    obtain ⟨-, -, -, h1, h2, -⟩ := toFmt_ok hfmt
    exact ⟨h1, h2⟩

theorem chunkOffset_lt {n o : ℕ} {X : List UInt8} (h : chunkOffset native X n = some o) :
    o < 2 ^ 32 := by
  cases n with
  | zero => cases h; decide
  | succ n =>
    obtain ⟨o', -, hnext⟩ := Option.bind_eq_some_iff.1 h
    obtain ⟨tag, -, rfl⟩ := chunkNext_some hnext
    exact nextOffset_lt _ _

theorem tagAt_length_lt {o : ℕ} {tag : RiffTag} {X : List UInt8}
    (h : tagAt native X o = some tag) : tag.length < 2 ^ 32 := by
  have hle := tagAt_le h
  rw [tagAt, if_pos hle] at h
  cases h
  have hlt := native.ofBytes_lt (slice X (o + 4) 4)
  rwa [length_slice (by omega)] at hlt

/-- The frames of an accepted file are those of its `data` chunk. -/
theorem sized_of_accepted {fuel : ℕ} {info : WavIfstreamInfo} {f : File}
    (h : readWavHeader native fuel (⟨B.bytes, 0⟩ : File) = some (.ok (info, f))) :
    info.toIfstreamInfo.Sized ∧ f.pos ≤ B.bytes.length ∧ f.pos ≤ 2 ^ 34 := by
  obtain ⟨-, n, o, tag, info₀, ho, htag, -, -, hformat, hdata, rfl⟩ := readWavHeader_accepted h
  obtain ⟨hch1, hch2⟩ := formatBefore_numChannels hformat
  have hlt := tagAt_length_lt htag
  have hpos := chunkOffset_lt ho
  refine ⟨?_, tagAt_le htag, by change o + 8 ≤ _; omega⟩
  unfold dataChunk at hdata
  split_ifs at hdata with hframe hempty
  cases hdata
  refine ⟨hch1, hch2, ?_, ?_⟩
  · change 1 ≤ tag.length / info₀.bytesPerFrame
    omega
  · exact (Nat.div_le_self _ _).trans_lt hlt

/-- The view of a source begins where the header reader stops on a file. -/
theorem construct_of_file {δ : Type} [ExactSource δ] {fuel : ℕ} {d : δ} {src : WavSource δ}
    (hd : ByteSource.At B 0 d) (h : WavSource.construct native fuel d = some (.ok src)) :
    ∃ f, readWavHeader native fuel (⟨B.bytes, 0⟩ : File) = some (.ok (src.info, f)) ∧
      src.info.toIfstreamInfo.Sized ∧
      FramesAt B.bytes f.pos src.info.numBytes src.bytesPerFrame f.pos src := by
  obtain ⟨s₀, hread, hframes⟩ := construct_framesAt (B := B.bytes) h
  have hrel : Rel B (WavSource.unread native d) ⟨B.bytes, 0⟩ := ⟨rfl, at_wavSource native B hd⟩
  obtain ⟨f, hfile, -, hat⟩ := rel_ok_left (readWavHeader_sim native fuel hrel) hread
  obtain ⟨hsized, hin, hp⟩ := sized_of_accepted hfile
  obtain ⟨hview, hpos⟩ := viewAt_whole hat.1
  rw [hpos hin] at hview
  exact ⟨f, hfile, hsized, hframes f.pos hview hp hsized⟩

theorem chunkOffset_data {n : ℕ} (h : isDataAt native B.bytes n) :
    chunkOffset native B.bytes (n + 1) = none := by
  obtain ⟨o, tag, ho, htag, hd, hlen⟩ := h
  rw [chunkOffset, walk_succ ho]
  simp only [chunkNext, htag]
  refine if_neg fun hg => ?_
  obtain ⟨info, f, hx⟩ := again_of_goesOn hg.2 (WavIfstreamInfo.default native)
  exact (readChunk_again hx).1 hd

theorem isDataAt_unique {m n : ℕ} (hm : isDataAt native B.bytes m)
    (hn : isDataAt native B.bytes n) : m = n := by
  have hend := fun {m n} (hm : isDataAt native B.bytes m) (hn : isDataAt native B.bytes n) =>
    show ¬ m < n from fun hlt => by
      obtain ⟨o, -, ho, -⟩ := hn
      rw [chunkOffset, walk_none (chunkOffset_data hm) hlt] at ho
      cases ho
  rcases Nat.lt_trichotomy m n with h | h | h
  · exact absurd h (hend hm hn)
  · exact h
  · exact absurd h (hend hn hm)

/-- A `data` chunk that no `fmt ` chunk precedes is accepted. -/
theorem unformatted_accepted (hw : isWave native B.bytes) {n : ℕ} (hd : isDataAt native B.bytes n)
    (hno : ∀ m < n, ¬ isFmtAt native B.bytes m) :
    ∃ fuel info f, readWavHeader native fuel (⟨B.bytes, 0⟩ : File) = some (.ok (info, f)) := by
  obtain ⟨o, tag, ho, htag, hid, hlen⟩ := hd
  obtain ⟨info, hs⟩ := steps_of_chunkOffset ho
  have hdef : info.fmt = (WavIfstreamInfo.default native).fmt := by
    rcases steps_formatBefore n _ hs with ⟨hdef, -⟩ | ⟨m, hm, ⟨o', tag', _, ho', htag', hf, -⟩, -⟩
    · exact hdef
    · exact absurd ⟨o', tag', ho', htag', hf⟩ (hno m hm)
  have hbpf : info.bytesPerFrame = 1 := (bytesPerFrame_of_fmt hdef).trans (bytesPerFrame_default _)
  obtain ⟨info', hdata⟩ : ∃ info', dataChunk tag.length info = .ok info' := by
    unfold dataChunk
    rw [hbpf, if_neg (by decide), Nat.div_one, if_neg (by omega)]
    exact ⟨_, rfl⟩
  have hdone : loopStep (pass native) (info, (⟨B.bytes, o⟩ : File)) =
      .done (.ok (info', ⟨B.bytes, o + 8⟩)) := by
    simp only [loopStep, pass_file, htag, if_neg hlen, readChunk_data hid, hdata, Except.map]
  obtain ⟨fuel, hfuel⟩ := returns_iff.1 (returns_iff_steps.2 ⟨n, _, hs, hdone⟩)
  exact ⟨fuel, info', _, by rw [readWavHeader_isWave hw, hfuel]⟩

/-- What the reader accepts from a source has an explicit format, and a `data`
    chunk that no `fmt ` chunk precedes makes it throw. -/
def acceptsExplicit {σ : Type} [Source σ] (native : EndianType) (B : List UInt8) (s : σ) : Prop :=
  (∀ fuel info s', readWavHeader native fuel s = some (.ok (info, s')) →
    explicitFormat native B info) ∧
  (unformatted native B → ∃ fuel e, readWavHeader native fuel s = some (.error e))

theorem acceptsExplicit_iff {σ : Type} [ByteSource σ] {s : σ} (hs : ByteSource.At B 0 s) :
    acceptsExplicit native B.bytes s ↔ ¬ unformatted native B.bytes := by
  have hrel : Rel B s ⟨B.bytes, 0⟩ := ⟨rfl, hs⟩
  constructor
  · rintro ⟨hok, -⟩ ⟨hw, n, hd, hno⟩
    obtain ⟨fuel, info, f, hf⟩ := unformatted_accepted hw hd hno
    obtain ⟨s', hs', -⟩ := rel_ok_right (readWavHeader_sim native fuel hrel) hf
    obtain ⟨m, n', hm, hd', ⟨o, tag, _, ho, htag, hfmt, -⟩, -⟩ := hok fuel info s' hs'
    obtain rfl := isDataAt_unique hd hd'
    exact hno m hm ⟨o, tag, ho, htag, hfmt⟩
  · intro hno
    constructor
    · intro fuel info s' h
      obtain ⟨f, hf, -⟩ := rel_ok_left (readWavHeader_sim native fuel hrel) h
      exact accepted_explicit hno hf
    · intro h
      exact absurd h hno

/-- **Acceptance.**  On every byte string, served by a container or a file, what
    the header reader accepts has the format of the last `fmt ` chunk before the
    `data` chunk, iff the walk does not get to a `data` chunk without having met
    a `fmt ` chunk. -/
theorem accepts_explicit_iff (native : EndianType) (B : Content) :
    (acceptsExplicit native B.bytes (WavSource.unread native (Container.mk' B.bytes)) ↔
      ¬ unformatted native B.bytes) ∧
    (acceptsExplicit native B.bytes (WavSource.unread native (File.opened B.bytes)) ↔
      ¬ unformatted native B.bytes) :=
  ⟨acceptsExplicit_iff (at_wavSource native B (at_container B)),
    acceptsExplicit_iff (at_wavSource native B (at_opened B))⟩

/-- A WAVE file of a `data` chunk only. -/
def unformattedWav : List UInt8 :=
  [0x52, 0x49, 0x46, 0x46, 0x0D, 0, 0, 0, 0x57, 0x41, 0x56, 0x45,
   0x64, 0x61, 0x74, 0x61, 1, 0, 0, 0, 0]

/-- It is accepted. -/
theorem unformattedWav_accepted :
    ¬ acceptsExplicit .littleEndian unformattedWav
      (WavSource.unread .littleEndian (Container.mk' unformattedWav)) := by
  have hB : ByteSource.At ⟨unformattedWav, by decide⟩ 0 (Container.mk' unformattedWav) := ⟨rfl, rfl⟩
  have hd : isDataAt .littleEndian unformattedWav 0 :=
    ⟨12, ⟨data, 1⟩, rfl, by decide, rfl, by decide⟩
  rw [acceptsExplicit_iff (at_wavSource .littleEndian _ hB), not_not]
  exact ⟨by decide, 0, hd, fun m hm => absurd hm (Nat.not_lt_zero m)⟩

end NiMedia.Wav
