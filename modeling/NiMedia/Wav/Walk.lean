/-
  The walk of the WAV header reader over the chunks of a file.

  The offsets of the chunk headers are those of a walk (`chunkNext`) from offset
  12: a header leads on unless it cannot be read, its length is 0, it is the
  `data` chunk, or its handler throws.  The offset of the next header is
  computed in 32 bits.

  * `readWavHeader_terminates_iff`: the reader terminates unless a header whose
    32-bit sum wraps around leads back to a header that has been walked over.
-/
import NiMedia.Wav.Source

namespace NiMedia.Wav

open Bytes Loop Simulation

/-! ## Passes over a file -/

section
variable (native : EndianType)

/-- The chunk header at offset `o`. -/
def tagAt (B : List UInt8) (o : ℕ) : Option RiffTag :=
  if o + 8 ≤ B.length then
    some ⟨native.ofBytes (slice B o 4), native.ofBytes (slice B (o + 4) 4)⟩
  else none

/-- The handler of the chunk at offset `o` goes through, and the loop on. -/
def goesOn (B : List UInt8) (o : ℕ) (tag : RiffTag) : Bool :=
  match readChunk native tag (WavIfstreamInfo.default native) (⟨B, o + 8⟩ : File) with
  | .ok (.again _, _) => true
  | _ => false

/-- The offset of the header after the one at offset `o`. -/
def chunkNext (B : List UInt8) (o : ℕ) : Option ℕ :=
  match tagAt native B o with
  | none => none
  | some tag =>
    if tag.length ≠ 0 ∧ goesOn native B o tag then
      some (nextOffset ((o + 8) % 2 ^ 32) tag.length)
    else none

/-- The file begins with the RIFF and WAVE tags. -/
def isWave (B : List UInt8) : Prop :=
  12 ≤ B.length ∧ native.ofBytes (slice B 0 4) = riff ∧ native.ofBytes (slice B 8 4) = wave

instance (B : List UInt8) : Decidable (isWave native B) := inferInstanceAs (Decidable (_ ∧ _ ∧ _))

/-- The offset of the `n`-th chunk header. -/
def chunkOffset (B : List UInt8) (n : ℕ) : Option ℕ := walk (chunkNext native B) 12 n

end

variable {native : EndianType} {B : List UInt8}

theorem fetchTag_some {o : ℕ} {tag : RiffTag} (h : tagAt native B o = some tag) :
    fetchTag native (⟨B, o⟩ : File) = .ok (some tag, ⟨B, o + 8⟩) := by
  unfold tagAt at h
  split_ifs at h with hle
  cases h
  simp only [fetchTag, run_bind, fetch₂_uint32 hle, Except.bind, run_pure]
  rfl

theorem fetchTag_none {o : ℕ} (h : tagAt native B o = none) :
    ∃ f, fetchTag native (⟨B, o⟩ : File) = .ok (none, f) := by
  unfold tagAt at h
  split_ifs at h with hle
  obtain ⟨p, hp⟩ := fetch₂_uint32_short (e := native) (show B.length < o + 8 by omega)
  exact ⟨⟨B, p⟩, by simp only [fetchTag, run_bind, hp, Except.bind, run_pure, Option.map_none]⟩

/-- A pass over a file. -/
theorem pass_file (info : WavIfstreamInfo) (o : ℕ) :
    pass native info (⟨B, o⟩ : File) =
      match tagAt native B o with
      | none => .error ⟨"Could not read 'data' tag."⟩
      | some tag =>
        if tag.length = 0 then .error ⟨"Could not read 'data' tag."⟩
        else match readChunk native tag info (⟨B, o + 8⟩ : File) with
          | .error e => .error e
          | .ok (.done info, f) => .ok (.done info, f)
          | .ok (.again info, f) =>
            .ok (.again info, { f with pos := nextOffset ((o + 8) % 2 ^ 32) tag.length }) := by
  cases htag : tagAt native B o with
  | none =>
    obtain ⟨f, hf⟩ := fetchTag_none htag
    simp only [pass, run_bind, hf, Except.bind]
    rfl
  | some tag =>
    simp only [pass, run_bind, fetchTag_some htag, Except.bind, run_ite]
    refine if_congr Iff.rfl rfl ?_
    have htell : (seek 0 .cur : Io File ℤ) ⟨B, o + 8⟩ = .ok (((o + 8 : ℕ) : ℤ), ⟨B, o + 8⟩) :=
      congrArg Except.ok (File.seek_cur 0 ⟨B, o + 8⟩)
    have hcur : uint32 ((o + 8 : ℕ) : ℤ) = (o + 8) % 2 ^ 32 := by
      unfold uint32; omega
    simp only [htell, hcur]
    cases readChunk native tag info (⟨B, o + 8⟩ : File) with
    | error e => rfl
    | ok x =>
      obtain ⟨a, f⟩ := x
      cases a with
      | done info => rfl
      | again info =>
        have hseek : (seek (nextOffset ((o + 8) % 2 ^ 32) tag.length : ℕ) .beg : Io File ℤ) f =
            .ok (_, { f with pos := nextOffset ((o + 8) % 2 ^ 32) tag.length }) :=
          congrArg Except.ok (File.seek_beg _ f)
        simp only [run_bind, hseek, Except.bind, run_pure]

/-! ## Handlers -/

variable (native) in
/-- The handler of a chunk other than `data` goes through, and the loop on,
    whatever the info is. -/
theorem readChunk_goesOn {tag : RiffTag} (hd : tag.id ≠ data) (info info' : WavIfstreamInfo) :
    Sim (· = ·) (fun a s b t => s = t ∧ (∃ i, a = .again i) ∧ ∃ i, b = .again i)
      (readChunk native tag info : Io File _) (readChunk native tag info') := by
  unfold readChunk
  refine Sim.ite ((Sim.refl _).bind_same fun _ => Sim.pure fun _ _ h => ⟨h, ⟨_, rfl⟩, _, rfl⟩) ?_
  rw [if_neg hd, if_neg hd]
  refine Sim.ite ?_ (Sim.ite ?_ (Sim.pure fun _ _ h => ⟨h, ⟨_, rfl⟩, _, rfl⟩))
  · refine Sim.bind (P := fun _ s _ t => s = t) ?_ fun _ _ =>
      Sim.pure fun _ _ h => ⟨h, ⟨_, rfl⟩, _, rfl⟩
    unfold readSampleChunk
    refine Sim.ite ((Sim.refl _).bind_same fun r => ?_) (Sim.pure fun _ _ h => h)
    cases r with
    | none => exact Sim.throw
    | some sampleChunk =>
      exact Sim.ite ((Sim.refl _).bind_same fun _ => Sim.pure fun _ _ h => h)
        (Sim.pure fun _ _ h => h)
  · refine Sim.bind (P := fun _ s _ t => s = t) ?_ fun _ _ =>
      Sim.pure fun _ _ h => ⟨h, ⟨_, rfl⟩, _, rfl⟩
    unfold readInstrumentChunk
    refine Sim.ite ((Sim.refl _).bind_same fun r => ?_) (Sim.pure fun _ _ h => h)
    cases r with
    | none => exact Sim.throw
    | some instrumentChunk => exact Sim.pure fun _ _ h => h

/-- The `data` chunk, and no other, ends the loop. -/
theorem readChunk_done {tag : RiffTag} {info info' : WavIfstreamInfo} {f f' : File}
    (h : readChunk native tag info f = .ok (.done info', f')) :
    tag.id = data ∧ dataChunk tag.length info = .ok info' ∧ f' = f := by
  by_cases hd : tag.id = data
  · refine ⟨hd, ?_⟩
    rw [readChunk, if_neg (by rw [hd]; decide), if_pos hd, run_bind, run_liftM] at h
    cases hx : dataChunk tag.length info with
    | error e => rw [hx] at h; cases h
    | ok i => rw [hx] at h; cases h; exact ⟨rfl, rfl⟩
  · have h1 := readChunk_goesOn native hd info info f f rfl
    rw [h] at h1
    obtain ⟨-, ⟨i, hi⟩, -⟩ := h1
    cases hi

theorem readChunk_data {tag : RiffTag} (hd : tag.id = data) (info : WavIfstreamInfo) (f : File) :
    readChunk native tag info f = (dataChunk tag.length info).map fun info => (.done info, f) := by
  rw [readChunk, if_neg (by rw [hd]; decide), if_pos hd, run_bind, run_liftM]
  cases dataChunk tag.length info <;> rfl

theorem readChunk_fmt {tag : RiffTag} (ht : tag.id = fmt) (info : WavIfstreamInfo) (f : File) :
    readChunk native tag info f =
      (readFmtChunk native tag.length f).map fun x => (.again (info.setFmt x.1), x.2) := by
  rw [readChunk, if_pos ht, run_bind]
  cases readFmtChunk native tag.length f <;> rfl

/-- The parts of the info that a `fmt ` chunk sets. -/
def WavIfstreamInfo.fmt (info : WavIfstreamInfo) : Fmt :=
  ⟨info.format, info.numChannels, info.sampleRate⟩

theorem readSampleChunk_fmt (length : ℕ) (info : WavIfstreamInfo) :
    Sim (· = ·) (fun a s _ t => s = t ∧ a.fmt = info.fmt)
      (readSampleChunk native length info : Io File _) (readSampleChunk native length info) := by
  unfold readSampleChunk
  refine Sim.ite ((Sim.refl _).bind_same fun r => ?_) (Sim.pure fun _ _ h => ⟨h, rfl⟩)
  cases r with
  | none => exact Sim.throw
  | some sampleChunk =>
    exact Sim.ite ((Sim.refl _).bind_same fun _ => Sim.pure fun _ _ h => ⟨h, rfl⟩)
      (Sim.pure fun _ _ h => ⟨h, rfl⟩)

theorem readInstrumentChunk_fmt (length : ℕ) (info : WavIfstreamInfo) :
    Sim (· = ·) (fun a s _ t => s = t ∧ a.fmt = info.fmt)
      (readInstrumentChunk native length info : Io File _)
      (readInstrumentChunk native length info) := by
  unfold readInstrumentChunk
  refine Sim.ite ((Sim.refl _).bind_same fun r => ?_) (Sim.pure fun _ _ h => ⟨h, rfl⟩)
  cases r with
  | none => exact Sim.throw
  | some instrumentChunk => exact Sim.pure fun _ _ h => ⟨h, rfl⟩

/-- Only a `fmt ` chunk changes the format. -/
theorem readChunk_again {tag : RiffTag} {info info' : WavIfstreamInfo} {f f' : File}
    (h : readChunk native tag info f = .ok (.again info', f')) :
    tag.id ≠ data ∧ (tag.id ≠ fmt → info'.fmt = info.fmt) ∧
      (tag.id = fmt → readFmtChunk native tag.length f = .ok (info'.fmt, f')) := by
  have hd : tag.id ≠ data := by
    intro hd
    rw [readChunk_data hd] at h
    cases hx : dataChunk tag.length info <;> rw [hx] at h <;> cases h
  refine ⟨hd, fun hf => ?_, fun hf => ?_⟩
  · have hsim : Sim (· = ·) (fun a s _ t => s = t ∧ ∀ i, a = .again i → i.fmt = info.fmt)
        (readChunk native tag info : Io File _) (readChunk native tag info) := by
      unfold readChunk
      rw [if_neg hf, if_neg hd]
      refine Sim.ite ((readSampleChunk_fmt _ _).bind fun a _ => Sim.pure fun _ _ h => ⟨h.1, ?_⟩)
        (Sim.ite ((readInstrumentChunk_fmt _ _).bind fun a _ => Sim.pure fun _ _ h => ⟨h.1, ?_⟩)
          (Sim.pure fun _ _ h => ⟨h, ?_⟩))
      · rintro _ ⟨⟩; exact h.2
      · rintro _ ⟨⟩; exact h.2
      · rintro _ ⟨⟩; rfl
    have h1 := hsim f f rfl
    rw [h] at h1
    exact h1.2 _ rfl
  · rw [readChunk_fmt hf] at h
    cases hx : readFmtChunk native tag.length f with
    | error e => rw [hx] at h; cases h
    | ok x => rw [hx] at h; cases h; rfl

/-! ## The walk -/

theorem tagAt_le {o : ℕ} {tag : RiffTag} (h : tagAt native B o = some tag) : o + 8 ≤ B.length := by
  unfold tagAt at h
  split_ifs at h with hle
  exact hle

/-- The handlers leave the bytes alone. -/
theorem readChunk_bytes {B : Content} {o : ℕ} {tag tag' : RiffTag}
    (htag : tagAt native B.bytes o = some tag) {info : WavIfstreamInfo}
    {a : Next WavIfstreamInfo WavIfstreamInfo} {f : File}
    (h : readChunk native tag' info (⟨B.bytes, o + 8⟩ : File) = .ok (a, f)) :
    f.bytes = B.bytes := by
  have h1 := readChunk_sim native fetchAlike_rel tag' info (⟨B.bytes, o + 8⟩ : File)
    ⟨B.bytes, o + 8⟩ (rel_self rfl (tagAt_le htag))
  rw [h] at h1
  exact h1.2.1

theorem goesOn_of_again {o : ℕ} {tag : RiffTag} {info info' : WavIfstreamInfo} {f : File}
    (h : readChunk native tag info (⟨B, o + 8⟩ : File) = .ok (.again info', f)) :
    goesOn native B o tag = true := by
  have h1 := readChunk_goesOn native (readChunk_again h).1 info
    (WavIfstreamInfo.default native) (⟨B, o + 8⟩ : File) _ rfl
  rw [h] at h1
  obtain ⟨⟨a, f'⟩, hx, -, -, ⟨i, hi⟩⟩ := h1.ok_left
  obtain rfl : a = .again i := hi
  rw [goesOn, hx]

theorem again_of_goesOn {o : ℕ} {tag : RiffTag} (h : goesOn native B o tag = true)
    (info : WavIfstreamInfo) :
    ∃ info' f, readChunk native tag info (⟨B, o + 8⟩ : File) = .ok (.again info', f) := by
  unfold goesOn at h
  split at h
  · rename_i i f hx
    have h1 := readChunk_goesOn native (readChunk_again hx).1 info
      (WavIfstreamInfo.default native) (⟨B, o + 8⟩ : File) _ rfl
    rw [hx] at h1
    obtain ⟨⟨a, f'⟩, hy, -, ⟨i', hi⟩, -⟩ := h1.ok_right
    obtain rfl : a = .again i' := hi
    exact ⟨i', f', hy⟩
  · cases h

/-- **What a pass does** when the loop goes on: it has read a header and handled
    its chunk. -/
theorem pass_again {B : Content} {info info' : WavIfstreamInfo} {o : ℕ} {f' : File}
    (h : loopStep (pass native) (info, (⟨B.bytes, o⟩ : File)) = .again (info', f')) :
    ∃ tag f, tagAt native B.bytes o = some tag ∧ tag.length ≠ 0 ∧
      readChunk native tag info (⟨B.bytes, o + 8⟩ : File) = .ok (.again info', f) ∧
      f' = ⟨B.bytes, nextOffset ((o + 8) % 2 ^ 32) tag.length⟩ := by
  simp only [loopStep, pass_file] at h
  cases htag : tagAt native B.bytes o with
  | none => rw [htag] at h; cases h
  | some tag =>
    simp only [htag] at h
    by_cases hlen : tag.length = 0
    · simp only [if_pos hlen] at h; cases h
    · simp only [if_neg hlen] at h
      cases hx : readChunk native tag info (⟨B.bytes, o + 8⟩ : File) with
      | error e => rw [hx] at h; cases h
      | ok x =>
        obtain ⟨a, f⟩ := x
        rw [hx] at h
        cases a with
        | done i => cases h
        | again i =>
          cases h
          refine ⟨tag, f, rfl, hlen, hx, ?_⟩
          rw [readChunk_bytes htag hx]

/-- And when it stops: there is no header, an empty chunk, a chunk whose handler
    throws, or the `data` chunk. -/
theorem pass_done {B : Content} {info : WavIfstreamInfo} {o : ℕ}
    {r : Except RuntimeError (WavIfstreamInfo × File)}
    (h : loopStep (pass native) (info, (⟨B.bytes, o⟩ : File)) = .done r) :
    chunkNext native B.bytes o = none ∧ ∀ info' f', r = .ok (info', f') →
      ∃ tag, tagAt native B.bytes o = some tag ∧ tag.length ≠ 0 ∧ tag.id = data ∧
        dataChunk tag.length info = .ok info' ∧ f' = ⟨B.bytes, o + 8⟩ := by
  simp only [loopStep, pass_file] at h
  unfold chunkNext
  cases htag : tagAt native B.bytes o with
  | none => rw [htag] at h; cases h; exact ⟨rfl, fun _ _ he => by cases he⟩
  | some tag =>
    simp only [htag] at h
    by_cases hlen : tag.length = 0
    · simp only [if_pos hlen] at h; cases h
      exact ⟨if_neg fun hg => hg.1 hlen, fun _ _ he => by cases he⟩
    · simp only [if_neg hlen] at h
      -- whatever the handler does, it does not send the loop on
      have hstop : ∀ x, readChunk native tag info (⟨B.bytes, o + 8⟩ : File) = x →
          (∀ i f, x ≠ .ok (.again i, f)) →
          (if tag.length ≠ 0 ∧ goesOn native B.bytes o tag = true then
            some (nextOffset ((o + 8) % 2 ^ 32) tag.length) else none) = none := by
        intro x hx hne
        refine if_neg fun hg => ?_
        obtain ⟨i, f, hi⟩ := again_of_goesOn hg.2 info
        exact hne i f (hx.symm.trans hi)
      cases hx : readChunk native tag info (⟨B.bytes, o + 8⟩ : File) with
      | error e =>
        rw [hx] at h; cases h
        exact ⟨hstop _ hx (fun _ _ he => by cases he), fun _ _ he => by cases he⟩
      | ok x =>
        obtain ⟨a, f⟩ := x
        rw [hx] at h
        cases a with
        | again i => cases h
        | done i =>
          cases h
          refine ⟨hstop _ hx (fun _ _ he => by cases he), fun info' f' he => ?_⟩
          cases he
          obtain ⟨hd, hdata, hf⟩ := readChunk_done hx
          exact ⟨tag, rfl, hlen, hd, hdata, hf⟩

/-- The state of the loop over a file. -/
def overFile (B : Content) (s : WavIfstreamInfo × File) : Prop := s.2.bytes = B.bytes

variable (native) in
theorem pass_chunkNext {B : Content} (s s' : WavIfstreamInfo × File) (hs : overFile B s)
    (h : loopStep (pass native) s = .again s') :
    chunkNext native B.bytes s.2.pos = some s'.2.pos ∧ overFile B s' := by
  obtain ⟨info, ⟨_, o⟩⟩ := s
  obtain rfl : _ = B.bytes := hs
  obtain ⟨info', f'⟩ := s'
  obtain ⟨tag, f, htag, hlen, hx, rfl⟩ := pass_again h
  refine ⟨?_, rfl⟩
  simp only [chunkNext, htag]
  exact if_pos ⟨hlen, goesOn_of_again hx⟩

theorem pass_chunkEnd {B : Content} (s : WavIfstreamInfo × File)
    (r : Except RuntimeError (WavIfstreamInfo × File)) (hs : overFile B s)
    (h : loopStep (pass native) s = .done r) : chunkNext native B.bytes s.2.pos = none := by
  obtain ⟨info, ⟨_, o⟩⟩ := s
  obtain rfl : _ = B.bytes := hs
  exact (pass_done h).1

/-! ## The reader over a file -/

theorem readRiff_isWave (h : isWave native B) (p : ℕ) :
    readRiff native (⟨B, p⟩ : File) = .ok ((), ⟨B, 12⟩) := by
  obtain ⟨hlen, hriff, hwave⟩ := h
  have hseek : (seek 0 .beg : Io File ℤ) ⟨B, p⟩ = .ok (_, ⟨B, 0⟩) :=
    congrArg Except.ok (File.seek_beg 0 ⟨B, p⟩)
  have htag : tagAt native B 0 = some ⟨riff, native.ofBytes (slice B 4 4)⟩ := by
    rw [tagAt, if_pos (by omega), hriff]
  have hid : fetch (uint32Layout native) (⟨B, 8⟩ : File) = .ok (some wave, ⟨B, 12⟩) := by
    rw [fetch_uint32 (by omega), field, hwave]
  simp only [readRiff, run_bind, hseek, Except.bind, fetchTag_some htag, ne_eq, not_true_eq_false,
    if_false, hid, run_pure]

theorem readRiff_not_isWave (h : ¬ isWave native B) (p : ℕ) :
    readRiff native (⟨B, p⟩ : File) = .error ⟨"Could not read 'RIFF' tag."⟩ ∨
      readRiff native (⟨B, p⟩ : File) = .error ⟨"Could not read 'WAVE' tag."⟩ := by
  have hseek : (seek 0 .beg : Io File ℤ) ⟨B, p⟩ = .ok (_, ⟨B, 0⟩) :=
    congrArg Except.ok (File.seek_beg 0 ⟨B, p⟩)
  cases htag : tagAt native B 0 with
  | none =>
    obtain ⟨f, hf⟩ := fetchTag_none htag
    left
    simp only [readRiff, run_bind, hseek, Except.bind, hf]; rfl
  | some tag =>
    by_cases hriff : tag.id = riff
    · right
      have hle := tagAt_le htag
      have hid : (uint32Layout native).get B 8 ≠ some wave := by
        intro hget
        obtain ⟨hlen, -, hw⟩ := Layout.get_eq_some hget
        rw [tagAt, if_pos hle] at htag
        cases htag
        exact h ⟨hlen, hriff, hw.symm⟩
      simp only [readRiff, run_bind, hseek, Except.bind, fetchTag_some htag, hriff, ne_eq,
        not_true_eq_false, if_false, fetch_file]
      cases hget : (uint32Layout native).get B 8 with
      | none => rfl
      | some id =>
        have hne : id ≠ wave := fun he => hid (by rw [hget, he])
        simp only [if_pos hne]; rfl
    · left
      simp only [readRiff, run_bind, hseek, Except.bind, fetchTag_some htag, ne_eq, hriff,
        not_false_eq_true, if_true]; rfl

/-- The reader over a file that begins as it should. -/
theorem readWavHeader_isWave (h : isWave native B) (fuel p : ℕ) :
    readWavHeader native fuel (⟨B, p⟩ : File) =
      iterate (loopStep (pass native)) fuel (WavIfstreamInfo.default native, ⟨B, 12⟩) := by
  rw [readWavHeader, readRiff_isWave h, andThen_ok]

theorem readWavHeader_not_isWave (h : ¬ isWave native B) (fuel p : ℕ) :
    ∃ e, readWavHeader native fuel (⟨B, p⟩ : File) = some (.error e) := by
  rcases readRiff_not_isWave h p with he | he
  · exact ⟨_, by rw [readWavHeader, he, andThen_error]⟩
  · exact ⟨_, by rw [readWavHeader, he, andThen_error]⟩

/-! ## Termination -/

/-- The sum in the offset of the next header wraps around. -/
def wraps (native : EndianType) (B : List UInt8) (o : ℕ) : Prop :=
  ∃ tag, tagAt native B o = some tag ∧ 2 ^ 32 ≤ o + 8 + tag.length + 1

/-- No header whose sum wraps around leads back to a header walked over up to
    it. -/
def noWayBack (native : EndianType) (B : List UInt8) : Prop :=
  ∀ i j a b, i ≤ j → chunkOffset native B i = some a → chunkOffset native B j = some b →
    wraps native B b → chunkNext native B b ≠ some a

theorem chunkNext_some {o o' : ℕ} (h : chunkNext native B o = some o') :
    ∃ tag, tagAt native B o = some tag ∧ o' = nextOffset ((o + 8) % 2 ^ 32) tag.length := by
  unfold chunkNext at h
  cases htag : tagAt native B o with
  | none => rw [htag] at h; cases h
  | some tag =>
    simp only [htag] at h
    split_ifs at h
    exact ⟨tag, rfl, (Option.some.inj h).symm⟩

/-- Without wraparound the walk goes forward, over the whole chunk. -/
theorem lt_chunkNext {o o' : ℕ} (h : chunkNext native B o = some o') (hw : ¬ wraps native B o) :
    o < o' := by
  obtain ⟨tag, htag, rfl⟩ := chunkNext_some h
  have hlt : o + 8 + tag.length + 1 < 2 ^ 32 := by
    by_contra hge
    exact hw ⟨tag, htag, by omega⟩
  rw [nextOffset, Nat.mod_eq_of_lt (show o + 8 < 2 ^ 32 by omega), Nat.mod_eq_of_lt hlt,
    show (0xfffffffe : ℕ) = 2 ^ (31 + 1) - 2 by rfl, Words.and_even_mask hlt]
  omega

theorem chunkOffset_ends_iff :
    (∃ n, chunkOffset native B n = none) ↔ noWayBack native B := by
  refine walk_ends_iff_of_le (fun a b h hw => lt_chunkNext h hw) (N := B.length) ?_
  intro o o' h
  obtain ⟨tag, htag, -⟩ := chunkNext_some h
  have hle := tagAt_le htag
  omega

/-- The reader terminates on a source of the bytes iff the walk has no way
    back. -/
theorem terminates_iff {σ : Type} [ByteSource σ] {B : Content} {s : σ}
    (hs : ByteSource.At B 0 s) :
    (∃ fuel r, readWavHeader native fuel s = some r) ↔
      (isWave native B.bytes → noWayBack native B.bytes) := by
  have hrel : Rel B s ⟨B.bytes, 0⟩ := ⟨rfl, hs⟩
  have hfile : (∃ fuel r, readWavHeader native fuel s = some r) ↔
      ∃ fuel r, readWavHeader native fuel (⟨B.bytes, 0⟩ : File) = some r :=
    exists_congr fun fuel => rel_isSome (readWavHeader_sim native fuel hrel)
  rw [hfile]
  by_cases hw : isWave native B.bytes
  · simp only [readWavHeader_isWave hw, hw, true_implies, ← chunkOffset_ends_iff]
    refine Iff.trans ?_ (terminates_iff_walk (fun s : WavIfstreamInfo × File => s.2.pos)
      (pass_chunkNext native) pass_chunkEnd
      (show overFile B (WavIfstreamInfo.default native, ⟨B.bytes, 12⟩) from rfl))
    constructor
    · rintro ⟨fuel, r, h⟩; exact ⟨r, Returns.of_iterate fuel h⟩
    · rintro ⟨r, h⟩
      obtain ⟨n, hn⟩ := returns_iff.1 h
      exact ⟨n, r, hn⟩
  · obtain ⟨e, he⟩ := readWavHeader_not_isWave hw 0 0
    constructor
    · intro _ h
      exact absurd h hw
    · intro _
      exact ⟨0, _, he⟩

section
variable (native : EndianType) (B : Content)

theorem at_wavSource {δ : Type} [ByteSource δ] {p : ℕ} {d : δ} (h : ByteSource.At B p d) :
    ByteSource.At B p (WavSource.unread native d) := at_unread (bytesPerFrame_default native) h

/-- **Termination.**  On every byte string, served by a container or a file, the
    header reader terminates iff it is not a WAVE file or no header on the walk
    whose 32-bit sum wraps around leads back. -/
theorem readWavHeader_terminates_iff :
    ((∃ fuel r, readWavHeader native fuel
        (WavSource.unread native (Container.mk' B.bytes)) = some r) ↔
      (isWave native B.bytes → noWayBack native B.bytes)) ∧
    ((∃ fuel r, readWavHeader native fuel
        (WavSource.unread native (File.opened B.bytes)) = some r) ↔
      (isWave native B.bytes → noWayBack native B.bytes)) :=
  ⟨terminates_iff (at_wavSource native B (at_container B)),
    terminates_iff (at_wavSource native B (at_opened B))⟩

end

/-- A header whose length leads back to it. -/
def loopingWav : List UInt8 :=
  [0x52, 0x49, 0x46, 0x46, 0x0C, 0, 0, 0, 0x57, 0x41, 0x56, 0x45,
   0x78, 0x78, 0x78, 0x78, 0xF8, 0xFF, 0xFF, 0xFF]

/-- The reader does not terminate on it. -/
theorem readWavHeader_loops :
    ¬ ∃ fuel r, readWavHeader .littleEndian fuel
      (WavSource.unread .littleEndian (Container.mk' loopingWav)) = some r := by
  have hB : ByteSource.At ⟨loopingWav, by decide⟩ 0 (Container.mk' loopingWav) := ⟨rfl, rfl⟩
  rw [terminates_iff (at_wavSource .littleEndian _ hB)]
  intro h
  have hnext : chunkNext .littleEndian loopingWav 12 = some 12 := by decide
  have hwraps : wraps .littleEndian loopingWav 12 :=
    ⟨⟨0x78787878, 0xFFFFFFF8⟩, by decide, by decide⟩
  exact h (by decide) 0 0 12 12 le_rfl rfl rfl hwraps hnext

end NiMedia.Wav
