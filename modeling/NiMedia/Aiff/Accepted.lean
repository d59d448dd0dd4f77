/-
  What the AIFF header reader accepts.

  The format, the channels, the frames and the rate of an accepted info are
  those of the last `COMM` chunk; the reader stops behind the header and the
  offset of the first `SSND` chunk (`readAiffHeader_accepted`).  On a device
  this last position is where the seek over the offset lands (`SoughtFrom`).
-/
import NiMedia.Aiff.Walk

namespace NiMedia.Aiff

open Bytes Loop Simulation

/-- The parts of the info that a `COMM` chunk sets. -/
def AiffIfstreamInfo.comm (info : AiffIfstreamInfo) : Comm :=
  ⟨info.format, info.numChannels, info.numFrames, info.sampleRate⟩

section
variable (P : Platform) (native : EndianType) (B : List UInt8)

/-- The `n`-th header is one of a `COMM` chunk. -/
def isCommAt (n : ℕ) : Prop :=
  ∃ o tag, chunkOffset P native B n = some o ∧ tagAt B o = some tag ∧ tag.id = comm

/-- The `n`-th header is one of a `COMM` chunk that says `c`. -/
def parsesCommAt (n : ℕ) (c : Comm) : Prop :=
  ∃ o tag f, chunkOffset P native B n = some o ∧ tagAt B o = some tag ∧ tag.id = comm ∧
    readCommonChunk P native (subTypeOf B) tag.length (⟨B, o + 8⟩ : File) = .ok (c, f)

/-- The last `COMM` chunk says `c`. -/
def lastComm (c : Comm) : Prop :=
  ∃ m, parsesCommAt P native B m c ∧ ∀ k, m < k → ¬ isCommAt P native B k

/-- The first `SSND` chunk has its header `tag` at offset `o`, and begins with
    `c`. -/
def firstSoundData (o : ℕ) (tag : Tag) (c : SoundDataChunk) : Prop :=
  ∃ n, chunkOffset P native B n = some o ∧ tagAt B o = some tag ∧ tag.id = ssnd ∧
    SoundDataChunk.layout.get B (o + 8) = some c ∧
    ∀ m < n, ∀ o' tag', chunkOffset P native B m = some o' → tagAt B o' = some tag' →
      tag'.id ≠ ssnd

end

section
variable {P : Platform} {native : EndianType}

/-! ## The first walk -/

theorem readMarkChunk_comm (info : AiffIfstreamInfo) :
    Sim (· = ·) (fun a s _ t => s = t ∧ a.comm = info.comm) (readMarkChunk info : Io File _)
      (readMarkChunk info) := by
  unfold readMarkChunk
  refine (Sim.refl _).bind_same fun r => ?_
  cases r with
  | none => exact Sim.pure fun _ _ h => ⟨h, rfl⟩
  | some numMarkers =>
    exact Sim.ite ((Sim.refl _).bind_same fun _ => Sim.pure fun _ _ h => ⟨h, rfl⟩)
      (Sim.pure fun _ _ h => ⟨h, rfl⟩)

theorem readInstrumentChunk_comm (info : AiffIfstreamInfo) :
    Sim (· = ·) (fun a s _ t => s = t ∧ a.comm = info.comm)
      (readInstrumentChunk info : Io File _) (readInstrumentChunk info) := by
  unfold readInstrumentChunk
  refine (Sim.refl _).bind_same fun r => ?_
  cases r with
  | none => exact Sim.throw
  | some instChunk => exact Sim.pure fun _ _ h => ⟨h, rfl⟩

/-- **What a handler finds**: a `COMM` chunk sets its part of the info, and no
    other chunk changes it. -/
theorem readChunk_comm {subType : ℕ} {tag : Tag} {s s' : Found} {f f' : File}
    (h : readChunk P native subType tag s f = .ok (s', f')) :
    (tag.id = comm → s'.commChunkFound = true ∧
      readCommonChunk P native subType tag.length f = .ok (s'.info.comm, f')) ∧
    (tag.id ≠ comm → s'.commChunkFound = s.commChunkFound ∧ s'.info.comm = s.info.comm) := by
  refine ⟨fun hid => ?_, fun hid => ?_⟩
  · rw [readChunk, if_pos hid, run_bind] at h
    cases hx : readCommonChunk P native subType tag.length f with
    | error e => rw [hx] at h; cases h
    | ok x => rw [hx] at h; cases h; exact ⟨rfl, rfl⟩
  · have hsim : Sim (· = ·) (fun a t _ u => t = u ∧ a.commChunkFound = s.commChunkFound ∧
        a.info.comm = s.info.comm) (readChunk P native subType tag s : Io File _)
        (readChunk P native subType tag s) := by
      unfold readChunk
      rw [if_neg hid]
      refine Sim.ite ((readMarkChunk_comm _).bind fun _ _ => Sim.pure fun _ _ h => ?_)
        (Sim.ite ((readInstrumentChunk_comm _).bind fun _ _ => Sim.pure fun _ _ h => ?_)
          (Sim.pure fun _ _ h => ⟨h, rfl, rfl⟩))
      · exact ⟨h.1, rfl, h.2⟩
      · exact ⟨h.1, rfl, h.2⟩
    have h1 := hsim f f rfl
    rw [h] at h1
    exact h1.2

/-- Before the `n`-th pass, the info has what the last `COMM` chunk says, if
    there has been one. -/
def commBefore (P : Platform) (native : EndianType) (B : List UInt8) (n : ℕ) (s : Found) : Prop :=
  (s.commChunkFound = false ∧ ∀ m < n, ¬ isCommAt P native B m) ∨
    ∃ m < n, parsesCommAt P native B m s.info.comm ∧
      ∀ k, m < k → k < n → ¬ isCommAt P native B k

variable {B : Content}

/-- The first walk, from the first chunk on. -/
def firstWalk (native : EndianType) (B : Content) : Found × File :=
  (⟨AiffIfstreamInfo.default native, false⟩, ⟨B.bytes, 12⟩)

variable (P native) in
/-- The state of the first walk before its passes. -/
theorem steps_chunkOffset (n : ℕ) :
    (∀ s, steps (loopStep (firstPass P native (subTypeOf B.bytes))) n
        (firstWalk native B) = some s →
      chunkOffset P native B.bytes n = some s.2.pos ∧ s.2.bytes = B.bytes) ∧
    (steps (loopStep (firstPass P native (subTypeOf B.bytes))) n
        (firstWalk native B) = none → chunkOffset P native B.bytes n = none) :=
  steps_walk (fun s : Found × File => s.2.pos) (firstPass_chunkNext P native) firstPass_chunkEnd
    (show overFile B (firstWalk native B) from rfl) n

/-- A pass of the first walk that goes on has handled a chunk. -/
theorem firstPass_readChunk {o : ℕ} {found found' : Found} {f' : File}
    (h : loopStep (firstPass P native (subTypeOf B.bytes)) (found, (⟨B.bytes, o⟩ : File)) =
      .again (found', f')) :
    ∃ tag f, tagAt B.bytes o = some tag ∧
      readChunk P native (subTypeOf B.bytes) tag found (⟨B.bytes, o + 8⟩ : File) =
        .ok (found', f) := by
  obtain ⟨tag, htag, -, -⟩ := firstPass_again h
  simp only [loopStep, firstPass_chunk htag] at h
  cases hx : readChunk P native (subTypeOf B.bytes) tag found (⟨B.bytes, o + 8⟩ : File) with
  | error e => rw [hx] at h; cases h
  | ok x => rw [hx] at h; cases h; exact ⟨tag, x.2, htag, hx⟩

theorem steps_commBefore : ∀ (n : ℕ) (s : Found × File),
    steps (loopStep (firstPass P native (subTypeOf B.bytes))) n (firstWalk native B) =
      some s → commBefore P native B.bytes n s.1
  | 0, _, h => by cases h; exact .inl ⟨rfl, fun m hm => by omega⟩
  | n + 1, (found', f'), h => by
    obtain ⟨⟨found, ⟨bytes, o⟩⟩, hs, hstep⟩ := steps_succ_inv h
    obtain ⟨ho, hB⟩ := (steps_chunkOffset P native n).1 _ hs
    obtain rfl : bytes = B.bytes := hB
    obtain ⟨tag, f, htag, hx⟩ := firstPass_readChunk hstep
    obtain ⟨hcomm, hother⟩ := readChunk_comm hx
    by_cases hid : tag.id = comm
    · exact .inr ⟨n, by omega, ⟨o, tag, f, ho, htag, hid, (hcomm hid).2⟩, fun k h1 h2 => by omega⟩
    · -- the pass is not over a `COMM` chunk
      have hnot : ¬ isCommAt P native B.bytes n := by
        rintro ⟨o', tag', ho', htag', hid'⟩
        rw [ho] at ho'; cases ho'
        rw [htag] at htag'; cases htag'
        exact hid hid'
      obtain ⟨hfound, heq⟩ := hother hid
      rcases steps_commBefore n _ hs with ⟨hnone, hno⟩ | ⟨m, hm, hparse, hno⟩
      · refine .inl ⟨hfound.trans hnone, fun m hm => ?_⟩
        rcases Nat.lt_succ_iff_lt_or_eq.1 hm with h | rfl
        · exact hno m h
        · exact hnot
      · refine .inr ⟨m, by omega, heq ▸ hparse, fun k h1 h2 => ?_⟩
        rcases Nat.lt_succ_iff_lt_or_eq.1 h2 with h | rfl
        · exact hno k h1 h
        · exact hnot

/-! ## The second walk -/

/-- The walk comes to the end of the file. -/
def reachesEnd (P : Platform) (native : EndianType) (B : List UInt8) : Prop :=
  ∃ n o, chunkOffset P native B n = some o ∧ tagAt B o = none

/-- **The first walk** comes to the end of the file, and has found what the
    last `COMM` chunk says. -/
theorem firstWalk_returns {x : Found × File}
    (h : Returns (loopStep (firstPass P native (subTypeOf B.bytes))) (firstWalk native B) (.ok x)) :
    reachesEnd P native B.bytes ∧ x.2.bytes = B.bytes ∧
      (x.1.commChunkFound = true → lastComm P native B.bytes x.1.info.comm) := by
  obtain ⟨n, ⟨found, ⟨bytes, o⟩⟩, hs, hdone⟩ := returns_iff_steps.1 h
  obtain ⟨ho, hB⟩ := (steps_chunkOffset P native n).1 _ hs
  obtain rfl : bytes = B.bytes := hB
  obtain ⟨htag, hfound, hbytes⟩ := (firstPass_done hdone).2 x rfl
  refine ⟨⟨n, o, ho, htag⟩, hbytes, fun hc => ?_⟩
  rw [hfound] at hc ⊢
  have hstop : chunkOffset P native B.bytes (n + 1) = none := by
    rw [chunkOffset, walk_succ ho]
    simp only [chunkNext, htag]
  rcases steps_commBefore n _ hs with ⟨hnone, -⟩ | ⟨k, hk, hparse, hlast⟩
  · rw [hc] at hnone
    cases hnone
  · refine ⟨k, hparse, fun j hj => ?_⟩
    rintro ⟨o', tag, ho', htag', hid⟩
    rcases Nat.lt_trichotomy j n with hlt | rfl | hgt
    · exact hlast j hj hlt ⟨o', tag, ho', htag', hid⟩
    · rw [ho] at ho'
      cases ho'
      rw [htag] at htag'
      cases htag'
    · rw [chunkOffset, walk_none hstop (show n + 1 ≤ j by omega)] at ho'
      cases ho'

theorem last_isCommAt_unique {X : List UInt8} {m m' : ℕ} (h : isCommAt P native X m)
    (hlast : ∀ k, m < k → ¬ isCommAt P native X k) (h' : isCommAt P native X m')
    (hlast' : ∀ k, m' < k → ¬ isCommAt P native X k) : m = m' := by
  rcases Nat.lt_trichotomy m m' with hlt | heq | hgt
  · exact absurd h' (hlast m' hlt)
  · exact heq
  · exact absurd h (hlast' m hgt)

theorem lastComm_unique {X : List UInt8} {x y : Comm} (hx : lastComm P native X x)
    (hy : lastComm P native X y) : x = y := by
  obtain ⟨m, ⟨o, tag, f, ho, htag, hid, hread⟩, hlast⟩ := hx
  obtain ⟨m', ⟨o', tag', f', ho', htag', hid', hread'⟩, hlast'⟩ := hy
  obtain rfl := last_isCommAt_unique ⟨o, tag, ho, htag, hid⟩ hlast
    ⟨o', tag', ho', htag', hid'⟩ hlast'
  rw [ho] at ho'
  cases ho'
  rw [htag] at htag'
  cases htag'
  rw [hread] at hread'
  cases hread'
  rfl

theorem firstSoundData_unique {X : List UInt8} {o o' : ℕ} {tag tag' : Tag} {c c' : SoundDataChunk}
    (h : firstSoundData P native X o tag c) (h' : firstSoundData P native X o' tag' c') :
    o = o' ∧ tag = tag' ∧ c = c' := by
  obtain ⟨n, ho, htag, hid, hc, hfirst⟩ := h
  obtain ⟨n', ho', htag', hid', hc', hfirst'⟩ := h'
  obtain rfl : n = n' := by
    rcases Nat.lt_trichotomy n n' with hlt | heq | hgt
    · exact absurd hid (hfirst' n hlt o tag ho htag)
    · exact heq
    · exact absurd hid' (hfirst n' hgt o' tag' ho' htag')
  rw [ho] at ho'
  cases ho'
  rw [htag] at htag'
  cases htag'
  rw [hc] at hc'
  cases hc'
  exact ⟨rfl, rfl, rfl⟩

/-- The walk stops at the end of the file. -/
theorem lt_of_reachesEnd {X : List UInt8} {n m o o' : ℕ} {tag : Tag}
    (ho : chunkOffset P native X n = some o) (hend : tagAt X o = none)
    (ho' : chunkOffset P native X m = some o') (htag : tagAt X o' = some tag) : m < n := by
  have hstop : chunkOffset P native X (n + 1) = none := by
    rw [chunkOffset, walk_succ ho]
    simp only [chunkNext, hend]
  rcases Nat.lt_trichotomy m n with hlt | rfl | hgt
  · exact hlt
  · rw [ho] at ho'
    cases ho'
    rw [hend] at htag
    cases htag
  · rw [chunkOffset, walk_none hstop (show n + 1 ≤ m by omega)] at ho'
    cases ho'

theorem chunkNext_of_reachesEnd (h : reachesEnd P native B.bytes) {n o : ℕ} {tag : Tag}
    (ho : chunkOffset P native B.bytes n = some o) (htag : tagAt B.bytes o = some tag) :
    chunkNext P native B.bytes o = some (target ((o + 8) % 2 ^ 32) tag.length) := by
  obtain ⟨m, p, hp, hend⟩ := h
  have hlt := lt_of_reachesEnd hp hend ho htag
  cases hnext : chunkNext P native B.bytes o with
  | none =>
    have hstop : chunkOffset P native B.bytes (n + 1) = none := (walk_succ ho).trans hnext
    rw [chunkOffset, walk_none hstop (show n + 1 ≤ m by omega)] at hp
    cases hp
  | some o' =>
    obtain ⟨tag', htag', rfl⟩ := chunkNext_some hnext
    rw [htag] at htag'
    cases htag'
    rfl

/-- The second walk is the first one, up to a `SSND` chunk. -/
theorem steps_secondPass (h : reachesEnd P native B.bytes) : ∀ (n : ℕ) (s : Unit × File),
    steps (loopStep secondPass) n ((), (⟨B.bytes, 12⟩ : File)) = some s →
      s.2.bytes = B.bytes ∧ chunkOffset P native B.bytes n = some s.2.pos ∧
        ∀ m < n, ∀ o tag, chunkOffset P native B.bytes m = some o → tagAt B.bytes o = some tag →
          tag.id ≠ ssnd
  | 0, _, hs => by cases hs; exact ⟨rfl, rfl, fun m hm => by omega⟩
  | n + 1, (_, f'), hs => by
    obtain ⟨⟨_, ⟨bytes, o⟩⟩, hs, hstep⟩ := steps_succ_inv hs
    obtain ⟨hB, ho, hno⟩ := steps_secondPass h n _ hs
    obtain rfl : bytes = B.bytes := hB
    cases htag : tagAt B.bytes o with
    | none =>
      simp only [loopStep, secondPass_end htag] at hstep
      cases hstep
    | some tag =>
      by_cases hid : tag.id = ssnd
      · obtain ⟨r, hr⟩ := secondPass_ssnd htag hid
        rw [hr] at hstep
        cases hstep
      · simp only [loopStep, secondPass_chunk htag hid] at hstep
        cases hstep
        refine ⟨rfl, ?_, fun m hm => ?_⟩
        · rw [chunkOffset, walk_succ ho, chunkNext_of_reachesEnd h ho htag]
        · rcases Nat.lt_succ_iff_lt_or_eq.1 hm with hlt | rfl
          · exact hno m hlt
          · intro o' tag' ho' htag'
            rw [ho] at ho'
            cases ho'
            rw [htag] at htag'
            cases htag'
            exact hid

/-- A pass of the second walk that ends it has read the `SSND` chunk. -/
theorem secondPass_done {o : ℕ} {x : Unit × File}
    (h : loopStep secondPass ((), (⟨B.bytes, o⟩ : File)) = .done (.ok x)) :
    ∃ tag c, tagAt B.bytes o = some tag ∧ tag.id = ssnd ∧
      SoundDataChunk.layout.get B.bytes (o + 8) = some c ∧ x.2 = ⟨B.bytes, o + 16 + c.offset⟩ := by
  cases htag : tagAt B.bytes o with
  | none =>
    simp only [loopStep, secondPass_end htag] at h
    cases h
  | some tag =>
    by_cases hid : tag.id = ssnd
    · obtain ⟨r, htell, -⟩ := tell_header B.bytes o
      simp only [loopStep, secondPass, run_bind, fetchTag_some htag, Except.bind, htell,
        if_pos hid, fetch_file] at h
      cases hc : SoundDataChunk.layout.get B.bytes (o + 8) with
      | none => rw [hc] at h; cases h
      | some c =>
        obtain ⟨-, hlen, -⟩ := Layout.get_eq_some hc
        have hseek : (seek (c.offset : ℕ) .cur : Io File ℤ) ⟨B.bytes, o + 16⟩ =
            .ok (_, ⟨B.bytes, o + 16 + c.offset⟩) := congrArg Except.ok (File.seek_cur _ _)
        have h16 : o + 8 + SoundDataChunk.layout.size = o + 16 := rfl
        rw [hc] at h
        simp only [hlen, h16, run_bind, hseek, Except.bind, run_pure] at h
        cases h
        exact ⟨tag, c, rfl, hid, rfl, rfl⟩
    · simp only [loopStep, secondPass_chunk htag hid] at h
      cases h

/-- **The second walk** stops behind the header of the first `SSND` chunk, and
    its offset. -/
theorem secondWalk_returns (hend : reachesEnd P native B.bytes) {x : Unit × File}
    (h : Returns (loopStep secondPass) ((), (⟨B.bytes, 12⟩ : File)) (.ok x)) :
    ∃ o tag c, firstSoundData P native B.bytes o tag c ∧ x.2 = ⟨B.bytes, o + 16 + c.offset⟩ := by
  obtain ⟨n, ⟨_, ⟨bytes, o⟩⟩, hs, hdone⟩ := returns_iff_steps.1 h
  obtain ⟨hB, ho, hno⟩ := steps_secondPass hend n _ hs
  obtain rfl : bytes = B.bytes := hB
  obtain ⟨tag, c, htag, hid, hget, hx⟩ := secondPass_done hdone
  exact ⟨o, tag, c, ⟨n, ho, htag, hid, hget, hno⟩, hx⟩

/-! ## Acceptance -/

/-- **Acceptance.**  What the header reader returns over a file. -/
theorem readAiffHeader_accepted {fuel : ℕ} {info : AiffIfstreamInfo} {f : File}
    (h : readAiffHeader P native fuel (⟨B.bytes, 0⟩ : File) = some (.ok (info, f))) :
    isForm B.bytes ∧ lastComm P native B.bytes info.comm ∧
      ∃ o tag c, firstSoundData P native B.bytes o tag c ∧
        f = ⟨B.bytes, o + 16 + c.offset⟩ := by
  by_cases hform : isForm B.bytes
  · rw [readAiffHeader_isForm hform] at h
    obtain ⟨⟨found, ⟨bytes, p⟩⟩, hx, h⟩ := andThen_eq_ok h
    obtain ⟨hend, hB, hcomm⟩ := firstWalk_returns (Returns.of_iterate fuel hx)
    obtain rfl : bytes = B.bytes := hB
    obtain ⟨⟨_, src⟩, hagain, h⟩ := andThen_eq_ok h
    rw [startAgain_file] at hagain
    split_ifs at hagain with hc
    · cases hagain
      obtain ⟨y, hy, h⟩ := andThen_eq_ok h
      cases h
      exact ⟨hform, hcomm hc, secondWalk_returns hend (Returns.of_iterate fuel hy)⟩
    · cases hagain
  · rw [readAiffHeader_not_isForm hform] at h
    cases h

/-! ## Sizes -/

/-- What is accepted of a `COMM` chunk. -/
theorem toComm_ok {c : CommonChunk} {e : Encoding} {x : Comm} (h : c.toComm P e = .ok x) :
    RuntimeFormat.ofBits e.numberType e.bitWidth e.endian = .ok x.format ∧
      x.numFrames = c.numSampleFrames ∧ 1 ≤ c.numSampleFrames ∧
      x.numChannels = c.numChannels ∧ 1 ≤ c.numChannels ∧ c.numChannels ≤ 255 ∧
      x.sampleRate = P.ulong (ieee80ToDouble c.extSampleRate) ∧
      ¬ (ieee80ToDouble c.extSampleRate).le (Double.ofNat 0) := by
  unfold CommonChunk.toComm at h
  cases hformat : RuntimeFormat.ofBits e.numberType e.bitWidth e.endian with
  | error e' => rw [hformat] at h; cases h
  | ok format =>
    rw [hformat, ok_bind] at h
    by_cases hframes : c.numSampleFrames < 1
    · rw [if_pos hframes] at h
      cases h
    · by_cases hch : c.numChannels < 1 ∨ 255 < c.numChannels
      · rw [if_neg hframes, if_pos hch] at h
        cases h
      · rw [if_neg hframes, if_neg hch] at h
        by_cases hrate : (ieee80ToDouble c.extSampleRate).le (Double.ofNat 0)
        · simp only [hrate, if_true] at h
          cases h
        · simp only [hrate] at h
          cases h
          rw [not_or] at hch
          exact ⟨rfl, rfl, Nat.not_lt.1 hframes, rfl, Nat.not_lt.1 hch.1, Nat.not_lt.1 hch.2, rfl,
            hrate⟩

theorem readCommonChunk_ok {subType length p : ℕ} {x : Comm} {f : File}
    (h : readCommonChunk P native subType length (⟨B.bytes, p⟩ : File) = .ok (x, f)) :
    18 ≤ length ∧ ∃ c e, CommonChunk.layout.get B.bytes p = some c ∧ c.toComm P e = .ok x := by
  unfold readCommonChunk at h
  by_cases hlen : length < 18
  · rw [if_pos hlen] at h
    cases h
  · rw [if_neg hlen] at h
    obtain ⟨⟨r, f₁⟩, hfetch, h⟩ := run_bind_ok h
    rw [fetch_file] at hfetch
    cases hc : CommonChunk.layout.get B.bytes p with
    | none => rw [hc] at hfetch; cases hfetch; cases h
    | some c =>
      rw [hc] at hfetch
      cases hfetch
      obtain ⟨⟨e, f₂⟩, -, h⟩ := run_bind_ok h
      rw [run_liftM] at h
      cases hx : c.toComm P e with
      | error e' => rw [hx] at h; cases h
      | ok x' => rw [hx] at h; cases h; exact ⟨Nat.not_lt.1 hlen, c, e, rfl, hx⟩

theorem numSampleFrames_lt {X : List UInt8} {p : ℕ} {c : CommonChunk}
    (h : CommonChunk.layout.get X p = some c) : c.numSampleFrames < 2 ^ 32 := by
  obtain ⟨-, -, rfl⟩ := Layout.get_eq_some h
  have hlt : field .bigEndian (slice X p CommonChunk.layout.size) 2 4 < 256 ^ 4 := field_lt _ 2 4
  exact hlt

/-- What the last `COMM` chunk says is checked. -/
theorem sized_of_lastComm {info : AiffIfstreamInfo} (h : lastComm P native B.bytes info.comm) :
    info.toIfstreamInfo.Sized := by
  obtain ⟨m, ⟨o, tag, f, -, -, -, hread⟩, -⟩ := h
  obtain ⟨-, c, e, hc, hcomm⟩ := readCommonChunk_ok hread
  obtain ⟨-, hframes, h1, hch, h2, h3, -⟩ := toComm_ok hcomm
  change info.numFrames = _ at hframes
  change info.numChannels = _ at hch
  have hlt := numSampleFrames_lt hc
  exact ⟨hch ▸ h2, hch ▸ h3, hframes ▸ h1, hframes ▸ hlt⟩

end

end NiMedia.Aiff
