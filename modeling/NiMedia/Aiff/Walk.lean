/-
  The walks of the AIFF header reader over the chunks of a file.

  The offsets of the chunk headers are those of a walk (`chunkNext`) from offset
  12: a header leads on unless it cannot be read or its handler throws.  The
  offset of the next header is computed in 32 bits, up to the pad byte.  The
  second walk goes the same way, and may stop earlier.

  * `readAiffHeader_terminates_iff`: the reader terminates unless a header whose
    32-bit sum wraps around leads back to a header that has been walked over.
-/
import NiMedia.Aiff.Source

namespace NiMedia.Aiff

open Bytes Loop Simulation

/-- The chunk header at offset `o`. -/
def tagAt (B : List UInt8) (o : ℕ) : Option Tag :=
  if o + 8 ≤ B.length then some ⟨field .bigEndian B o 4, field .bigEndian B (o + 4) 4⟩ else none

/-- The sub-type of the file. -/
def subTypeOf (B : List UInt8) : ℕ := field .bigEndian B 8 4

section
variable (P : Platform) (native : EndianType)

/-- The handler of the chunk at offset `o` goes through. -/
def goesOn (B : List UInt8) (o : ℕ) (tag : Tag) : Bool :=
  (readChunk P native (subTypeOf B) tag ⟨AiffIfstreamInfo.default native, false⟩
    (⟨B, o + 8⟩ : File)).isOk

/-- The offset of the header after the one at offset `o`. -/
def chunkNext (B : List UInt8) (o : ℕ) : Option ℕ :=
  match tagAt B o with
  | none => none
  | some tag =>
    if goesOn P native B o tag then some (target ((o + 8) % 2 ^ 32) tag.length) else none

/-- The offset of the `n`-th chunk header. -/
def chunkOffset (B : List UInt8) (n : ℕ) : Option ℕ := walk (chunkNext P native B) 12 n

end

/-! ## Passes over a file -/

section
variable {B : List UInt8} {o : ℕ} {tag : Tag}

theorem tagAt_le (h : tagAt B o = some tag) : o + 8 ≤ B.length := by
  unfold tagAt at h
  split_ifs at h with hle
  exact hle

theorem fetchTag_some (h : tagAt B o = some tag) :
    fetchTag (⟨B, o⟩ : File) = .ok (some tag, ⟨B, o + 8⟩) := by
  have hle := tagAt_le h
  rw [tagAt, if_pos hle] at h
  cases h
  simp only [fetchTag, bigUint32, run_bind, fetch₂_uint32 hle, Except.bind, run_pure]
  rfl

theorem fetchTag_none (h : tagAt B o = none) :
    ∃ p, fetchTag (⟨B, o⟩ : File) = .ok (none, ⟨B, p⟩) := by
  unfold tagAt at h
  split_ifs at h with hle
  obtain ⟨p, hp⟩ := fetch₂_uint32_short (e := .bigEndian) (show B.length < o + 8 by omega)
  exact ⟨p, by
    simp only [fetchTag, bigUint32, run_bind, hp, Except.bind, run_pure, Option.map_none]⟩

/-- The offset behind the header, in 32 bits. -/
theorem tell_header (B : List UInt8) (o : ℕ) :
    ∃ r, (seek 0 .cur : Io File ℤ) ⟨B, o + 8⟩ = .ok (r, ⟨B, o + 8⟩) ∧
      uint32 r = (o + 8) % 2 ^ 32 := by
  refine ⟨((o + 8 : ℕ) : ℤ), congrArg Except.ok (File.seek_cur 0 ⟨B, o + 8⟩), ?_⟩
  unfold uint32
  omega

theorem seek_target (q : ℕ) (f : File) :
    (seek (q : ℤ) .beg : Io File ℤ) f = .ok ((q : ℤ), { f with pos := q }) :=
  congrArg Except.ok (File.seek_beg q f)

section
variable {P : Platform} {native : EndianType} {subType : ℕ} {s : Found}

variable (P native subType s) in
theorem firstPass_end (h : tagAt B o = none) :
    ∃ p, firstPass P native subType s (⟨B, o⟩ : File) = .ok (.done s, ⟨B, p⟩) := by
  obtain ⟨p, hp⟩ := fetchTag_none h
  exact ⟨p, by simp only [firstPass, run_bind, hp, Except.bind, run_pure]⟩

theorem firstPass_chunk (h : tagAt B o = some tag) :
    firstPass P native subType s (⟨B, o⟩ : File) =
      (readChunk P native subType tag s (⟨B, o + 8⟩ : File)).map fun x =>
        (.again x.1, { x.2 with pos := target ((o + 8) % 2 ^ 32) tag.length }) := by
  obtain ⟨r, htell, hr⟩ := tell_header B o
  simp only [firstPass, run_bind, fetchTag_some h, Except.bind, htell, hr]
  cases readChunk P native subType tag s (⟨B, o + 8⟩ : File) with
  | error e => rfl
  | ok x => simp only [seek_target, run_pure]; rfl

end

theorem secondPass_end (h : tagAt B o = none) :
    secondPass () (⟨B, o⟩ : File) = .error ⟨"Could not find 'SSND' chunk."⟩ := by
  obtain ⟨p, hp⟩ := fetchTag_none h
  simp only [secondPass, run_bind, hp, Except.bind]
  rfl

theorem secondPass_chunk (h : tagAt B o = some tag) (hid : tag.id ≠ ssnd) :
    secondPass () (⟨B, o⟩ : File) =
      .ok (.again (), ⟨B, target ((o + 8) % 2 ^ 32) tag.length⟩) := by
  obtain ⟨r, htell, hr⟩ := tell_header B o
  simp only [secondPass, run_bind, fetchTag_some h, Except.bind, htell, hr, if_neg hid, seek_target,
    run_pure]

/-- The second walk stops at an `SSND` chunk, read or not. -/
theorem secondPass_ssnd (h : tagAt B o = some tag) (hid : tag.id = ssnd) :
    ∃ r, loopStep secondPass ((), (⟨B, o⟩ : File)) = .done r := by
  obtain ⟨r, htell, -⟩ := tell_header B o
  simp only [loopStep, secondPass, run_bind, fetchTag_some h, Except.bind, htell, if_pos hid,
    fetch_file]
  cases SoundDataChunk.layout.get B (o + 8) with
  | none => exact ⟨_, rfl⟩
  | some ssndChunk => exact ⟨_, rfl⟩

end

/-! ## Handlers -/

section
variable {P : Platform} {native : EndianType} {B : List UInt8} {o : ℕ} {tag : Tag}

theorem readMarkChunk_goesOn (info info' : AiffIfstreamInfo) :
    Sim (· = ·) (fun _ s _ t => s = t) (readMarkChunk info : Io File _) (readMarkChunk info') := by
  unfold readMarkChunk
  refine (Sim.refl _).bind_same fun r => ?_
  cases r with
  | none => exact Sim.pure fun _ _ h => h
  | some numMarkers =>
    exact Sim.ite ((Sim.refl _).bind_same fun _ => Sim.pure fun _ _ h => h)
      (Sim.pure fun _ _ h => h)

theorem readInstrumentChunk_goesOn (info info' : AiffIfstreamInfo) :
    Sim (· = ·) (fun _ s _ t => s = t) (readInstrumentChunk info : Io File _)
      (readInstrumentChunk info') := by
  unfold readInstrumentChunk
  refine (Sim.refl _).bind_same fun r => ?_
  cases r with
  | none => exact Sim.throw
  | some instChunk => exact Sim.pure fun _ _ h => h

variable (P native) in
/-- Whether a handler goes through does not depend on what has been found. -/
theorem readChunk_goesOn (subType : ℕ) (tag : Tag) (s s' : Found) :
    Sim (· = ·) (fun _ s _ t => s = t) (readChunk P native subType tag s : Io File _)
      (readChunk P native subType tag s') := by
  unfold readChunk
  refine Sim.ite ((Sim.refl _).bind_same fun _ => Sim.pure fun _ _ h => h) ?_
  refine Sim.ite ((readMarkChunk_goesOn _ _).bind fun _ _ => Sim.pure fun _ _ h => h) ?_
  exact Sim.ite ((readInstrumentChunk_goesOn _ _).bind fun _ _ => Sim.pure fun _ _ h => h)
    (Sim.pure fun _ _ h => h)

theorem goesOn_iff (s : Found) :
    goesOn P native B o tag = true ↔
      ∃ x, readChunk P native (subTypeOf B) tag s (⟨B, o + 8⟩ : File) = .ok x := by
  have h := readChunk_goesOn P native (subTypeOf B) tag s
    ⟨AiffIfstreamInfo.default native, false⟩ (⟨B, o + 8⟩ : File) _ rfl
  unfold goesOn
  constructor
  · intro hg
    cases hx : readChunk P native (subTypeOf B) tag ⟨AiffIfstreamInfo.default native, false⟩
        (⟨B, o + 8⟩ : File) with
    | error e => rw [hx] at hg; cases hg
    | ok y => rw [hx] at h; obtain ⟨x, hx, -⟩ := h.ok_right; exact ⟨x, hx⟩
  · rintro ⟨x, hx⟩
    rw [hx] at h
    obtain ⟨y, hy, -⟩ := h.ok_left
    rw [hy]
    rfl

end

section
variable {P : Platform} {native : EndianType} {B : Content} {o : ℕ} {tag : Tag} {s : Found}

/-- The handlers leave the bytes alone. -/
theorem readChunk_bytes (htag : tagAt B.bytes o = some tag) {subType : ℕ} {x : Found × File}
    (h : readChunk P native subType tag s (⟨B.bytes, o + 8⟩ : File) = .ok x) :
    x.2.bytes = B.bytes := by
  have h1 := readChunk_sim P native subType tag s (⟨B.bytes, o + 8⟩ : File) _
    (rel_self rfl (tagAt_le htag))
  rw [h] at h1
  exact h1.2.1

/-! ## The walk -/

/-- The state of the loops over a file. -/
def overFile {α : Type} (B : Content) (s : α × File) : Prop := s.2.bytes = B.bytes

theorem firstPass_again {s' : Found × File}
    (h : loopStep (firstPass P native (subTypeOf B.bytes)) (s, (⟨B.bytes, o⟩ : File)) = .again s') :
    ∃ tag, tagAt B.bytes o = some tag ∧ goesOn P native B.bytes o tag = true ∧
      s'.2 = ⟨B.bytes, target ((o + 8) % 2 ^ 32) tag.length⟩ := by
  cases htag : tagAt B.bytes o with
  | none =>
    obtain ⟨p, hp⟩ := firstPass_end P native (subTypeOf B.bytes) s htag
    simp only [loopStep, hp] at h
    cases h
  | some tag =>
    simp only [loopStep, firstPass_chunk htag] at h
    cases hx : readChunk P native (subTypeOf B.bytes) tag s (⟨B.bytes, o + 8⟩ : File) with
    | error e => rw [hx] at h; cases h
    | ok x =>
      rw [hx] at h
      cases h
      exact ⟨tag, rfl, (goesOn_iff s).2 ⟨x, hx⟩, by rw [readChunk_bytes htag hx]⟩

/-- The first walk stops where a header cannot be read, or where a handler
    throws. -/
theorem firstPass_done {r : Except RuntimeError (Found × File)}
    (h : loopStep (firstPass P native (subTypeOf B.bytes)) (s, (⟨B.bytes, o⟩ : File)) = .done r) :
    chunkNext P native B.bytes o = none ∧
      ∀ x, r = .ok x → tagAt B.bytes o = none ∧ x.1 = s ∧ x.2.bytes = B.bytes := by
  unfold chunkNext
  cases htag : tagAt B.bytes o with
  | none =>
    obtain ⟨p, hp⟩ := firstPass_end P native (subTypeOf B.bytes) s htag
    simp only [loopStep, hp] at h
    cases h
    exact ⟨rfl, fun x hx => by cases hx; exact ⟨rfl, rfl, rfl⟩⟩
  | some tag =>
    simp only [loopStep, firstPass_chunk htag] at h
    cases hx : readChunk P native (subTypeOf B.bytes) tag s (⟨B.bytes, o + 8⟩ : File) with
    | ok x => rw [hx] at h; cases h
    | error e =>
      rw [hx] at h
      cases h
      refine ⟨if_neg fun hg => ?_, fun x hx => by cases hx⟩
      obtain ⟨x, hok⟩ := (goesOn_iff s).1 hg
      rw [hx] at hok
      cases hok

variable (P native) in
theorem firstPass_chunkNext (s s' : Found × File) (hs : overFile B s)
    (h : loopStep (firstPass P native (subTypeOf B.bytes)) s = .again s') :
    chunkNext P native B.bytes s.2.pos = some s'.2.pos ∧ overFile B s' := by
  obtain ⟨found, ⟨_, o⟩⟩ := s
  obtain rfl : _ = B.bytes := hs
  obtain ⟨tag, htag, hg, hs'⟩ := firstPass_again h
  rw [overFile, hs']
  exact ⟨by simp only [chunkNext, htag, if_pos hg], rfl⟩

theorem firstPass_chunkEnd (s : Found × File) (r : Except RuntimeError (Found × File))
    (hs : overFile B s) (h : loopStep (firstPass P native (subTypeOf B.bytes)) s = .done r) :
    chunkNext P native B.bytes s.2.pos = none := by
  obtain ⟨found, ⟨_, o⟩⟩ := s
  obtain rfl : _ = B.bytes := hs
  exact (firstPass_done h).1

/-- The second walk goes the way of the first one, and stops if that has come to
    the end of the file. -/
theorem secondWalk_terminates {found : Found × File} {o : ℕ} {s : Found}
    (h : Returns (loopStep (firstPass P native (subTypeOf B.bytes))) (s, ⟨B.bytes, o⟩)
      (.ok found)) :
    Terminates (loopStep secondPass) ((), (⟨B.bytes, o⟩ : File)) := by
  refine h.terminates_of (fun s t => t.2 = s.2 ∧ overFile B s) (fun r => ∃ x, r = .ok x) ?_ ?_
    ⟨_, rfl⟩ ⟨rfl, rfl⟩
  · rintro ⟨found, ⟨_, o⟩⟩ ⟨_, _⟩ s' ⟨rfl, hs⟩ h
    obtain rfl : _ = B.bytes := hs
    obtain ⟨tag, htag, -, hs'⟩ := firstPass_again h
    by_cases hid : tag.id = ssnd
    · exact .inl (secondPass_ssnd htag hid)
    · refine .inr ⟨((), s'.2), ?_, rfl, congrArg File.bytes hs'⟩
      simp only [loopStep, secondPass_chunk htag hid, hs']
  · rintro ⟨found, ⟨_, o⟩⟩ ⟨_, _⟩ r ⟨rfl, hs⟩ h ⟨x, rfl⟩
    obtain rfl : _ = B.bytes := hs
    obtain ⟨htag, -⟩ := (firstPass_done h).2 x rfl
    exact ⟨_, by simp only [loopStep, secondPass_end htag]; rfl⟩

/-! ## Termination -/

end

section
variable (P : Platform) (native : EndianType) (B : List UInt8)

/-- The sum in the offset of the next header wraps around. -/
def wraps (o : ℕ) : Prop := ∃ tag, tagAt B o = some tag ∧ 2 ^ 32 ≤ o + 8 + tag.length

/-- No header whose sum wraps around leads back to a header walked over up to
    it. -/
def noWayBack : Prop :=
  ∀ i j a b, i ≤ j → chunkOffset P native B i = some a → chunkOffset P native B j = some b →
    wraps B b → chunkNext P native B b ≠ some a

end

section
variable {P : Platform} {native : EndianType} {B : List UInt8}

theorem chunkNext_some {o o' : ℕ} (h : chunkNext P native B o = some o') :
    ∃ tag, tagAt B o = some tag ∧ o' = target ((o + 8) % 2 ^ 32) tag.length := by
  unfold chunkNext at h
  cases htag : tagAt B o with
  | none => rw [htag] at h; cases h
  | some tag =>
    simp only [htag] at h
    split_ifs at h
    exact ⟨tag, rfl, (Option.some.inj h).symm⟩

/-- Without wraparound the walk goes forward, over the whole chunk. -/
theorem lt_chunkNext {o o' : ℕ} (h : chunkNext P native B o = some o') (hw : ¬ wraps B o) :
    o < o' := by
  obtain ⟨tag, htag, rfl⟩ := chunkNext_some h
  have hlt : o + 8 + tag.length < 2 ^ 32 := by
    by_contra hge
    exact hw ⟨tag, htag, by omega⟩
  unfold target
  split_ifs <;> omega

theorem chunkOffset_ends_iff :
    (∃ n, chunkOffset P native B n = none) ↔ noWayBack P native B := by
  refine walk_ends_iff_of_le (fun a b h hw => lt_chunkNext h hw) (N := B.length) ?_
  intro o o' h
  obtain ⟨tag, htag, -⟩ := chunkNext_some h
  have hle := tagAt_le htag
  omega

/-- The reader over a file that begins as it should. -/
theorem readAiffHeader_isForm (h : isForm B) (fuel p : ℕ) :
    readAiffHeader P native fuel (⟨B, p⟩ : File) =
      andThen (iterate (loopStep (firstPass P native (subTypeOf B))) fuel
        (⟨AiffIfstreamInfo.default native, false⟩, ⟨B, 12⟩)) fun x =>
          findSoundData fuel 12 x.1 x.2 := by
  rw [readAiffHeader, readForm_isForm h, andThen_ok]
  rfl

theorem readAiffHeader_not_isForm (h : ¬ isForm B) (fuel p : ℕ) :
    readAiffHeader P native fuel (⟨B, p⟩ : File) =
      some (.error ⟨"Could not read 'FORM' tag."⟩) := by
  rw [readAiffHeader, readForm_not_isForm h, andThen_error]

theorem startAgain_file (found : Found) (f : File) :
    startAgain 12 found f =
      if found.commChunkFound then .ok ((), ⟨f.bytes, 12⟩)
      else .error ⟨"Could not find 'COMM' chunk."⟩ := by
  unfold startAgain
  rw [run_ite]
  rfl

end

section
variable {P : Platform} {native : EndianType} {B : Content}

/-- Over a file, the reader terminates iff its first walk ends. -/
theorem file_terminates_iff (h : isForm B.bytes) :
    (∃ fuel r, readAiffHeader P native fuel (⟨B.bytes, 0⟩ : File) = some r) ↔
      ∃ n, chunkOffset P native B.bytes n = none := by
  have hwalk := terminates_iff_walk (fun s : Found × File => s.2.pos)
    (firstPass_chunkNext P native) firstPass_chunkEnd
    (show overFile B ((⟨AiffIfstreamInfo.default native, false⟩ : Found), ⟨B.bytes, 12⟩) from rfl)
  refine Iff.trans ?_ hwalk
  simp only [readAiffHeader_isForm h]
  constructor
  · rintro ⟨fuel, r, hr⟩
    cases hx : iterate (loopStep (firstPass P native (subTypeOf B.bytes))) fuel
        (⟨AiffIfstreamInfo.default native, false⟩, (⟨B.bytes, 12⟩ : File)) with
    | none => rw [hx] at hr; cases hr
    | some x => exact ⟨x, Returns.of_iterate fuel hx⟩
  · rintro ⟨r, hr⟩
    obtain ⟨n, hn⟩ := returns_iff.1 hr
    cases r with
    | error e => exact ⟨n, _, by rw [hn, andThen_error]⟩
    | ok x =>
      obtain ⟨found, f⟩ := x
      have hf : f.bytes = B.bytes := by
        refine hr.inv (overFile B) (fun r => ∀ x, r = .ok x → overFile B x) ?_ ?_ rfl _ rfl
        · exact fun s s' hs h => (firstPass_chunkNext P native s s' hs h).2
        · rintro ⟨found, ⟨_, o⟩⟩ r hs h x rfl
          obtain rfl : _ = B.bytes := hs
          exact ((firstPass_done h).2 x rfl).2.2
      -- the second walk needs fuel of its own
      obtain ⟨r', hr'⟩ := secondWalk_terminates hr
      obtain ⟨m, hm⟩ := returns_iff.1 hr'
      have hn := iterate_mono hn m
      have hm := iterate_mono hm n
      rw [Nat.add_comm m n] at hm
      refine ⟨n + m, ?_⟩
      simp only [hn, andThen_ok, findSoundData, startAgain_file, hf]
      by_cases hc : found.commChunkFound
      · simp only [hc, if_true, andThen_ok, hm]
        cases r' with
        | error e => exact ⟨_, rfl⟩
        | ok y => exact ⟨_, rfl⟩
      · exact ⟨_, by rw [if_neg hc, andThen_error]⟩

/-- The reader terminates on a source of the bytes iff the walk has no way
    back. -/
theorem terminates_iff {σ : Type} [ByteSource σ] {s : σ} (hs : ByteSource.At B 0 s) :
    (∃ fuel r, readAiffHeader P native fuel s = some r) ↔
      (isForm B.bytes → noWayBack P native B.bytes) := by
  have hrel : Rel B s ⟨B.bytes, 0⟩ := ⟨rfl, hs⟩
  have hfile : (∃ fuel r, readAiffHeader P native fuel s = some r) ↔
      ∃ fuel r, readAiffHeader P native fuel (⟨B.bytes, 0⟩ : File) = some r :=
    exists_congr fun fuel => rel_isSome (readAiffHeader_sim P native fuel hrel)
  rw [hfile]
  by_cases hform : isForm B.bytes
  · rw [file_terminates_iff hform, chunkOffset_ends_iff]
    constructor
    · intro h _
      exact h
    · intro h
      exact h hform
  · constructor
    · intro _ h
      exact absurd h hform
    · intro _
      exact ⟨0, _, readAiffHeader_not_isForm hform 0 0⟩

end

/-- **Termination.**  On every byte string, served by a container or a file, the
    header reader terminates, with both of its walks, iff the bytes do not begin
    with a FORM tag or no header on the walk whose 32-bit sum wraps around leads
    back. -/
theorem readAiffHeader_terminates_iff (P : Platform) (native : EndianType) (B : Content) :
    ((∃ fuel r, readAiffHeader P native fuel
        (AiffSource.unread native (Container.mk' B.bytes)) = some r) ↔
      (isForm B.bytes → noWayBack P native B.bytes)) ∧
    ((∃ fuel r, readAiffHeader P native fuel
        (AiffSource.unread native (File.opened B.bytes)) = some r) ↔
      (isForm B.bytes → noWayBack P native B.bytes)) :=
  ⟨terminates_iff (at_aiffSource (at_container B)), terminates_iff (at_aiffSource (at_opened B))⟩

/-- A header whose length leads back to it. -/
def loopingAiff : List UInt8 :=
  [0x46, 0x4F, 0x52, 0x4D, 0, 0, 0, 0x0C, 0x41, 0x49, 0x46, 0x46,
   0x78, 0x78, 0x78, 0x78, 0xFF, 0xFF, 0xFF, 0xF8]

/-- The reader does not terminate on it. -/
theorem readAiffHeader_loops :
    ¬ ∃ fuel r, readAiffHeader .powersOfTwo .littleEndian fuel
      (AiffSource.unread .littleEndian (Container.mk' loopingAiff)) = some r := by
  have hB : ByteSource.At ⟨loopingAiff, by decide⟩ 0 (Container.mk' loopingAiff) := ⟨rfl, rfl⟩
  rw [terminates_iff (at_aiffSource hB)]
  intro h
  have hnext : chunkNext .powersOfTwo .littleEndian loopingAiff 12 = some 12 := by decide
  have hwraps : wraps loopingAiff 12 := ⟨⟨0x78787878, 0xFFFFFFF8⟩, by decide, by decide⟩
  exact h (by decide) 0 0 12 12 le_rfl rfl rfl hwraps hnext

end NiMedia.Aiff
