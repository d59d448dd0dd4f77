/-
  The integer operations of the AIFF header reader on the fields of a file.

  The end of a chunk is computed in `uint32_t`, sizes of strings in `int`, and
  what goes into the info in `size_t`, the rate being of any size.

  * `performs_exact_iff`: all operations are exact iff the headers and the
    chunks behind which the first walk goes on end below 4 GiB, and the bit rate
    of an accepted file fits into a `size_t`.
-/
import NiMedia.Aiff.Accepted
import NiMedia.Aiff.Extent

namespace NiMedia.Aiff

open Bytes Loop Simulation Words

section
variable (P : Platform) (native : EndianType) (B : Content)

/-- The first walk comes to the header `tag` at offset `o`. -/
structure OnFirst (o : ℕ) (tag : Tag) : Prop where
  isForm : isForm B.bytes
  reached : ∃ n s, steps (loopStep (firstPass P native (subTypeOf B.bytes))) n
    (firstWalk native B) = some (s, ⟨B.bytes, o⟩)
  tagAt : tagAt B.bytes o = some tag

/-- The second walk comes to the header `tag` at offset `o`. -/
structure OnSecond (o : ℕ) (tag : Tag) : Prop where
  isForm : isForm B.bytes
  found : ∃ x, Returns (loopStep (firstPass P native (subTypeOf B.bytes))) (firstWalk native B)
    (.ok x) ∧ x.1.commChunkFound = true
  reached : ∃ n, steps (loopStep secondPass) n ((), (⟨B.bytes, 12⟩ : File)) =
    some ((), ⟨B.bytes, o⟩)
  tagAt : tagAt B.bytes o = some tag

/-- One of the walks goes on behind the chunk with the header `tag` at offset
    `o`. -/
def leadsOn (o : ℕ) (tag : Tag) : Prop :=
  OnFirst P native B o tag ∧ goesOn P native B.bytes o tag = true ∨
    OnSecond P native B o tag ∧ tag.id ≠ ssnd

/-- The reader accepts the file with the info `info`. -/
def accepts (info : AiffIfstreamInfo) : Prop :=
  ∃ fuel f, readAiffHeader P native fuel (⟨B.bytes, 0⟩ : File) = some (.ok (info, f))

/-- Where the name of the `k`-th of the markers from offset `p` on is. -/
def markerName (X : List UInt8) (p : ℕ) : ℕ → ℕ
  | 0 => p + 6
  | k + 1 => pascalStringNext X (markerName X p k) + 6

/-- The operations on integers that the reader performs, and those on its info
    when the source is opened. -/
inductive Performs : Operation → Prop
  -- static_cast<uint32_t>( src.seek( 0, BOOST_IOS::cur ) )
  | currentOffset {o tag} : OnFirst P native B o tag ∨ OnSecond P native B o tag →
      Performs (.unsigned 32 (o + 8))
  -- ( size + 1 ) % 2
  | compressorName {o tag size} : OnFirst P native B o tag → tag.id = comm →
      subTypeOf B.bytes = aifc → 22 < tag.length → bigUint8.get B.bytes (o + 30) = some size →
      Performs (.signed 32 (size + 1))
  | markerName {o tag n k size} : OnFirst P native B o tag → tag.id = mark →
      bigUint16.get B.bytes (o + 8) = some n → k < n →
      bigUint8.get B.bytes (markerName B.bytes (o + 10) k) = some size →
      Performs (.signed 32 (size + 1))
  -- static_cast<int>( num_markers )
  | numMarkers {o tag n} : OnFirst P native B o tag → tag.id = mark →
      bigUint16.get B.bytes (o + 8) = some n → Performs (.signed 32 n)
  -- currentOffset + aiffTag.length + ( remainder != 0 ? padSize - remainder : 0 )
  | chunkEnd {o tag} : leadsOn P native B o tag → Performs (.unsigned 32 (o + 8 + tag.length))
  | padding {o tag} : leadsOn P native B o tag → tag.length % 2 ≠ 0 →
      Performs (.unsigned 64 (2 - tag.length % 2))
  | target {o tag} : leadsOn P native B o tag →
      Performs ⟨target ((o + 8) % 2 ^ 32) tag.length,
        (o + 8 + tag.length + if tag.length % 2 ≠ 0 then 2 - tag.length % 2 else 0 : ℕ)⟩
  -- info.sample_rate() * info.num_channels() * info.bits_per_sample()
  | sampleRate {info} : accepts P native B info →
      Performs (.unsigned 64 (info.sampleRate * info.numChannels))
  | bitRate {info} : accepts P native B info →
      Performs (.unsigned 64 (info.sampleRate * info.numChannels * info.bitsPerSample))
  -- m_info.num_bytes()
  | numSamples {info} : accepts P native B info →
      Performs (.unsigned 64 (info.numFrames * info.numChannels))
  | numBytes {info} : accepts P native B info →
      Performs (.unsigned 64 (info.numFrames * info.numChannels * info.bytesPerSample))

/-- The headers on the walk, and the chunks behind which it goes on, end below
    4 GiB; where there are a `COMM` and a `SSND` chunk, the bit rate fits into a
    `size_t`. -/
structure HeadersFit : Prop where
  header : ∀ n o tag, chunkOffset P native B.bytes n = some o → tagAt B.bytes o = some tag →
    o + 8 < 2 ^ 32
  chunk : ∀ n o tag, chunkOffset P native B.bytes n = some o → tagAt B.bytes o = some tag →
    goesOn P native B.bytes o tag = true → o + 8 + tag.length < 2 ^ 32
  bitRate : ∀ x o tag c, reachesEnd P native B.bytes → lastComm P native B.bytes x →
    firstSoundData P native B.bytes o tag c →
    x.sampleRate * x.numChannels * x.format.bitwidth.bits < 2 ^ 64

end

section
variable {P : Platform} {native : EndianType} {B : Content}

/-! ## Acceptance -/

/-- The first walk comes by at each chunk. -/
theorem steps_of_chunkOffset {n o : ℕ} (ho : chunkOffset P native B.bytes n = some o) :
    ∃ found, steps (loopStep (firstPass P native (subTypeOf B.bytes))) n (firstWalk native B) =
      some (found, (⟨B.bytes, o⟩ : File)) := by
  cases hs : steps (loopStep (firstPass P native (subTypeOf B.bytes))) n (firstWalk native B) with
  | none =>
    rw [(steps_chunkOffset P native n).2 hs] at ho
    cases ho
  | some s =>
    obtain ⟨hpos, hB⟩ := (steps_chunkOffset P native n).1 s hs
    obtain ⟨found, ⟨bytes, p⟩⟩ := s
    obtain rfl : bytes = B.bytes := hB
    obtain rfl : o = p := Option.some.inj (ho.symm.trans hpos)
    exact ⟨found, rfl⟩

/-- A `COMM` chunk on the way has been found. -/
theorem steps_found : ∀ (n : ℕ) (s : Found × File),
    steps (loopStep (firstPass P native (subTypeOf B.bytes))) n (firstWalk native B) = some s →
      ∀ m < n, isCommAt P native B.bytes m → s.1.commChunkFound = true
  | 0, _, _, m, hm, _ => absurd hm (Nat.not_lt_zero m)
  | n + 1, (found', f'), h, m, hm, hcomm => by
    obtain ⟨⟨found, ⟨bytes, o⟩⟩, hs, hstep⟩ := steps_succ_inv h
    obtain ⟨ho, hB⟩ := (steps_chunkOffset P native n).1 _ hs
    obtain rfl : bytes = B.bytes := hB
    obtain ⟨tag, f, htag, hx⟩ := firstPass_readChunk hstep
    obtain ⟨hfinds, hkeeps⟩ := readChunk_comm hx
    by_cases hid : tag.id = comm
    · exact (hfinds hid).1
    · rw [(hkeeps hid).1]
      rcases Nat.lt_succ_iff_lt_or_eq.1 hm with hlt | rfl
      · exact steps_found n _ hs m hlt hcomm
      · obtain ⟨o', tag', ho', htag', hid'⟩ := hcomm
        rw [ho] at ho'
        cases ho'
        rw [htag] at htag'
        cases htag'
        exact absurd hid' hid

/-- The first walk over a file to whose end it comes, and which has a `COMM`
    chunk. -/
theorem firstWalk_of_reachesEnd (hend : reachesEnd P native B.bytes) {x : Comm}
    (hx : lastComm P native B.bytes x) : ∃ found f, Returns
      (loopStep (firstPass P native (subTypeOf B.bytes))) (firstWalk native B)
        (.ok (found, (⟨B.bytes, f⟩ : File))) ∧ found.commChunkFound = true := by
  obtain ⟨n, o, ho, htag⟩ := hend
  obtain ⟨m, ⟨o', tag, f, ho', htag', hid, -⟩, -⟩ := hx
  have hmn := lt_of_reachesEnd ho htag ho' htag'
  obtain ⟨found, hs⟩ := steps_of_chunkOffset ho
  obtain ⟨q, hq⟩ := firstPass_end P native (subTypeOf B.bytes) found htag
  refine ⟨found, q, returns_iff_steps.2 ⟨n, _, hs, ?_⟩, ?_⟩
  · simp only [loopStep, hq]
  · exact steps_found n _ hs m hmn ⟨o', tag, ho', htag', hid⟩

/-- The second walk goes the way of the first one, up to an `SSND` chunk. -/
theorem steps_secondPass_of {o : ℕ} : ∀ n : ℕ,
    chunkOffset P native B.bytes n = some o →
    (∀ m < n, ∀ o' tag, chunkOffset P native B.bytes m = some o' → tagAt B.bytes o' = some tag →
      tag.id ≠ ssnd) →
    steps (loopStep secondPass) n ((), (⟨B.bytes, 12⟩ : File)) = some ((), ⟨B.bytes, o⟩) := by
  intro n ho hno
  induction n generalizing o with
  | zero => cases ho; rfl
  | succ n ih =>
    obtain ⟨o', ho', hnext⟩ := Option.bind_eq_some_iff.1 ho
    obtain ⟨tag, htag, rfl⟩ := chunkNext_some hnext
    have hs := ih ho' fun m hm => hno m (Nat.lt_succ_of_lt hm)
    have hid := hno n (Nat.lt_succ_self n) o' tag ho' htag
    refine steps_succ hs ?_
    simp only [loopStep, secondPass_chunk htag hid]

/-- The second walk stops at the first `SSND` chunk, if it can be read. -/
theorem secondWalk_of_firstSoundData {o : ℕ} {tag : Tag} {c : SoundDataChunk}
    (h : firstSoundData P native B.bytes o tag c) :
    ∃ f, Returns (loopStep secondPass) ((), (⟨B.bytes, 12⟩ : File)) (.ok ((), f)) := by
  obtain ⟨n, ho, htag, hid, hget, hno⟩ := h
  refine ⟨⟨B.bytes, o + 16 + c.offset⟩,
    returns_iff_steps.2 ⟨n, _, steps_secondPass_of n ho hno, ?_⟩⟩
  obtain ⟨r, htell, -⟩ := tell_header B.bytes o
  obtain ⟨-, hlen, -⟩ := Layout.get_eq_some hget
  have hseek : (seek (c.offset : ℕ) .cur : Io File ℤ) ⟨B.bytes, o + 16⟩ =
      .ok (_, ⟨B.bytes, o + 16 + c.offset⟩) := congrArg Except.ok (File.seek_cur _ _)
  have h16 : o + 8 + SoundDataChunk.layout.size = o + 16 := rfl
  simp only [loopStep, secondPass, run_bind, fetchTag_some htag, Except.bind, htell, if_pos hid,
    fetch_file, hget, hlen, h16, hseek, run_pure]

/-- **Acceptance.**  A file is accepted iff the walk comes to its end, and there
    are a `COMM` chunk and an `SSND` chunk that can be read. -/
theorem accepts_iff {x : Comm} : (∃ info, accepts P native B info ∧ info.comm = x) ↔
    isForm B.bytes ∧ reachesEnd P native B.bytes ∧ lastComm P native B.bytes x ∧
      ∃ o tag c, firstSoundData P native B.bytes o tag c := by
  constructor
  · rintro ⟨info, ⟨fuel, f, h⟩, rfl⟩
    obtain ⟨hform, hcomm, o, tag, c, hdata, -⟩ := readAiffHeader_accepted h
    rw [readAiffHeader_isForm hform] at h
    obtain ⟨y, hy, -⟩ := andThen_eq_ok h
    exact ⟨hform, (firstWalk_returns (Returns.of_iterate fuel hy)).1, hcomm, o, tag, c, hdata⟩
  · rintro ⟨hform, hend, hx, o, tag, c, hdata⟩
    obtain ⟨found, p, hfirst, hfound⟩ := firstWalk_of_reachesEnd hend hx
    obtain ⟨f, hsecond⟩ := secondWalk_of_firstSoundData hdata
    have hcomm := (firstWalk_returns hfirst).2.2 hfound
    obtain ⟨n, hn⟩ := returns_iff.1 hfirst
    obtain ⟨m, hm⟩ := returns_iff.1 hsecond
    -- enough fuel for both walks
    have hn := iterate_mono hn m
    have hm := iterate_mono hm n
    rw [Nat.add_comm m n] at hm
    refine ⟨found.info.setBitRate, ⟨n + m, f, ?_⟩, lastComm_unique hcomm hx⟩
    rw [firstWalk] at hn
    simp only [readAiffHeader_isForm hform, hn, andThen_ok, findSoundData, startAgain_file,
      hfound, if_true, hm]

/-- What the header of an accepted file says. -/
theorem accepts.sized {info : AiffIfstreamInfo} (h : accepts P native B info) :
    info.toIfstreamInfo.Sized := by
  obtain ⟨fuel, f, h⟩ := h
  exact sized_of_lastComm (readAiffHeader_accepted h).2.1

/-! ## Exactness -/

theorem OnFirst.chunkOffset {o : ℕ} {tag : Tag} (h : OnFirst P native B o tag) :
    ∃ n, chunkOffset P native B.bytes n = some o := by
  obtain ⟨n, s, hs⟩ := h.reached
  exact ⟨n, ((steps_chunkOffset P native n).1 _ hs).1⟩

theorem OnSecond.chunkOffset {o : ℕ} {tag : Tag} (h : OnSecond P native B o tag) :
    ∃ n, chunkOffset P native B.bytes n = some o ∧ goesOn P native B.bytes o tag = true := by
  obtain ⟨x, hx, -⟩ := h.found
  obtain ⟨n, hs⟩ := h.reached
  have hend := (firstWalk_returns hx).1
  have ho := (steps_secondPass hend n _ hs).2.1
  refine ⟨n, ho, ?_⟩
  have hnext := chunkNext_of_reachesEnd hend ho h.tagAt
  by_contra hno
  simp only [chunkNext, h.tagAt, if_neg hno] at hnext
  cases hnext

theorem onFirst_of_chunkOffset (hform : isForm B.bytes) {n o : ℕ} {tag : Tag}
    (ho : chunkOffset P native B.bytes n = some o) (htag : tagAt B.bytes o = some tag) :
    OnFirst P native B o tag := by
  obtain ⟨found, hs⟩ := steps_of_chunkOffset ho
  exact ⟨hform, ⟨n, found, hs⟩, htag⟩

/-- Where a walk goes on, the sum is small. -/
theorem HeadersFit.sum_lt (hfit : HeadersFit P native B) {o : ℕ} {tag : Tag}
    (h : leadsOn P native B o tag) : o + 8 + tag.length < 2 ^ 32 := by
  rcases h with ⟨h, hgo⟩ | ⟨h, -⟩
  · obtain ⟨n, ho⟩ := h.chunkOffset
    exact hfit.chunk n o tag ho h.tagAt hgo
  · obtain ⟨n, ho, hgo⟩ := h.chunkOffset
    exact hfit.chunk n o tag ho h.tagAt hgo

/-- The bit rate of an accepted file is small. -/
theorem HeadersFit.bitRate_lt (hfit : HeadersFit P native B) {info : AiffIfstreamInfo}
    (h : accepts P native B info) :
    info.sampleRate * info.numChannels * info.bitsPerSample < 2 ^ 64 := by
  obtain ⟨-, hend, hcomm, o, tag, c, hdata⟩ := accepts_iff.1 ⟨info, h, rfl⟩
  exact hfit.bitRate info.comm o tag c hend hcomm hdata

/-- Each operation is exact where the headers fit. -/
theorem Performs.isExact {op : Operation} (h : Performs P native B op)
    (hfit : HeadersFit P native B) : op.isExact := by
  cases h with
  | currentOffset h =>
    rcases h with h | h
    · obtain ⟨n, ho⟩ := h.chunkOffset
      exact Operation.unsigned_isExact.2 (hfit.header n _ _ ho h.tagAt)
    · obtain ⟨n, ho, -⟩ := h.chunkOffset
      exact Operation.unsigned_isExact.2 (hfit.header n _ _ ho h.tagAt)
  | compressorName h hid hsub hlen hget =>
    have hlt := uint8_lt hget
    exact Operation.signed_isExact.2 (by omega)
  | markerName h hid hn hk hget =>
    have hlt := uint8_lt hget
    exact Operation.signed_isExact.2 (by omega)
  | numMarkers h hid hn =>
    have hlt := uintLayout_get_lt hn
    exact Operation.signed_isExact.2 (by omega)
  | chunkEnd h => exact Operation.unsigned_isExact.2 (hfit.sum_lt h)
  | padding h hodd => exact Operation.unsigned_isExact.2 (by omega)
  | @target o tag h =>
    have hlt := hfit.sum_lt h
    have hsum : (o + 8) % 2 ^ 32 + tag.length = o + 8 + tag.length := by omega
    rw [Operation.isExact, Aiff.target, hsum, Nat.mod_eq_of_lt hlt]
  | @sampleRate info h =>
    have hlt := hfit.bitRate_lt h
    have hpos : 0 < info.bitsPerSample := by
      rw [info.bitsPerSample_eq]
      exact Nat.mul_pos (by decide) info.bytesPerSample_pos
    have hle := Nat.le_mul_of_pos_right (info.sampleRate * info.numChannels) hpos
    exact Operation.unsigned_isExact.2 (hle.trans_lt hlt)
  | bitRate h => exact Operation.unsigned_isExact.2 (hfit.bitRate_lt h)
  | numSamples h =>
    have hle := Nat.mul_le_mul h.sized.numFrames_lt.le h.sized.numChannels_le
    exact Operation.unsigned_isExact.2 (by omega)
  | @numBytes info h =>
    have hle := Nat.mul_le_mul (Nat.mul_le_mul h.sized.numFrames_lt.le h.sized.numChannels_le)
      info.bytesPerSample_le
    exact Operation.unsigned_isExact.2 (by omega)

/-- The headers fit where the operations are exact. -/
theorem headersFit_of_exact (hform : isForm B.bytes)
    (h : ∀ op, Performs P native B op → op.isExact) : HeadersFit P native B where
  header := by
    intro n o tag ho htag
    have hon := onFirst_of_chunkOffset hform ho htag
    exact Operation.unsigned_isExact.1 (h _ (.currentOffset (.inl hon)))
  chunk := by
    intro n o tag ho htag hgo
    have hon := onFirst_of_chunkOffset hform ho htag
    exact Operation.unsigned_isExact.1 (h _ (.chunkEnd (.inl ⟨hon, hgo⟩)))
  bitRate := by
    intro x o tag c hend hx hdata
    obtain ⟨info, hinfo, rfl⟩ := accepts_iff.2 ⟨hform, hend, hx, o, tag, c, hdata⟩
    exact Operation.unsigned_isExact.1 (h _ (.bitRate hinfo))

theorem accepts.isForm {info : AiffIfstreamInfo} (h : accepts P native B info) :
    isForm B.bytes := by
  obtain ⟨fuel, f, h⟩ := h
  exact (readAiffHeader_accepted h).1

theorem leadsOn_isForm {o : ℕ} {tag : Tag} (h : leadsOn P native B o tag) : isForm B.bytes := by
  rcases h with ⟨h, -⟩ | ⟨h, -⟩
  · exact h.isForm
  · exact h.isForm

variable (P native B) in
theorem performs_exact_iff :
    (∀ op, Performs P native B op → op.isExact) ↔
      (isForm B.bytes → HeadersFit P native B) := by
  constructor
  · intro h hform
    exact headersFit_of_exact hform h
  · intro hfit op hop
    have hform : isForm B.bytes := by
      cases hop with
      | currentOffset h => rcases h with h | h <;> exact h.isForm
      | compressorName h _ _ _ _ | markerName h _ _ _ _ | numMarkers h _ _ => exact h.isForm
      | chunkEnd h | padding h _ | target h => exact leadsOn_isForm h
      | sampleRate h | bitRate h | numSamples h | numBytes h => exact h.isForm
    exact hop.isExact (hfit hform)

end

end NiMedia.Aiff
