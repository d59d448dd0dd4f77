/-
  Unknown chunks between the chunks of WAV files.

  A chunk that no handler knows is inserted at an offset `p` of the walk.  The
  passes before `p` see the same bytes (`steps_before`), those from `p` on the
  same bytes further on (`steps_behind`), if the walk does not go over `p` except
  from chunk to chunk (`splitsAt`).

  * `insertChunk_iff`: the file is accepted as before, with the view shifted by
    the inserted bytes, iff the payload is not empty.
  * `splitsAt_of_not_wraps`: every chunk on an ordinary walk splits it.
-/
import NiMedia.Audio.Chunk
import NiMedia.Wav.Explicit
import NiMedia.Wav.Extent

namespace NiMedia.Wav

open Bytes Loop Simulation

/-- The ids of the chunks that the reader looks for. -/
def knownIds : List ℕ := [fmt, data, smpl, inst]

/-- The loops that a `smpl` chunk at offset `o` counts end before `p`. -/
def loopsEndBefore (native : EndianType) (B : List UInt8) (o p : ℕ) (tag : RiffTag) : Prop :=
  tag.id = smpl → 36 ≤ tag.length → ∀ c, (SampleChunk.layout native).get B (o + 8) = some c →
    o + 44 + 24 * c.sampleLoops.toNat ≤ p

/-- The first `k` chunks, and the loops that they count, end before `p`, and the
    other ones begin there. -/
structure splitsAt (native : EndianType) (B : List UInt8) (k p : ℕ) : Prop where
  before : ∀ i < k, ∀ o tag, chunkOffset native B i = some o → tagAt native B o = some tag →
    o + 8 + tag.length ≤ p ∧ loopsEndBefore native B o p tag
  behind : ∀ i, k ≤ i → ∀ o, chunkOffset native B i = some o → p ≤ o

section
variable {native : EndianType}

/-! ## Offsets -/

theorem chunkOffset_even {B : List UInt8} {n o : ℕ} (h : chunkOffset native B n = some o) :
    o % 2 = 0 := by
  cases n with
  | zero => cases h; rfl
  | succ n =>
    obtain ⟨o', -, hnext⟩ := Option.bind_eq_some_iff.1 h
    obtain ⟨tag, -, rfl⟩ := chunkNext_some hnext
    rw [nextOffset_eq]
    omega

/-- The next offset is moved as the chunk is. -/
theorem nextOffset_add {o length s : ℕ} (heven : s % 2 = 0)
    (hlt : nextOffset ((o + 8) % 2 ^ 32) length + s < 2 ^ 32) :
    nextOffset ((o + s + 8) % 2 ^ 32) length =
      nextOffset ((o + 8) % 2 ^ 32) length + s := by
  rw [nextOffset_eq] at hlt
  rw [nextOffset_eq, nextOffset_eq]
  omega

section
variable {B C : Content} {c : Chunk} {k p : ℕ}

/-! ## The passes before the inserted chunk -/

theorem tagAt_before (C : List UInt8) {B : List UInt8} {o : ℕ} {tag : RiffTag}
    (hp : p ≤ B.length) (ho : o + 8 ≤ p) (htag : tagAt native B o = some tag) :
    tagAt native (insertAt B C p) o = some tag := by
  rw [tagAt, if_pos (tagAt_le htag)] at htag
  rw [tagAt, if_pos (by rw [length_insertAt]; omega), slice_insertAt_left C hp (by omega),
    slice_insertAt_left C hp (by omega)]
  exact htag

/-- A pass over a file, whose handler goes on. -/
theorem pass_of_again {o : ℕ} {tag : RiffTag} {info info' : WavIfstreamInfo} {f : File}
    (htag : tagAt native B.bytes o = some tag) (hlen : tag.length ≠ 0)
    (hx : readChunk native tag info (⟨B.bytes, o + 8⟩ : File) = .ok (.again info', f)) :
    loopStep (pass native) (info, (⟨B.bytes, o⟩ : File)) =
      .again (info', ⟨B.bytes, nextOffset ((o + 8) % 2 ^ 32) tag.length⟩) := by
  have hB := readChunk_bytes htag hx
  simp only [loopStep, pass_file, htag, if_neg hlen, hx, hB]

/-- **The passes before** the inserted chunk. -/
theorem steps_before {B' : Content} (C : List UInt8) (hB' : B'.bytes = insertAt B.bytes C p)
    (hp : p ≤ B.bytes.length) (hsplit : splitsAt native B.bytes k p) :
    ∀ (i : ℕ) (info : WavIfstreamInfo) (o : ℕ), i ≤ k →
      steps (loopStep (pass native)) i (WavIfstreamInfo.default native, (⟨B.bytes, 12⟩ : File)) =
        some (info, ⟨B.bytes, o⟩) →
      steps (loopStep (pass native)) i (WavIfstreamInfo.default native, (⟨B'.bytes, 12⟩ : File)) =
        some (info, ⟨B'.bytes, o⟩)
  | 0, _, _, _, h => by cases h; rfl
  | i + 1, info', o', hi, h => by
    obtain ⟨⟨info, ⟨bytes, o⟩⟩, hs, hstep⟩ := steps_succ_inv h
    obtain ⟨ho, hB⟩ := steps_chunkOffset hs
    obtain rfl : bytes = B.bytes := hB
    obtain ⟨tag, f, htag, hlen, hx, hf⟩ := pass_again hstep
    cases hf
    obtain ⟨hend, hloops⟩ := hsplit.before i (by omega) o tag ho htag
    have htag' : tagAt native B'.bytes o = some tag := by
      rw [hB']
      exact tagAt_before C hp (by omega) htag
    -- the handler stays in the bytes up to `p`
    have hY : (slice B.bytes (o + 8) (p - (o + 8))).length = p - (o + 8) := length_slice (by omega)
    have hwin : Window (slice B.bytes (o + 8) (p - (o + 8))) (o + 8) (o + 8) 0
        ⟨B.bytes, o + 8⟩ ⟨B'.bytes, o + 8⟩ := by
      refine ⟨rfl, rfl, by rw [hY], ?_⟩
      rw [hY, hB']
      exact slice_insertAt_left C hp (by omega)
    have hfit : tag.id = smpl → 36 ≤ tag.length →
        sampleLoopsFit native (slice B.bytes (o + 8) (p - (o + 8))) := by
      intro hid h36 _ c hc
      have hget := get_of_window hwin.bytes (Layout.get_eq_some hc).1
      rw [Nat.add_zero, hc] at hget
      have hle := hloops hid h36 c hget
      omega
    have hsim := readChunk_window (by rw [hY]; omega) hfit info _ _ hwin
    rw [hx] at hsim
    obtain ⟨⟨_, f'⟩, hx', rfl, -⟩ := hsim.ok_left
    exact steps_succ (steps_before C hB' hp hsplit i info o (by omega) hs)
      (pass_of_again htag' hlen hx')

/-! ## The inserted chunk -/

theorem tagAt_chunk {B : List UInt8} (hp : p ≤ B.length)
    (hlt : (insertAt B (c.bytes native) p).length < 2 ^ 32) :
    tagAt native (insertAt B (c.bytes native) p) p = some ⟨c.id, c.payload.length⟩ := by
  have hlen : (B.take p).length = p := List.length_take_of_le hp
  have hid := c.field_id native (B.take p) (B.drop p)
  have hlength := c.field_length native (B.take p) (B.drop p)
  rw [hlen] at hid hlength
  rw [length_insertAt, c.length_bytes] at hlt
  have hin : p + 8 ≤ (insertAt B (c.bytes native) p).length := by
    rw [length_insertAt, c.length_bytes]
    omega
  have hlength := hlength (by omega)
  rw [field] at hid hlength
  rw [tagAt, if_pos hin, insertAt, hid, hlength]

theorem readChunk_unknown {tag : RiffTag} (hid : tag.id ∉ knownIds) (info : WavIfstreamInfo)
    (f : File) : readChunk native tag info f = .ok (.again info, f) := by
  obtain ⟨hfmt, hdata, hsmpl, hinst⟩ : tag.id ≠ fmt ∧ tag.id ≠ data ∧ tag.id ≠ smpl ∧
      tag.id ≠ inst := by simpa [knownIds] using hid
  rw [readChunk, if_neg hfmt, if_neg hdata, if_neg hsmpl, if_neg hinst]
  rfl

/-- **The pass over the inserted chunk**: an empty one stops the loop. -/
theorem pass_inserted {B' : Content} (hB' : B'.bytes = insertAt B.bytes (c.bytes native) p)
    (hp : p ≤ B.bytes.length) (heven : p % 2 = 0) (hlt : B'.bytes.length < 2 ^ 32)
    (hid : c.id ∉ knownIds) (info : WavIfstreamInfo) :
    (c.payload = [] → loopStep (pass native) (info, (⟨B'.bytes, p⟩ : File)) =
      .done (.error ⟨"Could not read 'data' tag."⟩)) ∧
    (c.payload ≠ [] → loopStep (pass native) (info, (⟨B'.bytes, p⟩ : File)) =
      .again (info, ⟨B'.bytes, p + (c.bytes native).length⟩)) := by
  have htag : tagAt native B'.bytes p = some ⟨c.id, c.payload.length⟩ := by
    rw [hB'] at hlt ⊢
    exact tagAt_chunk hp hlt
  refine ⟨fun hnil => ?_, fun hne => ?_⟩
  · have hzero : c.payload.length = 0 := by rw [hnil]; rfl
    simp only [loopStep, pass_file, htag, if_pos hzero]
  · have hpos : c.payload.length ≠ 0 := by rwa [ne_eq, List.length_eq_zero_iff]
    rw [pass_of_again htag hpos (readChunk_unknown hid info _), nextOffset_eq]
    rw [hB', length_insertAt, c.length_bytes] at hlt
    rw [c.length_bytes]
    congr 3
    dsimp only
    omega

/-! ## The passes behind the inserted chunk -/

/-- At the same of the bytes behind `p`, which have been moved by `C`. -/
structure Shifted (B C : List UInt8) (p : ℕ) (f f' : File) : Prop where
  bytes : f.bytes = B
  bytes' : f'.bytes = insertAt B C p
  le_pos : p ≤ f.pos
  pos' : f'.pos = f.pos + C.length

theorem fetchAlike_shifted {B : List UInt8} (C : List UInt8) (hp : p ≤ B.length) :
    FetchAlike (Shifted B C p) := by
  rintro α L ⟨X, q⟩ ⟨X', q'⟩ ⟨hX, hX', hle, hq⟩
  obtain rfl : X = B := hX
  obtain rfl : X' = insertAt X C p := hX'
  obtain rfl : q' = q + C.length := hq
  have hslice := slice_insertAt_right (n := L.size) C hp hle
  dsimp only at hslice
  have hget : L.get (insertAt X C p) (q + C.length) = L.get X q := by
    rw [Layout.get, Layout.get, hslice]
  rw [fetch_file, fetch_file, hget, hslice]
  exact ⟨rfl, rfl, rfl, hle.trans (Nat.le_add_right _ _), Nat.add_right_comm _ _ _⟩

theorem tagAt_behind (C : List UInt8) {B : List UInt8} {o : ℕ} {tag : RiffTag}
    (hp : p ≤ B.length) (ho : p ≤ o) (htag : tagAt native B o = some tag) :
    tagAt native (insertAt B C p) (o + C.length) = some tag := by
  have hle := tagAt_le htag
  rw [tagAt, if_pos hle] at htag
  rw [tagAt, if_pos (by rw [length_insertAt]; omega), slice_insertAt_right C hp ho,
    Nat.add_right_comm, slice_insertAt_right C hp (by omega)]
  exact htag

/-- **The passes behind** the inserted chunk. -/
theorem steps_behind {B' : Content} {C : List UInt8} (hB' : B'.bytes = insertAt B.bytes C p)
    (hp : p ≤ B.bytes.length) (heven : C.length % 2 = 0) (hlt : B'.bytes.length < 2 ^ 32)
    (hsplit : splitsAt native B.bytes k p) {info₀ : WavIfstreamInfo}
    (hk : steps (loopStep (pass native)) k
      (WavIfstreamInfo.default native, (⟨B.bytes, 12⟩ : File)) = some (info₀, ⟨B.bytes, p⟩)) :
    ∀ (i : ℕ) (info : WavIfstreamInfo) (o : ℕ), o ≤ B.bytes.length →
      steps (loopStep (pass native)) (k + i)
        (WavIfstreamInfo.default native, (⟨B.bytes, 12⟩ : File)) = some (info, ⟨B.bytes, o⟩) →
      p ≤ o ∧ steps (loopStep (pass native)) i (info₀, (⟨B'.bytes, p + C.length⟩ : File)) =
        some (info, ⟨B'.bytes, o + C.length⟩)
  | 0, info, o, _, h => by
    rw [Nat.add_zero, hk] at h
    cases h
    exact ⟨le_rfl, rfl⟩
  | i + 1, info', o', hin, h => by
    refine ⟨hsplit.behind _ (Nat.le_add_right _ _) o' (steps_chunkOffset h).1, ?_⟩
    obtain ⟨⟨info, ⟨bytes, o⟩⟩, hs, hstep⟩ := steps_succ_inv h
    obtain ⟨-, hB⟩ := steps_chunkOffset hs
    obtain rfl : bytes = B.bytes := hB
    obtain ⟨tag, f, htag, hlen, hx, hf⟩ := pass_again hstep
    cases hf
    have hle := tagAt_le htag
    obtain ⟨ho, hs'⟩ := steps_behind hB' hp heven hlt hsplit hk i info o (by omega) hs
    have htag' : tagAt native B'.bytes (o + C.length) = some tag := by
      rw [hB']
      exact tagAt_behind C hp ho htag
    have hshift : Shifted B.bytes C p ⟨B.bytes, o + 8⟩ ⟨B'.bytes, o + C.length + 8⟩ :=
      ⟨rfl, hB', by dsimp only; omega, Nat.add_right_comm _ _ _⟩
    have hsim := readChunk_sim native (fetchAlike_shifted C hp) tag info _ _ hshift
    rw [hx] at hsim
    obtain ⟨⟨_, f'⟩, hx', rfl, -⟩ := hsim.ok_left
    have hnext := pass_of_again htag' hlen hx'
    rw [hB', length_insertAt] at hlt
    rw [nextOffset_add heven (by omega)] at hnext
    exact steps_succ hs' hnext

/-! ## The reader -/

/-- The chunks on the walk have headers in the file, up to the `data` chunk. -/
theorem le_of_chunkOffset {n o : ℕ} (hn : chunkOffset native B.bytes n = some o)
    (ho : o + 8 ≤ B.bytes.length) (hkn : k ≤ n) (hk : chunkOffset native B.bytes k = some p) :
    p + 8 ≤ B.bytes.length := by
  rcases Nat.lt_or_eq_of_le hkn with hlt | rfl
  · cases hnext : chunkOffset native B.bytes (k + 1) with
    | none =>
      rw [chunkOffset, walk_none hnext hlt] at hn
      cases hn
    | some o' =>
      rw [chunkOffset, walk_succ hk] at hnext
      obtain ⟨tag, htag, -⟩ := chunkNext_some hnext
      exact tagAt_le htag
  · obtain rfl : o = p := Option.some.inj (hn.symm.trans hk)
    exact ho

/-- The RIFF and WAVE tags are before the first chunk. -/
theorem le_of_splitsAt (hsplit : splitsAt native B.bytes k p)
    (hk : chunkOffset native B.bytes k = some p) : 12 ≤ p := by
  cases k with
  | zero => cases hk; exact le_rfl
  | succ k =>
    cases hnext : chunkOffset native B.bytes 1 with
    | none =>
      rw [chunkOffset, walk_none hnext (show 1 ≤ k + 1 by omega)] at hk
      cases hk
    | some o' =>
      obtain ⟨tag, htag, -⟩ := chunkNext_some ((walk_succ (by rfl)).symm.trans hnext)
      have hend := (hsplit.before 0 (by omega) 12 tag rfl htag).1
      omega

theorem isWave_insertAt (C : List UInt8) (hp : p ≤ B.bytes.length) (h12 : 12 ≤ p)
    (hw : isWave native B.bytes) : isWave native (insertAt B.bytes C p) := by
  obtain ⟨hlen, hriff, hwave⟩ := hw
  refine ⟨by rw [length_insertAt]; omega, ?_, ?_⟩
  · rw [slice_insertAt_left C hp (by omega)]
    exact hriff
  · rw [slice_insertAt_left C hp (by omega)]
    exact hwave

/-- **The reader** over the file with the inserted chunk. -/
theorem readWavHeader_insertAt {B' : Content}
    (hB' : B'.bytes = insertAt B.bytes (c.bytes native) p) (hlt : B'.bytes.length < 2 ^ 32)
    (hid : c.id ∉ knownIds) (hk : chunkOffset native B.bytes k = some p)
    (hsplit : splitsAt native B.bytes k p) {fuel : ℕ} {info : WavIfstreamInfo} {f : File}
    (h : readWavHeader native fuel (⟨B.bytes, 0⟩ : File) = some (.ok (info, f))) :
    p ≤ B.bytes.length ∧ p ≤ f.pos ∧
      (c.payload = [] → ∃ fuel e,
        readWavHeader native fuel (⟨B'.bytes, 0⟩ : File) = some (.error e)) ∧
      (c.payload ≠ [] → ∃ fuel, readWavHeader native fuel (⟨B'.bytes, 0⟩ : File) =
        some (.ok (info, ⟨B'.bytes, f.pos + (c.bytes native).length⟩))) := by
  obtain ⟨hw, n, o, tag, info₁, hs, htag, hd, hlen, hdata, rfl⟩ := accepted_steps h
  have hn := (steps_chunkOffset hs).1
  have ho := tagAt_le htag
  have hkn : k ≤ n := by
    by_contra hlt
    have hend := chunkOffset_data ⟨o, tag, hn, htag, hd, hlen⟩
    rw [chunkOffset, walk_none hend (by omega)] at hk
    cases hk
  have hp : p ≤ B.bytes.length := by
    have := le_of_chunkOffset hn ho hkn hk
    omega
  have hw' : isWave native B'.bytes := by
    rw [hB']
    exact isWave_insertAt _ hp (le_of_splitsAt hsplit hk) hw
  have heven : (c.bytes native).length % 2 = 0 := by
    rw [c.length_bytes]
    omega
  obtain ⟨info₀, hsk⟩ := steps_of_chunkOffset hk
  have hbefore := steps_before (c.bytes native) hB' hp hsplit k info₀ p le_rfl hsk
  obtain ⟨hnil, hne⟩ := pass_inserted hB' hp (chunkOffset_even hk) hlt hid info₀
  obtain ⟨i, rfl⟩ := Nat.exists_eq_add_of_le hkn
  obtain ⟨hpo, hbehind⟩ := steps_behind hB' hp heven hlt hsplit hsk i info₁ o (by omega) hs
  refine ⟨hp, hpo.trans (Nat.le_add_right _ _), fun h => ?_, fun h => ?_⟩
  · obtain ⟨fuel, hfuel⟩ := returns_iff.1 ((Returns.done (hnil h)).of_steps hbefore)
    exact ⟨fuel, _, by rw [readWavHeader_isWave hw', hfuel]⟩
  · have htag' : tagAt native B'.bytes (o + (c.bytes native).length) = some tag := by
      rw [hB']
      exact tagAt_behind _ hp hpo htag
    have hdone : loopStep (pass native)
        (info₁, (⟨B'.bytes, o + (c.bytes native).length⟩ : File)) =
        .done (.ok (info, ⟨B'.bytes, o + (c.bytes native).length + 8⟩)) := by
      simp only [loopStep, pass_file, htag', if_neg hlen, readChunk_data hd, hdata, Except.map]
    have hreturns := Returns.again (hne h) ((Returns.done hdone).of_steps hbehind)
    obtain ⟨fuel, hfuel⟩ := returns_iff.1 (hreturns.of_steps hbefore)
    refine ⟨fuel, ?_⟩
    rw [readWavHeader_isWave hw', hfuel, Nat.add_right_comm]

/-- **Ordinary files.**  If no header leads back, and the loops fit into their
    chunks, then every chunk on the walk splits it. -/
theorem splitsAt_of_not_wraps {B : List UInt8}
    (hfit : ∀ n o tag, chunkOffset native B n = some o → tagAt native B o = some tag →
      fits native (slice B (o + 8) tag.length) tag.id)
    (hno : ∀ n o o', chunkOffset native B n = some o → chunkNext native B o = some o' →
      ¬ wraps native B o)
    (hk : chunkOffset native B k = some p) : splitsAt native B k p := by
  have hmono : ∀ (d i o o' : ℕ), chunkOffset native B i = some o →
      chunkOffset native B (i + d) = some o' → o ≤ o' := by
    intro d
    induction d with
    | zero =>
      intro i o o' hi hd
      exact (Option.some.inj (hi.symm.trans hd)).le
    | succ d ih =>
      intro i o o' hi hd
      obtain ⟨o₁, h₁, hnext⟩ := Option.bind_eq_some_iff.1 hd
      exact (ih i o o₁ hi h₁).trans (lt_chunkNext hnext (hno _ _ _ h₁ hnext)).le
  refine ⟨fun i hi o tag ho htag => ?_, fun i hi o ho => ?_⟩
  · obtain ⟨d, rfl⟩ := Nat.exists_eq_add_of_le (show i + 1 ≤ k from hi)
    cases hnext : chunkOffset native B (i + 1) with
    | none =>
      rw [chunkOffset, walk_none hnext (Nat.le_add_right _ _)] at hk
      cases hk
    | some o' =>
      have hle := hmono d (i + 1) o' p hnext hk
      rw [chunkOffset, walk_succ ho] at hnext
      have hwrap := hno i o o' ho hnext
      obtain ⟨tag', htag', rfl⟩ := chunkNext_some hnext
      rw [htag] at htag'
      cases htag'
      have hlt : o + 8 + tag.length + 1 < 2 ^ 32 := by
        by_contra hge
        exact hwrap ⟨tag, htag, by omega⟩
      rw [nextOffset_eq] at hle
      refine ⟨by omega, fun hid h36 c hc => ?_⟩
      have hsize : (SampleChunk.layout native).size = 36 := rfl
      have hin := (Layout.get_eq_some hc).1
      have hlen := length_slice_min B (o + 8) tag.length
      have hself : slice B (o + 8) (slice B (o + 8) tag.length).length =
          slice B (o + 8) tag.length := by
        rw [slice, slice, List.length_take, List.take_eq_take_iff, List.length_drop]
        omega
      have hget := get_of_window (k := 0) hself (L := SampleChunk.layout native) (by omega)
      rw [Nat.add_zero, hc] at hget
      have hloops := hfit i o tag ho htag hid (by omega) c hget.symm
      omega
  · obtain ⟨d, rfl⟩ := Nat.exists_eq_add_of_le hi
    exact hmono d k p o hk ho

end

/-! ## The source -/

/-- The bytes of a view. -/
def audio {δ : Type} (B : List UInt8) (v : Subview δ) : List UInt8 :=
  slice B v.beg.toNat (v.end_ - v.beg).toNat

/-- `t`, on the bytes `B'`, has the info and the audio of `s`, on the bytes `B`,
    `n` bytes further on. -/
structure Moved {δ : Type} (B B' : List UInt8) (n : ℕ) (s t : WavSource δ) : Prop where
  info : t.info = s.info
  beg : t.view.beg = s.view.beg + n
  end_ : t.view.end_ = s.view.end_ + n
  audio : audio B' t.view = audio B s.view

/-- The device with the bytes `B'` is accepted, with the info and the audio of
    `s`, `n` bytes further on. -/
def opensMoved {δ : Type} [Source δ] (native : EndianType) (B B' : List UInt8) (n : ℕ)
    (s : WavSource δ) (d' : δ) : Prop :=
  ∃ fuel t, WavSource.construct native fuel d' = some (.ok t) ∧ Moved B B' n s t

theorem opensMoved_iff {δ : Type} [ExactSource δ] {d d' : δ} {B B' : Content} {c : Chunk}
    {k p : ℕ} (hd : ByteSource.At B 0 d) (hd' : ByteSource.At B' 0 d')
    (hB' : B'.bytes = insertAt B.bytes (c.bytes native) p) (hlt : B'.bytes.length < 2 ^ 32)
    (hid : c.id ∉ knownIds) (hk : chunkOffset native B.bytes k = some p)
    (hsplit : splitsAt native B.bytes k p) {fuel : ℕ} {s : WavSource δ}
    (h : WavSource.construct native fuel d = some (.ok s)) :
    opensMoved native B.bytes B'.bytes (c.bytes native).length s d' ↔ c.payload ≠ [] := by
  obtain ⟨f, hfile, hsized, hframes⟩ := construct_of_file hd h
  obtain ⟨hp, hpf, hnil, hne⟩ := readWavHeader_insertAt hB' hlt hid hk hsplit hfile
  constructor
  · rintro ⟨fuel', t, ht, -⟩ hpayload
    obtain ⟨m, e, hm⟩ := hnil hpayload
    obtain ⟨f', hfile', -, -⟩ := construct_of_file hd' ht
    have h1 := readWavHeader_mono native (⟨B'.bytes, 0⟩ : File) fuel' m _ hfile'
    have h2 := readWavHeader_mono native (⟨B'.bytes, 0⟩ : File) m fuel' _ hm
    rw [Nat.add_comm m fuel', h1] at h2
    cases h2
  · intro hpayload
    obtain ⟨m, hm⟩ := hne hpayload
    have hrel : Rel B' (WavSource.unread native d') ⟨B'.bytes, 0⟩ :=
      ⟨rfl, at_wavSource native B' hd'⟩
    have hsim := readWavHeader_sim native m hrel
    rw [hm] at hsim
    obtain ⟨x, hx, hinfo⟩ := HeaderSource.construct_map hsim
    cases x with
    | error e => cases hinfo
    | ok t =>
      have hinfo : t.info = s.info := Except.ok.inj hinfo
      obtain ⟨f', hfile', -, hframes'⟩ := construct_of_file hd' hx
      rw [hm] at hfile'
      obtain ⟨-, rfl⟩ := Prod.mk.inj (Except.ok.inj (Option.some.inj hfile'))
      have hview := hframes.view
      have hview' := hframes'.view
      have hlen : t.info.numBytes = s.info.numBytes := by rw [hinfo]
      refine ⟨m, t, hx, hinfo, ?_, ?_, ?_⟩
      · rw [hview.beg_eq, hview'.beg_eq]
        push_cast
        rfl
      · rw [hview.end_eq, hview'.end_eq, hlen]
        push_cast
        omega
      · have hsub : ∀ a n : ℕ, (((a + n : ℕ) : ℤ) - (a : ℕ)).toNat = n := fun a n => by omega
        rw [audio, audio, hview.beg_eq, hview'.beg_eq, hview.end_eq, hview'.end_eq, hlen, hsub,
          hsub, Int.toNat_natCast, Int.toNat_natCast, hB']
        exact slice_insertAt_right _ hp hpf

end

/-- **Unknown chunks.**  On every byte string, served by a file or a container,
    that `wav_source` accepts: a chunk with an unknown id, inserted at an offset
    that splits the walk, leaves the info and the audio as they are, and moves the
    view by the inserted bytes, iff its payload is not empty. -/
theorem insertChunk_iff (native : EndianType) (B : Content) {c : Chunk} (hid : c.id ∉ knownIds)
    {k p : ℕ} (hk : chunkOffset native B.bytes k = some p) (hsplit : splitsAt native B.bytes k p)
    (hlt : (insertAt B.bytes (c.bytes native) p).length < 2 ^ 32) (fuel : ℕ) :
    (∀ s, WavSource.construct native fuel (File.opened B.bytes) = some (.ok s) →
      (opensMoved native B.bytes (insertAt B.bytes (c.bytes native) p) (c.bytes native).length s
        (File.opened (insertAt B.bytes (c.bytes native) p)) ↔ c.payload ≠ [])) ∧
    ∀ s, WavSource.construct native fuel (Container.mk' B.bytes) = some (.ok s) →
      (opensMoved native B.bytes (insertAt B.bytes (c.bytes native) p) (c.bytes native).length s
        (Container.mk' (insertAt B.bytes (c.bytes native) p)) ↔ c.payload ≠ []) := by
  have hfits : (insertAt B.bytes (c.bytes native) p).length + 1 < 2 ^ 63 := by omega
  refine ⟨fun s h => ?_, fun s h => ?_⟩
  · exact opensMoved_iff (at_opened B) (at_opened ⟨_, hfits⟩) rfl hlt hid hk
      hsplit h
  · exact opensMoved_iff (at_container B) (at_container ⟨_, hfits⟩) rfl hlt hid
      hk hsplit h

/-- Two frames of 8 bit mono, behind a `fmt ` chunk. -/
def twoChunksWav : List UInt8 :=
  [0x52, 0x49, 0x46, 0x46, 0x26, 0, 0, 0, 0x57, 0x41, 0x56, 0x45,
   0x66, 0x6D, 0x74, 0x20, 16, 0, 0, 0, 1, 0, 1, 0, 0x44, 0xAC, 0, 0, 0x44, 0xAC, 0, 0, 1, 0, 8, 0,
   0x64, 0x61, 0x74, 0x61, 2, 0, 0, 0, 1, 2]

/-- A `LIST` chunk. -/
def listChunk (payload pad : List UInt8) (h : pad.length = payload.length % 2) : Chunk where
  id := littleEndianFourcc 'L' 'I' 'S' 'T'
  payload := payload
  pad := pad
  id_lt := by decide
  length_pad := h

theorem twoChunksWav_source :
    ∃ s, WavSource.construct .littleEndian 3 (File.opened twoChunksWav) = some (.ok s) ∧
      s.view.beg = 44 :=
  exists_ok_of_map (by decide)

theorem twoChunksWav_splitsAt : splitsAt .littleEndian twoChunksWav 1 36 := by
  constructor
  · intro i hi o tag ho htag
    obtain rfl : i = 0 := by omega
    obtain rfl : 12 = o := Option.some.inj ho
    have hfmt : tagAt .littleEndian twoChunksWav 12 = some ⟨fmt, 16⟩ := by decide
    rw [hfmt] at htag
    cases htag
    exact ⟨by decide, fun hid => absurd hid (by decide)⟩
  · intro i hi o ho
    have hstop : chunkOffset .littleEndian twoChunksWav 2 = none := by decide
    rcases Nat.lt_or_eq_of_le hi with hlt | rfl
    · rw [chunkOffset, walk_none hstop hlt] at ho
      cases ho
    · have h36 : chunkOffset .littleEndian twoChunksWav 1 = some 36 := by decide
      rw [h36] at ho
      exact (Option.some.inj ho).le

/-- With an empty chunk between its chunks, the file is rejected. -/
theorem twoChunksWav_not_moved :
    ¬ ∀ s, WavSource.construct .littleEndian 3 (File.opened twoChunksWav) = some (.ok s) →
      opensMoved .littleEndian twoChunksWav
        (insertAt twoChunksWav ((listChunk [] [] rfl).bytes .littleEndian) 36)
        ((listChunk [] [] rfl).bytes .littleEndian).length s
        (File.opened (insertAt twoChunksWav ((listChunk [] [] rfl).bytes .littleEndian) 36)) := by
  intro h
  obtain ⟨s, hs, -⟩ := twoChunksWav_source
  have hB : twoChunksWav.length + 1 < 2 ^ 63 := by decide
  have hB' : (insertAt twoChunksWav ((listChunk [] [] rfl).bytes .littleEndian) 36).length + 1 <
      2 ^ 63 := by decide
  have hlt : (insertAt twoChunksWav ((listChunk [] [] rfl).bytes .littleEndian) 36).length <
      2 ^ 32 := by decide
  have hk : chunkOffset .littleEndian twoChunksWav 1 = some 36 := by decide
  exact (opensMoved_iff (at_opened ⟨_, hB⟩) (at_opened ⟨_, hB'⟩) rfl hlt (by decide) hk
    twoChunksWav_splitsAt hs).1 (h s hs) rfl

/-- A chunk of one byte, between its chunks. -/
theorem insertChunk_iff_twoChunks :
    ∃ s, WavSource.construct .littleEndian 3 (File.opened twoChunksWav) = some (.ok s) ∧
      (opensMoved .littleEndian twoChunksWav
        (insertAt twoChunksWav ((listChunk [7] [0] rfl).bytes .littleEndian) 36)
        ((listChunk [7] [0] rfl).bytes .littleEndian).length s
        (File.opened (insertAt twoChunksWav ((listChunk [7] [0] rfl).bytes .littleEndian) 36)) ↔
        (listChunk [7] [0] rfl).payload ≠ []) := by
  obtain ⟨s, hs, -⟩ := twoChunksWav_source
  exact ⟨s, hs, (insertChunk_iff .littleEndian ⟨twoChunksWav, by decide⟩ (by decide)
    (show chunkOffset .littleEndian twoChunksWav 1 = some 36 by decide) twoChunksWav_splitsAt
    (by decide) 3).1 s hs⟩

end NiMedia.Wav
