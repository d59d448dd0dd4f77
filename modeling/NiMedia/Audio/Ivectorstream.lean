/-
  Streams out of a vector (`audio/ivectorstream.cpp`, `istream.cpp`): range
  extraction and the end of the get area.

  The buffer of the stream takes blocks out of a container.  What it takes at
  once, and which seeks keep its get area, is up to the buffer: it takes `n`
  characters, where `n` depends on the size that it was made for, and a seek
  from the current position may stay in the get area and in the four characters
  that were put back.

  * `Step`: range reads and seeks by whole samples.
  * `neverPast_iff`: in any run, the assertion in the loop of
    `operator>>( Range&& )` holds, and the conversion stays in the get area, iff
    the vector holds whole samples, and so does a block, or the vector fits in
    one.
-/
import NiMedia.Audio.Istream
import NiMedia.Iostreams.Refill
import Mathlib.Logic.Relation

namespace NiMedia

open Bytes Words StreamBuffer

/-- `bytes_per_buffer` of `make_stream_buffer`. -/
def StreamInfo.bytesPerBuffer (info : StreamInfo) (framesPerBuffer : ℕ) : ℕ :=
  sizeT (framesPerBuffer * info.bytesPerFrame)

/-- `istream::seekg`, `sample_seekg` and `frame_seekg`; the ones without a
    direction seek from the beginning. -/
inductive SeekCall where
  | seekg (off : ℤ) (way : SeekDir)
  | sampleSeekg (off : ℤ) (way : SeekDir)
  | frameSeekg (off : ℤ) (way : SeekDir)

namespace SeekCall

/-- The offset in bytes. -/
def offset (info : StreamInfo) : SeekCall → ℤ
  | seekg off _ => off
  | sampleSeekg off _ => wrap 64 (off * info.bytesPerSample)
  | frameSeekg off _ => wrap 64 (off * info.bytesPerFrame)

def way : SeekCall → SeekDir
  | seekg _ way | sampleSeekg _ way | frameSeekg _ way => way

/-- Sample-aligned seeks: by whole samples, and no more bytes than an offset
    holds. -/
structure Aligned (info : StreamInfo) (call : SeekCall) : Prop where
  dvd : (info.bytesPerSample : ℤ) ∣ call.offset info
  low : -2 ^ 63 ≤ call.offset info
  high : call.offset info < 2 ^ 63

end SeekCall

/-! ## Passes -/

namespace Istream

section
variable (h : Host) (order : EvaluationOrder) (V : ArithType)

/-- The states before the passes of the loop of `operator>>( Range&& )`. -/
def EntersPass (fuel : ℕ) (s : Istream) (rng : List V.Val) (st : RangeState V) : Prop :=
  ¬ (s.failbit = true ∨ rng.length = 0) ∧
    ∃ c sb, s.buf.underflow = (some c, sb) ∧
      ∃ k, Loop.steps (rangePass h order V s.info fuel) k (rng, 0, sb) = some st

/-- The assertion in the loop: the get area holds whole samples. -/
def WholeSamples (info : StreamInfo) (sb : StreamBuffer) : Prop :=
  (sb.area.length - sb.gptr) % info.bytesPerSample = 0

/-- The conversion of a pass stops, and no later than at the end of the get area:
    where its source iterator comes to. -/
def StopsWithin (info : StreamInfo) (fuel : ℕ) : RangeState V → Prop
  | (rng, out, sb) => ∃ first second m,
      dispatch order (copyImpl h)
          [.iter (pcmIter V info.format sb.gptr), .iter (pcmIter V info.format sb.area.length),
            .iter (outIter V out), .iter (outIter V rng.length)] fuel
          (rangeMemory V sb.area rng) = some (.ok [.iter first, .iter second], m) ∧
        first.off ≤ sb.area.length

end

section
variable (h : Host) (order : EvaluationOrder) {V : ArithType} {info : StreamInfo} {s : Istream}
  {rng rng' : List V.Val} {out fuel N L : ℕ} {sb : StreamBuffer} {bs : List (List UInt8)}

/-- The part of a get area of whole samples that a pass converts. -/
theorem passCount_mul_le (hdvd : info.bytesPerSample ∣ sb.area.length - sb.gptr) (r : ℕ) :
    passCount info.bytesPerSample (sb.area.length - sb.gptr) r * info.bytesPerSample ≤
      sb.area.length - sb.gptr := by
  rw [passCount, if_pos hdvd]
  exact (Nat.mul_le_mul_right _ (min_le_left _ _)).trans (Nat.div_mul_le_self _ _)

/-- With the assertion, the conversion stays in the get area. -/
theorem stopsWithin_of_dvd (hdvd : info.bytesPerSample ∣ sb.area.length - sb.gptr)
    (hout : out ≤ rng.length) (hf : rng.length < fuel) :
    StopsWithin h order V info fuel (rng, out, sb) := by
  have hold : (rng.drop out).length < fuel := by
    rw [List.length_drop]
    omega
  have hcopy := rangePass_copy h order info (rng.take out) (rng.drop out) sb rfl hold
  rw [List.take_append_drop, List.length_take, Nat.min_eq_left hout] at hcopy
  have hle := passCount_mul_le hdvd (rng.drop out).length
  have hgptr := sb.gptr_le
  refine ⟨_, _, _, hcopy, ?_⟩
  have hoff : ((pcmIter V info.format sb.gptr).advance
      (passCount info.bytesPerSample (sb.area.length - sb.gptr) (rng.drop out).length)).off =
      (sb.gptr : ℤ) + passCount info.bytesPerSample (sb.area.length - sb.gptr)
        (rng.drop out).length * info.bytesPerSample := rfl
  rw [hoff]
  have hsum : sb.gptr + passCount info.bytesPerSample (sb.area.length - sb.gptr)
      (rng.drop out).length * info.bytesPerSample ≤ sb.area.length := by omega
  exact_mod_cast hsum

/-- What the passes of a loop that fills `m` values keep to. -/
structure Keeps (w N L m : ℕ) (bs : List (List UInt8)) (st : RangeState V) : Prop where
  length : st.1.length = m
  out_le : st.2.1 ≤ m
  fits : Fits w N L bs st.2.2

/-- **A pass** keeps to it. -/
theorem Keeps.rangePass {st : RangeState V} {m : ℕ}
    (hst : Keeps info.bytesPerSample N L m bs st)
    (hbs : ∀ b ∈ bs, info.bytesPerSample ∣ b.length ∧ b.length ≤ N) (hN : N < 2 ^ 31)
    (hf : m < fuel) :
    (∃ st', Istream.rangePass h order V info fuel st = .again st' ∧
        Keeps info.bytesPerSample N L m bs st') ∨
      ∃ st', Istream.rangePass h order V info fuel st = .done (some st') ∧
        Keeps info.bytesPerSample N L m bs st' := by
  obtain ⟨rng, out, sb⟩ := st
  obtain ⟨rfl, hout, hfits⟩ := hst
  dsimp only at hout hfits hf
  obtain ⟨k, hk⟩ : ∃ k, k = passCount info.bytesPerSample (sb.area.length - sb.gptr)
      (rng.drop out).length := ⟨_, rfl⟩
  have hlength := hfits.length
  have hle : k * info.bytesPerSample ≤ sb.area.length - sb.gptr := by
    rw [hk]
    exact passCount_mul_le hfits.left _
  have hkr : k ≤ (rng.drop out).length := hk ▸ passCount_le _ _ _
  have hdrop : (rng.drop out).length = rng.length - out := List.length_drop
  have hpass := rangePass_eq h order info (rng.take out) (rng.drop out) sb hk
    (show (rng.drop out).length < fuel by omega)
  rw [List.take_append_drop, List.length_take, Nat.min_eq_left hout,
    (wrap_natCast 31 _).2.2 (show k * info.bytesPerSample < 2 ^ 31 by omega)] at hpass
  obtain ⟨sb₁, hgbump, -⟩ := gbump_spec hle
  have hfits₁ := hfits.gbump (Nat.dvd_mul_left _ _) hgbump
  have hlen : (rng.take out ++ (samples h V info.format sb.area sb.gptr k ++
      (rng.drop out).drop k)).length = rng.length := by
    simp only [List.length_append, List.length_take, length_samples, List.length_drop]
    omega
  rw [hgbump] at hpass
  rw [hpass, rangeNext]
  split_ifs with hfull
  · exact .inr ⟨_, rfl, hlen, by dsimp only; omega, hfits₁⟩
  · have hfits₂ := hfits₁.underflow hbs
    rcases hunder : sb₁.underflow with ⟨_ | c, sb₂⟩
    · rw [hunder] at hfits₂
      exact .inr ⟨_, rfl, hlen, by dsimp only; omega, hfits₂⟩
    · rw [hunder] at hfits₂
      exact .inl ⟨_, rfl, hlen, by dsimp only; omega, hfits₂⟩

theorem Keeps.again {st st' : RangeState V} {m : ℕ}
    (hst : Keeps info.bytesPerSample N L m bs st)
    (hbs : ∀ b ∈ bs, info.bytesPerSample ∣ b.length ∧ b.length ≤ N) (hN : N < 2 ^ 31)
    (hf : m < fuel) (hpass : Istream.rangePass h order V info fuel st = .again st') :
    Keeps info.bytesPerSample N L m bs st' := by
  rcases hst.rangePass h order hbs hN hf with ⟨st'', hagain, hst''⟩ | ⟨st'', hdone, -⟩
  · rw [hpass] at hagain
    cases hagain
    exact hst''
  · rw [hpass] at hdone
    cases hdone

theorem Keeps.done {st st' : RangeState V} {m : ℕ}
    (hst : Keeps info.bytesPerSample N L m bs st)
    (hbs : ∀ b ∈ bs, info.bytesPerSample ∣ b.length ∧ b.length ≤ N) (hN : N < 2 ^ 31)
    (hf : m < fuel) (hpass : Istream.rangePass h order V info fuel st = .done (some st')) :
    Keeps info.bytesPerSample N L m bs st' := by
  rcases hst.rangePass h order hbs hN hf with ⟨st'', hagain, -⟩ | ⟨st'', hdone, hst''⟩
  · rw [hpass] at hagain
    cases hagain
  · rw [hpass] at hdone
    cases hdone
    exact hst''

/-- **Every pass** keeps to it, out of blocks of whole samples. -/
theorem EntersPass.keeps (hbs : ∀ b ∈ bs, s.info.bytesPerSample ∣ b.length ∧ b.length ≤ N)
    (hN : N < 2 ^ 31) (hfits : Fits s.info.bytesPerSample N L bs s.buf) (hf : rng.length < fuel)
    {st : RangeState V} (hst : EntersPass h order V fuel s rng st) :
    Keeps s.info.bytesPerSample N L rng.length bs st := by
  obtain ⟨-, c, sb, hunder, k, hsteps⟩ := hst
  have hfits' := hfits.underflow hbs
  rw [hunder] at hfits'
  refine Loop.steps_inv (Keeps s.info.bytesPerSample N L rng.length bs) ?_ hsteps
    ⟨rfl, Nat.zero_le _, hfits'⟩
  intro st st' hst hpass
  exact hst.again h order hbs hN hf hpass

/-- So does the stream behind the range. -/
theorem extractRange_fits (hbs : ∀ b ∈ bs, s.info.bytesPerSample ∣ b.length ∧ b.length ≤ N)
    (hN : N < 2 ^ 31) (hfits : Fits s.info.bytesPerSample N L bs s.buf) (hf : rng.length < fuel)
    {s' : Istream} (hext : s.extractRange h order V fuel rng = some (rng', s')) :
    Fits s.info.bytesPerSample N L bs s'.buf ∧ s'.info = s.info := by
  have hfits' := hfits.underflow hbs
  unfold extractRange at hext
  split at hext
  · cases hext
    exact ⟨hfits, rfl⟩
  · split at hext
    · rename_i sb hunder
      rw [hunder] at hfits'
      cases hext
      exact ⟨hfits', rfl⟩
    · rename_i c sb hunder
      rw [hunder] at hfits'
      split at hext
      · rename_i rng₁ out sb' hloop
        have hsb' : Fits s.info.bytesPerSample N L bs sb' := by
          refine (Loop.Returns.of_iterate _ hloop).inv
            (Keeps s.info.bytesPerSample N L rng.length bs)
            (fun r => ∀ st, r = some st → Fits s.info.bytesPerSample N L bs st.2.2) ?_ ?_
            ⟨rfl, Nat.zero_le _, hfits'⟩ _ rfl
          · intro st st' hst hpass
            exact hst.again h order hbs hN hf hpass
          · rintro st r hst hpass st' rfl
            exact (hst.done h order hbs hN hf hpass).fits
        split_ifs at hext
        · cases hext
          exact ⟨hsb', rfl⟩
        · cases hext
          exact ⟨hsb', rfl⟩
      · cases hext

end

end Istream

/-! ## The stream -/

/-- `audio::ivectorstream`: the device, and the stream with its buffer. -/
structure Ivectorstream where
  source : Container
  stream : Istream

namespace Ivectorstream

section
variable (h : Host) (order : EvaluationOrder) (n : ℕ)

/-- A buffer that has no get area. -/
def fresh (c : Container) : StreamBuffer := setg [] (c.refills n)

/-- `ivectorstream( vec, info )`, with a buffer that takes `n` characters at
    once. -/
def opened (vec : List UInt8) (info : StreamInfo) : Ivectorstream :=
  ⟨.mk' vec, ⟨fresh n (.mk' vec), info, false, false⟩⟩

/-- How many characters of the get area are to come. -/
def left (s : Ivectorstream) : ℕ := s.stream.buf.area.length - s.stream.buf.gptr

/-- The position in the vector. -/
def tell (s : Ivectorstream) : ℤ := s.source.pos - s.left

/-- `operator>>( Range&& )`; the device stands behind the blocks that the buffer
    has taken. -/
def extractRange {V : ArithType} (fuel : ℕ) (s : Ivectorstream) (rng : List V.Val) :
    Option (List V.Val × Ivectorstream) :=
  (s.stream.extractRange h order V fuel rng).map fun r =>
    (r.1, ⟨s.source.reads n (s.stream.buf.blocks.length - r.2.buf.blocks.length), r.2⟩)

/-- A seek that drops the get area; the device is ahead by what is left of it. -/
def reposition (off : ℤ) (way : SeekDir) (s : Ivectorstream) : Ivectorstream :=
  let off := match way with
    | .cur => off - s.left
    | _ => off
  let source := (s.source.seek off way).2
  ⟨source, { s.stream with buf := fresh n source, eofbit := false }⟩

/-- A get area that is kept by a seek to `q`: it has the characters from there to
    the position of the device, behind some that were read before. -/
structure KeepsArea (s : Ivectorstream) (q : ℕ) (sb : StreamBuffer) : Prop where
  le_pos : q ≤ s.source.pos
  blocks : sb.blocks = s.stream.buf.blocks
  area : sb.area.drop sb.gptr = slice s.source.container q (s.source.pos - q)
  length : sb.area.length ≤ n + 4

/-- Range reads, and seeks by whole samples. -/
inductive Step (s : Ivectorstream) : Ivectorstream → Prop
  | extract {V : ArithType} {rng rng' : List V.Val} {fuel : ℕ} {s' : Ivectorstream}
    (hf : rng.length < fuel) (hext : s.extractRange h order n fuel rng = some (rng', s')) :
    Step s s'
  | failed (hfail : s.stream.failbit = true) :
    Step s { s with stream := { s.stream with eofbit := false } }
  | seek {call : SeekCall} (hcall : call.Aligned s.stream.info) (hfail : s.stream.failbit = false) :
    Step s (s.reposition n (call.offset s.stream.info) call.way)
  | move {call : SeekCall} (hcall : call.Aligned s.stream.info) (hfail : s.stream.failbit = false)
    (hcur : call.way = .cur) {q : ℕ} (hq : (q : ℤ) = s.tell + call.offset s.stream.info)
    {sb : StreamBuffer} (hsb : s.KeepsArea n q sb) :
    Step s ⟨s.source, { s.stream with buf := sb, eofbit := false }⟩

/-- In every run, range extraction stays in the get area: whenever the loop is
    entered, the assertion holds and the conversion stops within. -/
def NeverPast (vec : List UInt8) (info : StreamInfo) : Prop :=
  ∀ s, Relation.ReflTransGen (Step h order n) (opened n vec info) s →
    ∀ (V : ArithType) (rng : List V.Val) (fuel : ℕ), rng.length < fuel →
      ∀ st, Istream.EntersPass h order V fuel s.stream rng st →
        Istream.WholeSamples info st.2.2 ∧ Istream.StopsWithin h order V info fuel st

end

/-! ## Invariant -/

/-- Where refills of `n` characters give whole samples of `w` bytes. -/
def WholeRefills (w n : ℕ) (vec : List UInt8) : Prop :=
  n = 0 ∨ w ∣ vec.length ∧ (w ∣ n ∨ vec.length ≤ n)

/-- What holds in any run. -/
structure Good (n : ℕ) (vec : List UInt8) (info : StreamInfo) (s : Ivectorstream) : Prop where
  container : s.source.container = vec
  sameInfo : s.stream.info = info
  blocks : s.stream.buf.blocks = s.source.refills n
  pos : n = 0 ∨ info.bytesPerSample ∣ s.source.pos
  left : info.bytesPerSample ∣ s.left
  length : s.stream.buf.area.length ≤ n + 4
  rest : s.stream.buf.rest.length ≤ vec.length

section
variable {h : Host} {order : EvaluationOrder} {n w : ℕ} {vec : List UInt8} {info : StreamInfo}
  {s s' : Ivectorstream} {c : Container}

theorem length_flatten_refills_le (n : ℕ) (c : Container) :
    (c.refills n).flatten.length ≤ c.container.length - c.pos := by
  rcases Nat.eq_zero_or_pos n with rfl | hn
  · rw [Container.refills_zero]
    exact Nat.zero_le _
  · exact (Container.length_flatten_refills hn c).le

/-- The blocks of the device hold whole samples. -/
theorem WholeRefills.blocks (hw : WholeRefills w n vec) (hc : c.container = vec)
    (hpos : n = 0 ∨ w ∣ c.pos) : ∀ b ∈ c.refills n, w ∣ b.length ∧ b.length ≤ n + 4 := by
  intro b hb
  have hle := Container.length_le_of_mem_refills c b hb
  refine ⟨?_, by omega⟩
  rcases Nat.eq_zero_or_pos n with rfl | hn
  · rw [Container.refills_zero] at hb
    cases hb
  · obtain ⟨hlength, hblock⟩ := hw.resolve_left hn.ne'
    exact Container.dvd_refills (hpos.resolve_left hn.ne') (by rwa [hc]) (by rwa [hc]) b hb

theorem Good.fits (hs : Good n vec info s) :
    Fits s.stream.info.bytesPerSample (n + 4) vec.length (s.source.refills n) s.stream.buf := by
  refine ⟨?_, hs.length, ?_, hs.rest⟩
  · rw [hs.sameInfo]
    exact hs.left
  · rw [hs.blocks]

theorem Good.refills_spec (hs : Good n vec info s) (hw : WholeRefills info.bytesPerSample n vec) :
    ∀ b ∈ s.source.refills n,
      s.stream.info.bytesPerSample ∣ b.length ∧ b.length ≤ n + 4 := by
  rw [hs.sameInfo]
  exact hw.blocks hs.container hs.pos

/-- A buffer without a get area. -/
theorem good_fresh {stream : Istream} (hc : c.container = vec) (hinfo : stream.info = info)
    (hpos : n = 0 ∨ info.bytesPerSample ∣ c.pos) (hbuf : stream.buf = fresh n c) :
    Good n vec info ⟨c, stream⟩ := by
  have hrest := length_flatten_refills_le n c
  rw [hc] at hrest
  refine ⟨hc, hinfo, by rw [hbuf]; rfl, hpos, ?_, ?_, ?_⟩
  · rw [Ivectorstream.left, hbuf]
    exact dvd_zero _
  · rw [hbuf]
    exact Nat.zero_le _
  · rw [hbuf]
    exact hrest.trans (Nat.sub_le _ _)

theorem good_opened (n : ℕ) (vec : List UInt8) (info : StreamInfo) :
    Good n vec info (opened n vec info) :=
  good_fresh rfl rfl (.inr (dvd_zero _)) rfl

/-- What is left of the get area was read from the vector. -/
theorem Good.left_le (hs : Good n vec info s) (hn : 0 < n) : s.left ≤ s.source.pos := by
  have hrest := hs.rest
  have hle := s.source.pos_le
  have hflatten := Container.length_flatten_refills hn s.source
  rw [StreamBuffer.rest, List.length_append, List.length_drop, hs.blocks, hflatten,
    hs.container] at hrest
  rw [hs.container] at hle
  rw [Ivectorstream.left]
  omega

/-! ## Steps -/

theorem Good.extract (hs : Good n vec info s) (hw : WholeRefills info.bytesPerSample n vec)
    (hn : n + 4 < 2 ^ 31) {V : ArithType} {rng rng' : List V.Val} {fuel : ℕ}
    (hf : rng.length < fuel)
    (hext : s.extractRange h order n fuel rng = some (rng', s')) : Good n vec info s' := by
  have hblocks := hs.refills_spec hw
  obtain ⟨⟨rng₁, stream⟩, hstream, heq⟩ := Option.map_eq_some_iff.1 hext
  cases heq
  obtain ⟨hfits, hinfo⟩ := Istream.extractRange_fits h order hblocks hn hs.fits hf hstream
  have hdrop := List.suffix_iff_eq_drop.1 hfits.blocks
  rw [hs.sameInfo] at hfits hinfo
  refine ⟨?_, hinfo, ?_, ?_, hfits.left, hfits.length, hfits.rest⟩
  · exact (Container.container_reads _ _).trans hs.container
  · dsimp only
    rw [Container.refills_reads, hs.blocks]
    exact hdrop
  · rcases hs.pos with hzero | hpos
    · exact .inl hzero
    · rw [hs.sameInfo] at hblocks
      exact .inr (Container.dvd_reads hpos (fun b hb => (hblocks b hb).1) _)

theorem Good.reposition (hs : Good n vec info s) (hw : WholeRefills info.bytesPerSample n vec)
    (hvec : vec.length < 2 ^ 63) {call : SeekCall} (hcall : call.Aligned info) :
    Good n vec info (s.reposition n (call.offset info) call.way) := by
  refine good_fresh hs.container hs.sameInfo ?_ rfl
  rcases Nat.eq_zero_or_pos n with hzero | hn
  · exact .inl hzero
  obtain ⟨hlength, -⟩ := hw.resolve_left hn.ne'
  have hpos := hs.pos.resolve_left hn.ne'
  have hleft := hs.left_le hn
  have hle := s.source.pos_le
  obtain ⟨hdvd, hlow, hhigh⟩ := hcall
  rw [hs.container] at hle
  right
  generalize hoff : (match call.way with
    | .cur => call.offset info - s.left
    | _ => call.offset info : ℤ) = off
  have hsum : (info.bytesPerSample : ℤ) ∣ seekBase s.source.pos 0 vec.length call.way + off ∧
      -2 ^ 63 ≤ seekBase s.source.pos 0 vec.length call.way + off ∧
      seekBase s.source.pos 0 vec.length call.way + off < 2 ^ 64 := by
    subst hoff
    cases call.way with
    | beg =>
      dsimp only [seekBase]
      refine ⟨by rwa [zero_add], by omega, by omega⟩
    | end_ =>
      dsimp only [seekBase]
      refine ⟨Int.dvd_add (Int.natCast_dvd_natCast.2 hlength) hdvd, by omega, by omega⟩
    | cur =>
      dsimp only [seekBase]
      refine ⟨?_, by omega, by omega⟩
      exact Int.dvd_add (Int.natCast_dvd_natCast.2 hpos)
        (Int.dvd_sub hdvd (Int.natCast_dvd_natCast.2 hs.left))
  have habs := dvd_absolutePosition (Int.natCast_dvd_natCast.2 hlength) hsum.1 hsum.2.1 hsum.2.2
  have hnonneg : 0 ≤ absolutePosition s.source.pos 0 vec.length off call.way :=
    le_absolutePosition (Int.natCast_nonneg _)
  have hgoal : ((s.source.seek off call.way).2.pos : ℤ) =
      absolutePosition s.source.pos 0 vec.length off call.way := by
    rw [← hs.container] at hnonneg ⊢
    exact Int.toNat_of_nonneg hnonneg
  rw [← hgoal] at habs
  exact Int.natCast_dvd_natCast.1 habs

theorem Good.move (hs : Good n vec info s) {call : SeekCall} (hcall : call.Aligned info) {q : ℕ}
    (hq : (q : ℤ) = s.tell + call.offset info) {sb : StreamBuffer} (hsb : s.KeepsArea n q sb) :
    Good n vec info ⟨s.source, { s.stream with buf := sb, eofbit := false }⟩ := by
  have hle := s.source.pos_le
  have hqpos := hsb.le_pos
  have harea : sb.area.length - sb.gptr = s.source.pos - q := by
    have hlength := congrArg List.length hsb.area
    rw [List.length_drop, length_slice_min] at hlength
    omega
  refine ⟨hs.container, hs.sameInfo, hsb.blocks.trans hs.blocks, hs.pos, ?_, hsb.length, ?_⟩
  · have hint : ((s.source.pos - q : ℕ) : ℤ) = s.left - call.offset info := by
      rw [tell] at hq
      omega
    rw [Ivectorstream.left]
    dsimp only
    rw [harea, ← Int.natCast_dvd_natCast, hint]
    exact Int.dvd_sub (Int.natCast_dvd_natCast.2 hs.left) hcall.dvd
  · have hflatten := length_flatten_refills_le n s.source
    rw [hs.container] at hflatten hle
    rw [StreamBuffer.rest, List.length_append, List.length_drop]
    dsimp only
    rw [harea, hsb.blocks, hs.blocks]
    omega

/-- **A step** keeps the invariant. -/
theorem Good.step (hs : Good n vec info s) (hw : WholeRefills info.bytesPerSample n vec)
    (hn : n + 4 < 2 ^ 31) (hvec : vec.length < 2 ^ 63) (hstep : Step h order n s s') :
    Good n vec info s' := by
  have hinfo := hs.sameInfo
  cases hstep with
  | extract hf hext => exact hs.extract hw hn hf hext
  | failed hfail =>
    exact ⟨hs.container, hs.sameInfo, hs.blocks, hs.pos, hs.left, hs.length, hs.rest⟩
  | seek hcall hfail =>
    rw [hinfo] at hcall ⊢
    exact hs.reposition hw hvec hcall
  | move hcall hfail hcur hq hsb =>
    rw [hinfo] at hcall hq
    exact hs.move hcall hq hsb

/-- **A run** keeps it. -/
theorem good_of_run (hw : WholeRefills info.bytesPerSample n vec) (hn : n + 4 < 2 ^ 31)
    (hvec : vec.length < 2 ^ 63)
    (hrun : Relation.ReflTransGen (Step h order n) (opened n vec info) s) :
    Good n vec info s := by
  induction hrun with
  | refl => exact good_opened n vec info
  | tail _ hstep ih => exact ih.step hw hn hvec hstep

theorem neverPast_of_wholeRefills (hw : WholeRefills info.bytesPerSample n vec)
    (hn : n + 4 < 2 ^ 31) (hvec : vec.length < 2 ^ 63) : NeverPast h order n vec info := by
  intro s hrun V rng fuel hf st hst
  have hs := good_of_run hw hn hvec hrun
  have hkeeps := hst.keeps h order (hs.refills_spec hw) hn hs.fits hf
  rw [hs.sameInfo] at hkeeps
  obtain ⟨rng', out, sb⟩ := st
  obtain ⟨hlength, hout, hfits⟩ := hkeeps
  dsimp only at hlength hout hfits
  exact ⟨Nat.mod_eq_zero_of_dvd hfits.left,
    Istream.stopsWithin_of_dvd h order hfits.left (by omega) (by omega)⟩

/-! ## Runs past the get area -/

/-- The first pass out of a buffer that has no get area. -/
theorem NeverPast.dvd_block (hnever : NeverPast h order n vec info)
    (hrun : Relation.ReflTransGen (Step h order n) (opened n vec info) s)
    (hbuf : s.stream.buf = fresh n s.source) (hfail : s.stream.failbit = false) (hn : 0 < n)
    (hpos : s.source.pos < s.source.container.length) :
    info.bytesPerSample ∣ min n (s.source.container.length - s.source.pos) := by
  obtain ⟨b, c', hread, hlength, -, -⟩ := Container.read_some hn hpos
  have hbpos : 0 < b.length := by omega
  have hunder : s.stream.buf.underflow = (some (b.get ⟨0, hbpos⟩), setg b (c'.refills n)) := by
    rw [hbuf, fresh, Container.refills_of_some hread]
    cases b with
    | nil => cases hbpos
    | cons x b => rfl
  have hpass : Istream.EntersPass h order (.integer ⟨true, .w8⟩) 2 s.stream [0]
      ([0], 0, setg b (c'.refills n)) := by
    refine ⟨?_, _, _, hunder, 0, rfl⟩
    rintro (hf | hf)
    · rw [hfail] at hf
      cases hf
    · cases hf
  obtain ⟨hwhole, -⟩ := hnever s hrun (.integer ⟨true, .w8⟩) [0] 2 (by decide) _ hpass
  rw [← hlength]
  exact Nat.dvd_of_mod_eq_zero hwhole

theorem pos_reposition_beg (off : ℤ) :
    (s.reposition n off .beg).source.pos =
      (absolutePosition s.source.pos 0 s.source.container.length off .beg).toNat := rfl

/-- A run that seeks to where the whole samples end. -/
theorem exists_run_wholeEnd (h : Host) (order : EvaluationOrder) (n : ℕ) (info : StreamInfo)
    (hvec : vec.length < 2 ^ 63) :
    ∃ s, Relation.ReflTransGen (Step h order n) (opened n vec info) s ∧
      s.stream.buf = fresh n s.source ∧ s.stream.failbit = false ∧ s.source.container = vec ∧
      s.source.pos = vec.length / info.bytesPerSample * info.bytesPerSample := by
  have hle := Nat.div_mul_le_self vec.length info.bytesPerSample
  have hcall : (SeekCall.seekg (vec.length / info.bytesPerSample * info.bytesPerSample : ℕ)
      .beg).Aligned info := by
    refine ⟨?_, ?_, ?_⟩
    · exact Int.natCast_dvd_natCast.2 (Nat.dvd_mul_left _ _)
    · dsimp only [SeekCall.offset]
      omega
    · dsimp only [SeekCall.offset]
      omega
  have hstep : Step h order n (opened n vec info) _ := .seek hcall rfl
  refine ⟨_, .single hstep, rfl, rfl, rfl, ?_⟩
  rw [SeekCall.way, SeekCall.offset, pos_reposition_beg, absolutePosition_beg (by omega) (by omega),
    zero_add]
  have hclamp : clamp ((vec.length / info.bytesPerSample * info.bytesPerSample : ℕ) : ℤ) 0
      vec.length = (vec.length / info.bytesPerSample * info.bytesPerSample : ℕ) :=
    clamp_of_le (Int.natCast_nonneg _) (Int.ofNat_le.2 hle)
  exact (congrArg Int.toNat hclamp).trans (Int.toNat_natCast _)

/-- A run that stays in the get area shows how long the blocks are: the first
    one, and the one behind the whole samples. -/
theorem NeverPast.wholeRefills (hnever : NeverPast h order n vec info)
    (hvec : vec.length < 2 ^ 63) : WholeRefills info.bytesPerSample n vec := by
  have hwpos := info.bytesPerSample_pos
  rcases Nat.eq_zero_or_pos n with hzero | hn
  · exact .inl hzero
  right
  rcases Nat.eq_zero_or_pos vec.length with hnil | hne
  · rw [hnil]
    exact ⟨dvd_zero _, .inr (Nat.zero_le n)⟩
  have hfirst : info.bytesPerSample ∣ min n vec.length := hnever.dvd_block .refl rfl rfl hn hne
  rcases le_or_gt vec.length n with hle | hlt
  · rw [Nat.min_eq_right hle] at hfirst
    exact ⟨hfirst, .inr hle⟩
  rw [Nat.min_eq_left hlt.le] at hfirst
  refine ⟨?_, .inl hfirst⟩
  obtain ⟨s, hrun, hbuf, hfail, hcontainer, hpos⟩ := exists_run_wholeEnd h order n info hvec
  have hmod := Nat.div_add_mod' vec.length info.bytesPerSample
  have hmod_lt := Nat.mod_lt vec.length hwpos
  have hwn := Nat.le_of_dvd hn hfirst
  rcases Nat.eq_zero_or_pos (vec.length % info.bytesPerSample) with hzero | hrem
  · exact Nat.dvd_of_mod_eq_zero hzero
  · -- what is left behind the whole samples is less than a block
    have hlast := hnever.dvd_block hrun hbuf hfail hn (by rw [hcontainer, hpos]; omega)
    have hmin : min n (s.source.container.length - s.source.pos) =
        vec.length % info.bytesPerSample := by
      rw [hcontainer, hpos]
      omega
    rw [hmin] at hlast
    exact absurd (Nat.le_of_dvd hrem hlast) (not_le.2 hmod_lt)

end

theorem bytesPerBuffer_of_lt (info : StreamInfo) {frames : ℕ} (hframes : 0 < frames)
    (hlt : frames * (info.bytesPerSample * info.numChannels) < 2 ^ 31) :
    info.bytesPerBuffer frames = frames * (info.bytesPerSample * info.numChannels) := by
  have hle := Nat.le_mul_of_pos_left (info.bytesPerSample * info.numChannels) hframes
  have hframe : info.bytesPerFrame = info.bytesPerSample * info.numChannels :=
    sizeT_of_lt (by omega)
  rw [StreamInfo.bytesPerBuffer, hframe]
  exact sizeT_of_lt (by omega)

/-- **The end of the get area.**  For a buffer that takes `size m` characters at
    once when it is made for `m`, which are `m` where an `int` holds the bytes of
    the get area and of what is put back, and never more than that: in every run
    on a vector, range extraction stays in the get area iff the vector holds whole
    samples, and so does a block, or the vector fits in one. -/
theorem neverPast_iff (h : Host) (order : EvaluationOrder) (size : ℕ → ℕ)
    (hasked : ∀ m, 0 < m → m + 4 < 2 ^ 31 → size m = m) (hint : ∀ m, size m + 4 < 2 ^ 31)
    (vec : List UInt8) (hvec : vec.length < 2 ^ 63) (info : StreamInfo) :
    (NeverPast h order (size (info.bytesPerBuffer 4096)) vec info ↔
      size (info.bytesPerBuffer 4096) = 0 ∨ info.bytesPerSample ∣ vec.length ∧
        (info.bytesPerSample ∣ size (info.bytesPerBuffer 4096) ∨
          vec.length ≤ size (info.bytesPerBuffer 4096))) ∧
    (0 < info.numChannels → 4096 * (info.bytesPerSample * info.numChannels) + 4 < 2 ^ 31 →
      (NeverPast h order (size (info.bytesPerBuffer 4096)) vec info ↔
        info.bytesPerSample ∣ vec.length)) := by
  have hiff : NeverPast h order (size (info.bytesPerBuffer 4096)) vec info ↔
      WholeRefills info.bytesPerSample (size (info.bytesPerBuffer 4096)) vec :=
    ⟨fun hnever => hnever.wholeRefills hvec,
      fun hw => neverPast_of_wholeRefills hw (hint _) hvec⟩
  refine ⟨hiff, fun hchannels hlt => ?_⟩
  have hbuffer : info.bytesPerBuffer 4096 = 4096 * (info.bytesPerSample * info.numChannels) :=
    bytesPerBuffer_of_lt info (by decide) (by omega)
  have hpos : 0 < info.bytesPerSample * info.numChannels :=
    Nat.mul_pos info.bytesPerSample_pos hchannels
  have hsize : size (info.bytesPerBuffer 4096) =
      4096 * (info.bytesPerSample * info.numChannels) := by
    rw [hbuffer]
    exact hasked _ (by omega) hlt
  rw [hiff, hsize]
  constructor
  · rintro (hzero | ⟨hlength, -⟩)
    · omega
    · exact hlength
  · intro hlength
    exact .inr ⟨hlength, .inl (Dvd.dvd.mul_left (Nat.dvd_mul_right _ _) _)⟩

/-- 16 bit samples of one channel. -/
def s16Info : StreamInfo := { format := s16le }

/-- A buffer that is of the size asked for where an `int` holds it, and of one
    character else. -/
def askedSize (m : ℕ) : ℕ := if 0 < m ∧ m + 4 < 2 ^ 31 then m else 1

theorem neverPast_twoSamples :
    NeverPast (.ofNative .littleEndian) .leftToRight (askedSize (s16Info.bytesPerBuffer 4096))
      [1, 2, 3, 4] s16Info :=
  ((neverPast_iff (.ofNative .littleEndian) .leftToRight askedSize
    (fun m h0 h1 => if_pos ⟨h0, h1⟩) (fun m => by unfold askedSize; split_ifs <;> omega)
    [1, 2, 3, 4] (by decide) s16Info).2 (by decide) (by decide)).2 (by decide)

/-- Half of a sample. -/
theorem halfSample_past :
    ¬ NeverPast (.ofNative .littleEndian) .leftToRight (askedSize (s16Info.bytesPerBuffer 4096))
      [1] s16Info := by
  intro hnever
  rcases hnever.wholeRefills (by decide) with hzero | ⟨hdvd, -⟩
  · exact absurd hzero (by decide)
  · exact absurd hdvd (by decide)

end Ivectorstream

end NiMedia
