/-
  Seeks of the FLAC source (`flac_source::seek`).

  A decoder of a stream hands over its frames in blocks, seeks to every frame of
  the stream, and refuses a seek behind them.

  * `stands_of_reachable`: in every reachable state the source stands at its
    position: what waits in the buffer, and what the decoder hands over next, are
    the bytes from there on;
  * `seek_reaches_iff`: when a seek comes to the position asked for.
-/
import NiMedia.Flac.Delivery
import NiMedia.Iostreams.Saturation

namespace NiMedia

open Bytes Words Loop

namespace Flac

/-! ## Streams -/

/-- The samples of a stream, as many frames as the stream info says.  Positions
    are `std::streamoff`s. -/
structure Stream (info : Info) where
  sample : ℕ → ℕ → BitVec 32
  fits : info.numFrames * info.bytesPerFrame < 2 ^ 63

namespace Stream

variable {info : Info} (S : Stream info)

/-- The block of `n` frames from frame `p` on. -/
def block (p n : ℕ) (h : 0 < n) : Frame := ⟨n, fun channel u => S.sample channel (p + u), h⟩

/-- The bytes of a frame. -/
def frameBytes (u : ℕ) : List UInt8 :=
  (List.range info.numChannels).flatMap fun channel =>
    (List.range info.bytesPerSample).map (sampleByte (S.sample channel u))

/-- The bytes of the stream. -/
def bytes : List UInt8 := (List.range info.numFrames).flatMap S.frameBytes

theorem length_frameBytes (u : ℕ) : (S.frameBytes u).length = info.bytesPerFrame := by
  simp [frameBytes, List.length_flatMap, info.bytesPerFrame_eq, Nat.mul_comm]

theorem numBytes_eq (S : Stream info) : info.numBytes = info.numFrames * info.bytesPerFrame := by
  have hcomm : info.numFrames * info.numChannels * info.bytesPerSample =
      info.numFrames * info.bytesPerFrame := by
    rw [info.bytesPerFrame_eq]
    ring
  have hfits := S.fits
  rw [← hcomm] at hfits ⊢
  exact sizeT_mul_mul info.bytesPerSample_pos (by omega)

theorem numBytes_lt (S : Stream info) : info.numBytes < 2 ^ 63 := by
  rw [S.numBytes_eq]
  exact S.fits

theorem length_bytes : S.bytes.length = info.numBytes := by
  rw [S.numBytes_eq]
  exact length_flatMap_range _ fun u _ => S.length_frameBytes u

/-- The bytes of a block. -/
theorem blockBytes_block {p n : ℕ} (hn : 0 < n) (h : p + n ≤ info.numFrames) :
    blockBytes info (S.block p n hn) =
      slice S.bytes (p * info.bytesPerFrame) (n * info.bytesPerFrame) :=
  (slice_flatMap_range S.length_frameBytes h).symm

/-- A block, and what is behind it. -/
theorem blockBytes_append {p n : ℕ} (hn : 0 < n) (h : p + n ≤ info.numFrames) :
    blockBytes info (S.block p n hn) ++ S.bytes.drop ((p + n) * info.bytesPerFrame) =
      S.bytes.drop (p * info.bytesPerFrame) := by
  rw [S.blockBytes_block hn h, slice, Nat.add_mul, ← List.drop_drop, List.take_append_drop]

end Stream

/-- A decoder of the stream: `At p d` says that it hands over frame `p` next. -/
structure Decodes {info : Info} (S : Stream info) {δ : Type} (D : Decoder δ) (At : ℕ → δ → Prop) :
    Prop where
  process : ∀ {p d}, At p d → p < info.numFrames → ∃ n, ∃ hn : 0 < n, ∃ d',
    p + n ≤ info.numFrames ∧ D.processSingle d = (true, some (S.block p n hn), d') ∧
      D.getState d' ≠ .endOfStream ∧ At (p + n) d'
  finish : ∀ {d}, At info.numFrames d → ∃ d', D.processSingle d = (true, none, d') ∧
    D.getState d' = .endOfStream ∧ At info.numFrames d'
  seek : ∀ {p d k}, At p d → k < info.numFrames → ∃ n, ∃ hn : 0 < n, ∃ d',
    k + n ≤ info.numFrames ∧ D.seekAbsolute k d = (true, some (S.block k n hn), d') ∧
      At (k + n) d'
  refuse : ∀ {p d k}, At p d → info.numFrames ≤ k →
    ∃ d', D.seekAbsolute k d = (false, none, d') ∧ At p d'

/-- The states that reads and seeks lead to. -/
inductive Reachable (info : Info) {δ : Type} (D : Decoder δ) (At : ℕ → δ → Prop) : Source δ → Prop
  | opened {d} : At 0 d → Reachable info D At (opened d)
  | read {s s' n out} : Reachable info D At s →
      Returns (readPass info D n) (s, []) (some (out, s')) → Reachable info D At s'
  | seek {s} (off : ℤ) (way : SeekDir) : Reachable info D At s →
      Reachable info D At (seek info D off way s).2

section
variable {δ : Type} {info : Info} (S : Stream info) (At : ℕ → δ → Prop)

/-- The bytes from `t` on are those that wait, and those that the decoder hands
    over next. -/
structure Holding (t : ℕ) (s : Source δ) : Prop where
  decoder : ∃ p ≤ info.numFrames, At p s.decoder ∧
    s.waiting ++ S.bytes.drop (p * info.bytesPerFrame) = S.bytes.drop t
  offset_lt : s.audioBlockAvailable = true → s.bufferOffset < s.buffer.length
  offset_zero : s.audioBlockAvailable = false → s.bufferOffset = 0

/-- The source stands at byte `t`. -/
structure Stands (t : ℕ) (s : Source δ) : Prop where
  pos : s.pos = t
  le : t ≤ info.numBytes
  holding : Holding S At t s

end

section
variable {δ : Type} {info : Info} {S : Stream info} {D : Decoder δ} {At : ℕ → δ → Prop}
  {s : Source δ} {t n : ℕ} {out : List UInt8}

theorem Holding.with_pos (h : Holding S At t s) (p : ℤ) : Holding S At t { s with pos := p } :=
  ⟨h.decoder, h.offset_lt, h.offset_zero⟩

theorem holding_opened {d : δ} (h : At 0 d) : Holding S At 0 (opened d) :=
  ⟨⟨0, Nat.zero_le _, h, by simp [Source.waiting, opened]⟩, nofun, fun _ => rfl⟩

/-! ## Reads -/

/-- Copied bytes are those at the position. -/
theorem Holding.copy (h : Holding S At t s) (havail : s.audioBlockAvailable = true) {k : ℕ}
    (hk : k ≤ s.buffer.length - s.bufferOffset) :
    slice s.buffer s.bufferOffset k = slice S.bytes t k ∧ Holding S At (t + k) (consume k s) := by
  obtain ⟨p, hp, hat, hbytes⟩ := h.decoder
  have hlt := h.offset_lt havail
  have hlen : (slice s.buffer s.bufferOffset k).length = k := length_slice (by omega)
  rw [waiting_consume havail k, List.append_assoc] at hbytes
  have hslice : slice s.buffer s.bufferOffset k = slice S.bytes t k := by
    rw [slice.eq_1 S.bytes, ← hbytes, List.take_append_of_le_length hlen.ge,
      List.take_of_length_le hlen.le]
  have hrest : (consume k s).waiting ++ S.bytes.drop (p * info.bytesPerFrame) =
      S.bytes.drop (t + k) := by
    rw [← List.drop_drop, ← hbytes]
    exact (List.drop_left' hlen).symm
  refine ⟨hslice, ?_⟩
  by_cases hall : s.bufferOffset + k = s.buffer.length
  · rw [consume, if_pos hall] at hrest ⊢
    exact ⟨⟨p, hp, hat, hrest⟩, fun hno => absurd hno Bool.false_ne_true, fun _ => rfl⟩
  · rw [consume, if_neg hall] at hrest ⊢
    refine ⟨⟨p, hp, hat, hrest⟩, fun _ => ?_, fun hno => ?_⟩
    · show s.bufferOffset + k < s.buffer.length
      omega
    · rw [havail] at hno
      cases hno

/-- Without an available block the decoder is at the position. -/
theorem Holding.decoder_at (h : Holding S At t s) (havail : s.audioBlockAvailable = false)
    (ht : t ≤ info.numBytes) :
    ∃ p ≤ info.numFrames, At p s.decoder ∧ p * info.bytesPerFrame = t := by
  obtain ⟨p, hp, hat, hbytes⟩ := h.decoder
  have hlen := congrArg List.length hbytes
  have hle := Nat.mul_le_mul_right info.bytesPerFrame hp
  have hnum := S.numBytes_eq
  rw [Source.waiting, if_neg (by rw [havail]; exact Bool.false_ne_true), List.nil_append,
    List.length_drop, List.length_drop, S.length_bytes] at hlen
  exact ⟨p, hp, hat, by omega⟩

/-- A block that is handed over is available from its first byte on. -/
theorem holding_afterCall (havail : s.bufferOffset = 0) {p k : ℕ} {d : δ} (hk : 0 < k)
    (hle : p + k ≤ info.numFrames) (hat : At (p + k) d) :
    Holding S At (p * info.bytesPerFrame) (afterCall info (some (S.block p k hk)) d s) := by
  refine ⟨⟨p + k, hle, hat, ?_⟩, fun _ => ?_, nofun⟩
  · show (blockBytes info (S.block p k hk)).drop s.bufferOffset ++ _ = _
    rw [havail, List.drop_zero, S.blockBytes_append hk hle]
  · show s.bufferOffset < (blockBytes info (S.block p k hk)).length
    rw [havail]
    exact List.length_pos_iff.2 (blockBytes_ne_nil info _)

/-- A pass of the loop copies bytes from the position on, or stops at the end. -/
theorem Holding.pass (hD : Decodes S D At) (h : Holding S At t s) (ht : t ≤ info.numBytes)
    (hmore : out.length < n) :
    (∃ s' k, readPass info D n (s, out) = .again (s', out ++ slice S.bytes t k) ∧ 0 < k ∧
      k ≤ n - out.length ∧ t + k ≤ info.numBytes ∧ s'.pos = s.pos ∧ Holding S At (t + k) s') ∨
    t = info.numBytes ∧ ∃ s', readPass info D n (s, out) = .done (some (out, stopped out s')) ∧
      s'.pos = s.pos ∧ Holding S At t s' := by
  have hcopy : ∀ s, Holding S At t s → s.audioBlockAvailable = true →
      ∃ s' k, readPass info D n (s, out) = .again (s', out ++ slice S.bytes t k) ∧ 0 < k ∧
        k ≤ n - out.length ∧ t + k ≤ info.numBytes ∧ s'.pos = s.pos ∧ Holding S At (t + k) s' := by
    intro s h havail
    have hlt := h.offset_lt havail
    have hpass : readPass info D n (s, out) = _ := readPass_available havail hlt.le hmore
    obtain ⟨hslice, hrest⟩ := h.copy havail (Nat.min_le_left _ (n - out.length))
    have hlen := congrArg List.length hslice
    rw [length_slice (by omega), length_slice_min, S.length_bytes] at hlen
    rw [hslice] at hpass
    exact ⟨_, _, hpass, by omega, Nat.min_le_right _ _, by omega, consume_pos _ _, hrest⟩
  cases havail : s.audioBlockAvailable with
  | true => exact .inl (hcopy s h havail)
  | false =>
    obtain ⟨p, hp, hat, rfl⟩ := h.decoder_at havail ht
    rcases Nat.lt_or_eq_of_le hp with hlt | rfl
    · obtain ⟨k, hk, d, hle, hproc, hstate, hat'⟩ := hD.process hat hlt
      have hcall : samplesAvailable info D s = _ := samplesAvailable_of_call havail hproc
      rw [decide_eq_true hstate, Bool.and_true] at hcall
      rw [readPass_of_call hcall rfl hmore]
      exact .inl (hcopy _ (holding_afterCall (h.offset_zero havail) hk hle hat') rfl)
    · obtain ⟨d, hproc, hstate, hat'⟩ := hD.finish hat
      have hcall : samplesAvailable info D s = _ := samplesAvailable_of_call havail hproc
      rw [decide_eq_false (not_not.2 hstate), Bool.and_false] at hcall
      refine .inr ⟨S.numBytes_eq.symm, _, readPass_of_end hcall hmore, rfl, ⟨⟨_, hp, hat', ?_⟩,
        h.offset_lt, h.offset_zero⟩⟩
      show (if s.audioBlockAvailable = true then _ else []) ++ _ = _
      rw [if_neg (by rw [havail]; exact Bool.false_ne_true)]
      rfl

/-- **Reads** deliver the bytes from the position on, as many as there are. -/
theorem Holding.read_returns (hD : Decodes S D At) {p : ℕ} (h : Holding S At (p + out.length) s)
    (hle : p + out.length ≤ info.numBytes) (hout : out = slice S.bytes p out.length)
    (hn : out.length ≤ n) :
    ∃ s', Returns (readPass info D n) (s, out) (some (slice S.bytes p n, s')) ∧
      s'.pos = wrap 64 (s.pos + (slice S.bytes p n).length) ∧
      Holding S At (p + (slice S.bytes p n).length) s' := by
  induction hm : n - out.length using Nat.strong_induction_on generalizing s out with
  | _ m ih =>
    subst hm
    by_cases hmore : out.length < n
    · rcases h.pass hD hle hmore with ⟨s', k, hpass, hk, hkn, hle', hpos, h'⟩ |
        ⟨hend, s', hpass, hpos, h'⟩
      · have hlen : (slice S.bytes (p + out.length) k).length = k :=
          length_slice (by rw [S.length_bytes]; exact hle')
        have hnext : out ++ slice S.bytes (p + out.length) k =
            slice S.bytes p (out ++ slice S.bytes (p + out.length) k).length := by
          rw [List.length_append, hlen, slice_add, ← hout]
        rw [Nat.add_assoc, ← hlen, ← List.length_append] at h' hle'
        have hgrow : (out ++ slice S.bytes (p + out.length) k).length = out.length + k := by
          rw [List.length_append, hlen]
        obtain ⟨s'', hret, hpos', h''⟩ := ih _ (by omega) h' hle' hnext (by omega) rfl
        exact ⟨s'', .again hpass hret, by rw [hpos', hpos], h''⟩
      · have hall : slice S.bytes p n = out := by
          have hsplit := slice_add S.bytes p out.length (n - out.length)
          have hnil : slice S.bytes (p + out.length) (n - out.length) = [] :=
            slice_of_length_le (by rw [S.length_bytes]; exact hend.ge) _
          rw [Nat.add_sub_cancel' hn, ← hout, hnil, List.append_nil] at hsplit
          exact hsplit
        rw [hall]
        exact ⟨_, .done hpass, by rw [stopped, hpos], h'.with_pos _⟩
    · have hfull : out.length = n := le_antisymm hn (not_lt.1 hmore)
      subst hfull
      rw [← hout]
      exact ⟨_, .done (readPass_full le_rfl), rfl, h.with_pos _⟩

/-- A read from where the source stands. -/
theorem Stands.read (hD : Decodes S D At) (h : Stands S At t s) (n : ℕ) :
    ∃ s', Returns (readPass info D n) (s, []) (some (slice S.bytes t n, s')) ∧
      Stands S At (t + (slice S.bytes t n).length) s' := by
  have hlen : (slice S.bytes t n).length ≤ info.numBytes - t := by
    rw [length_slice_min, S.length_bytes]
    exact Nat.min_le_right _ _
  have hmax := S.numBytes_lt
  have hle := h.le
  have hstart : Holding S At (t + ([] : List UInt8).length) s := h.holding
  obtain ⟨s', hret, hpos, hhold⟩ := hstart.read_returns hD h.le rfl (Nat.zero_le n)
  refine ⟨s', hret, ?_, by omega, hhold⟩
  rw [hpos, h.pos]
  exact wrap_of_range (by omega) (by omega)

/-- **Runs of reads** deliver the bytes from where the source stands. -/
theorem Stands.reads (hD : Decodes S D At) (h : Stands S At t s) (reads : List ℕ) :
    ∃ outs s', Reads info D s reads outs s' ∧ outs.flatten = slice S.bytes t reads.sum ∧
      ∃ t', Stands S At t' s' := by
  induction reads generalizing s t with
  | nil => exact ⟨[], s, .nil, by simp [slice], t, h⟩
  | cons n reads ih =>
    obtain ⟨s₁, hret, h₁⟩ := h.read hD n
    obtain ⟨outs, s₂, hreads, houts, h₂⟩ := ih h₁
    refine ⟨_, s₂, .cons hret hreads, ?_, h₂⟩
    rw [List.flatten_cons, houts, List.sum_cons, slice_add]
    -- a short read is the last one that delivers bytes
    rcases Nat.lt_or_ge (slice S.bytes t n).length n with hshort | hfull
    · have hend : S.bytes.length ≤ t + (slice S.bytes t n).length := by
        rw [length_slice_min] at hshort ⊢
        omega
      have hend' : S.bytes.length ≤ t + n := by omega
      rw [slice_of_length_le hend, slice_of_length_le hend']
    · have hlen : (slice S.bytes t n).length = n := by
        rw [length_slice_min] at hfull ⊢
        omega
      rw [hlen]

/-! ## Seeks -/

/-- A seek that the decoder grants. -/
theorem Stands.seek_lt (hD : Decodes S D At) (h : Stands S At t s) {off : ℤ} {way : SeekDir} {q : ℕ}
    (hq : absolutePosition s.pos 0 info.numBytes off way = q) (hlt : q < info.numBytes) :
    (seek info D off way s).1 = q ∧ Stands S At q (seek info D off way s).2 := by
  obtain ⟨p, -, hat, -⟩ := h.holding.decoder
  have hF := info.bytesPerFrame_pos
  have hframe : q / info.bytesPerFrame < info.numFrames := by
    rw [Nat.div_lt_iff_lt_mul hF, ← S.numBytes_eq]
    exact hlt
  obtain ⟨k, hk, d, hle, hseek, hat'⟩ := hD.seek hat hframe
  have hmod := Nat.mod_lt q hF
  have hdiv := Nat.div_add_mod' q info.bytesPerFrame
  have hblock : (blockBytes info (S.block (q / info.bytesPerFrame) k hk)).length =
      k * info.bytesPerFrame := length_blockBytes info _
  have hfirst : info.bytesPerFrame ≤ k * info.bytesPerFrame := Nat.le_mul_of_pos_left _ hk
  simp only [seek, hq, Int.toNat_natCast, hseek, if_true]
  refine ⟨trivial, rfl, hlt.le, ⟨_, hle, hat', ?_⟩, fun _ => ?_, nofun⟩
  · show (blockBytes info (S.block (q / info.bytesPerFrame) k hk)).drop (q % info.bytesPerFrame) ++
      _ = _
    rw [← List.drop_append_of_le_length (by omega), S.blockBytes_append hk hle, List.drop_drop,
      hdiv]
  · show q % info.bytesPerFrame <
      (blockBytes info (S.block (q / info.bytesPerFrame) k hk)).length
    omega

/-- A seek to the end is refused, and the source stays where it stands. -/
theorem Stands.seek_end (hD : Decodes S D At) (h : Stands S At t s) {off : ℤ} {way : SeekDir}
    (hq : absolutePosition s.pos 0 info.numBytes off way = info.numBytes) :
    (seek info D off way s).1 = s.pos ∧ Stands S At t (seek info D off way s).2 := by
  obtain ⟨p, hp, hat, hbytes⟩ := h.holding.decoder
  have hframe : info.numBytes / info.bytesPerFrame = info.numFrames := by
    rw [S.numBytes_eq]
    exact Nat.mul_div_cancel _ info.bytesPerFrame_pos
  obtain ⟨d, hseek, hat'⟩ := hD.refuse (k := info.numFrames) hat le_rfl
  simp only [seek, hq, Int.toNat_natCast, hframe, hseek, Bool.false_eq_true, if_false]
  exact ⟨rfl, h.pos, h.le, ⟨p, hp, hat', hbytes⟩, h.holding.offset_lt, h.holding.offset_zero⟩

/-- Where a seek goes to is a byte of the stream, or the end. -/
theorem exists_target (info : Info) (off : ℤ) (way : SeekDir) (s : Source δ) : ∃ q ≤ info.numBytes,
    absolutePosition s.pos 0 info.numBytes off way = (q : ℕ) := by
  have h0 : 0 ≤ absolutePosition s.pos 0 info.numBytes off way :=
    le_absolutePosition (Int.natCast_nonneg _)
  have h1 : absolutePosition s.pos 0 info.numBytes off way ≤ info.numBytes :=
    absolutePosition_le (Int.natCast_nonneg _)
  obtain ⟨q, hq⟩ := Int.eq_ofNat_of_zero_le h0
  exact ⟨q, by omega, hq⟩

/-- After a seek, too, the source stands somewhere. -/
theorem Stands.seek (hD : Decodes S D At) (h : Stands S At t s) (off : ℤ) (way : SeekDir) :
    ∃ t', Stands S At t' (seek info D off way s).2 := by
  obtain ⟨q, hle, hq⟩ := exists_target info off way s
  rcases Nat.lt_or_eq_of_le hle with hlt | rfl
  · exact ⟨q, (h.seek_lt hD hq hlt).2⟩
  · exact ⟨t, (h.seek_end hD hq).2⟩

/-- **Reachable states.**  The source stands at its position. -/
theorem stands_of_reachable (hD : Decodes S D At) (h : Reachable info D At s) :
    ∃ t, Stands S At t s := by
  induction h with
  | opened h => exact ⟨0, rfl, Nat.zero_le _, holding_opened h⟩
  | read _ hret ih =>
    obtain ⟨t, ht⟩ := ih
    obtain ⟨s', hret', ht'⟩ := ht.read hD _
    cases hret.unique hret'
    exact ⟨_, ht'⟩
  | seek off way _ ih =>
    obtain ⟨t, ht⟩ := ih
    exact ht.seek hD off way

/-- The position that a seek is asked for. -/
def seekTarget (info : Info) (off : ℤ) (way : SeekDir) (s : Source δ) : ℤ :=
  clamp (seekBase s.pos 0 info.numBytes way + off) 0 info.numBytes

/-- The seek comes to this position, and reads deliver the bytes from there on. -/
def SeekReaches (S : Stream info) (D : Decoder δ) (off : ℤ) (way : SeekDir) (s : Source δ) : Prop :=
  (seek info D off way s).1 = seekTarget info off way s ∧
    ∀ reads : List ℕ, ∃ outs s', Reads info D (seek info D off way s).2 reads outs s' ∧
      outs.flatten = slice S.bytes (seekTarget info off way s).toNat reads.sum

/-- **Seeks.**  In a reachable state a seek comes to its position iff it does
    not overflow, and the position is not the end of the stream, or the source is
    there already. -/
theorem seek_reaches_iff (hD : Decodes S D At) (hs : Reachable info D At s) {off : ℤ}
    {way : SeekDir} (hoff : -2 ^ 63 ≤ off) (hoff' : off < 2 ^ 63) :
    SeekReaches S D off way s ↔ seekBase s.pos 0 info.numBytes way + off < 2 ^ 63 ∧
      (seekTarget info off way s < info.numBytes ∨ s.pos = info.numBytes) := by
  obtain ⟨t, ht⟩ := stands_of_reachable hD hs
  have hmax := S.numBytes_lt
  have hpos0 : 0 ≤ s.pos := by rw [ht.pos]; exact Int.natCast_nonneg _
  have hposn : s.pos ≤ info.numBytes := by rw [ht.pos]; exact_mod_cast ht.le
  obtain ⟨hbase, hbase'⟩ := seekBase_mem way hpos0 hposn
  have hn : 0 < info.numBytes := by
    rw [S.numBytes_eq]
    exact Nat.mul_pos info.numFrames_pos info.bytesPerFrame_pos
  rcases lt_or_ge (seekBase s.pos 0 info.numBytes way + off) (2 ^ 63) with hlt | hge
  · have habs : absolutePosition s.pos 0 info.numBytes off way = seekTarget info off way s :=
      absolutePosition_eq (by omega) hlt
    obtain ⟨q, hle, hq⟩ := exists_target info off way s
    rw [SeekReaches, ← habs, hq]
    rcases Nat.lt_or_eq_of_le hle with hlt' | rfl
    · obtain ⟨hres, hst⟩ := ht.seek_lt hD hq hlt'
      refine iff_of_true ⟨hres, fun reads => ?_⟩ ⟨hlt, .inl (by exact_mod_cast hlt')⟩
      obtain ⟨outs, s', hreads, houts, -⟩ := hst.reads hD reads
      exact ⟨outs, s', hreads, houts⟩
    · obtain ⟨hres, hst⟩ := ht.seek_end hD hq
      constructor
      · rintro ⟨hto, -⟩
        exact ⟨hlt, .inr (hres.symm.trans hto)⟩
      · rintro ⟨-, hend | hend⟩
        · exact absurd hend (lt_irrefl _)
        · have ht' : t = info.numBytes := by
            have := ht.pos.symm.trans hend
            exact_mod_cast this
          subst ht'
          refine ⟨hres.trans hend, fun reads => ?_⟩
          obtain ⟨outs, s', hreads, houts, -⟩ := hst.reads hD reads
          exact ⟨outs, s', hreads, houts⟩
  · have habs : absolutePosition s.pos 0 info.numBytes off way = (0 : ℕ) :=
      absolutePosition_overflow_beg le_rfl hpos0 hposn (by omega) hoff' hge
    have hend : seekTarget info off way s = info.numBytes := by
      exact clamp_of_gt (by omega) (by omega)
    refine iff_of_false ?_ fun h => absurd h.1 (not_lt.2 hge)
    rintro ⟨hto, -⟩
    rw [(ht.seek_lt hD habs hn).1, hend] at hto
    omega

end

/-! ## A decoder of any stream -/

/-- It hands over one frame at a time; the flag is whether it has met the end. -/
def frameByFrame {info : Info} (S : Stream info) : Decoder (ℕ × Bool) where
  processSingle d :=
    if d.1 < info.numFrames then (true, some (S.block d.1 1 Nat.one_pos), (d.1 + 1, false))
    else (true, none, (d.1, true))
  seekAbsolute k d :=
    if k < info.numFrames then (true, some (S.block k 1 Nat.one_pos), (k + 1, false))
    else (false, none, d)
  getState d := if d.2 then .endOfStream else .searchForFrameSync

theorem frameByFrame_decodes {info : Info} (S : Stream info) :
    Decodes S (frameByFrame S) fun p d => d.1 = p where
  process := by
    rintro p d rfl hlt
    exact ⟨1, Nat.one_pos, (d.1 + 1, false), hlt, if_pos hlt, nofun, rfl⟩
  finish := by
    rintro d hd
    exact ⟨(d.1, true), if_neg (by rw [hd]; exact lt_irrefl _), rfl, hd⟩
  seek := by
    rintro p d k - hk
    exact ⟨1, Nat.one_pos, (k + 1, false), hk, if_pos hk, rfl⟩
  refuse := by
    rintro p d k hd hk
    exact ⟨d, if_neg (not_lt.2 hk), hd⟩

/-- Three frames of 8 bit mono. -/
def threeInfo : Info :=
  { s8Info with numFrames := 3, numFrames_pos := Nat.succ_pos 2 }

def three : Stream threeInfo where
  sample _ u := BitVec.ofNat 32 (u + 1)
  fits := by decide

theorem three_seek_two : SeekReaches three (frameByFrame three) 2 .beg (opened (0, false)) :=
  (seek_reaches_iff (frameByFrame_decodes three) (.opened rfl) (by decide) (by decide)).2
    ⟨by decide, .inl (by decide)⟩

/-- A seek to the end stays at the beginning. -/
theorem three_not_seek_end :
    ¬ SeekReaches three (frameByFrame three) 0 .end_ (opened (0, false)) := by
  rintro ⟨hto, -⟩
  exact absurd hto (by decide)

end Flac

end NiMedia
