/-
  What the FLAC source delivers (`flac_source::read`).

  The decoder is a script of outcomes of `FLAC__stream_decoder_process_single`.
  A call is silent if it reports samples without a block.

  * `delivering_reads`: what was delivered, and what waits in the buffer, are
    the blocks that were handed over.
  * `delivers_once_iff`: reads deliver every byte at most once, in order, and return,
    whatever they ask for, iff no call is silent once a block was handed over,
    and silent calls before that come to an end.
-/
import NiMedia.Flac.Source

namespace NiMedia

open Bytes Words Loop

namespace Flac

/-! ## Scripts -/

/-- What a call of `FLAC__stream_decoder_process_single` does. -/
structure Outcome where
  ret : Bool
  state : DecoderState
  frame : Option Frame

/-- A decoder that has made as many calls as its state says; it cannot seek. -/
def scripted (o : ℕ → Outcome) : Decoder ℕ where
  processSingle i := ((o i).ret, (o i).frame, i + 1)
  seekAbsolute _ i := (false, none, i)
  getState
    | 0 => .searchForFrameSync
    | i + 1 => (o i).state

/-- The call reports samples. -/
def Outcome.reports (x : Outcome) : Bool := x.ret && decide (x.state ≠ .endOfStream)

/-- The call reports samples without a block. -/
def Outcome.Silent (x : Outcome) : Prop := x.reports = true ∧ x.frame = none

/-- No call is silent behind a block, and there is an end to silent calls. -/
def Honest (o : ℕ → Outcome) : Prop :=
  ∀ i, (o i).Silent → (∀ j < i, (o j).frame = none) ∧ ∃ j, i < j ∧ ¬ (o j).Silent

section
variable (info : Info)

/-- The bytes that a call hands over. -/
def Outcome.bytes (x : Outcome) : List UInt8 :=
  match x.frame with
  | none => []
  | some frame => blockBytes info frame

/-- The bytes that the first `c` calls hand over. -/
def handed (o : ℕ → Outcome) (c : ℕ) : List UInt8 :=
  (List.range c).flatMap fun i => (o i).bytes info

/-- Every read returns, and what the reads deliver is a prefix of what was handed over. -/
def Delivers (o : ℕ → Outcome) (reads : List ℕ) : Prop :=
  ∃ outs s, Reads info (scripted o) (opened 0) reads outs s ∧
    outs.flatten <+: handed info o s.decoder

variable {info} {o : ℕ → Outcome}

theorem handed_succ (c : ℕ) : handed info o (c + 1) = handed info o c ++ (o c).bytes info := by
  rw [handed, handed, List.range_succ, List.flatMap_append, List.flatMap_singleton]

theorem Outcome.bytes_eq_nil {x : Outcome} : x.bytes info = [] ↔ x.frame = none := by
  cases hx : x.frame with
  | none => simp only [Outcome.bytes, hx]
  | some frame => simp only [Outcome.bytes, hx, blockBytes_ne_nil, reduceCtorEq]

end

/-! ## The buffer -/

section
variable (info : Info) (o : ℕ → Outcome)

/-- `delivered` was delivered, and the rest of what was handed over waits. -/
structure Delivering (delivered : List UInt8) (s : Source ℕ) : Prop where
  account : delivered ++ s.waiting = handed info o s.decoder
  offset_lt : s.audioBlockAvailable = true → s.bufferOffset < s.buffer.length
  offset_zero : s.audioBlockAvailable = false → s.bufferOffset = 0
  buffer_nil : s.buffer = [] ↔ ∀ j < s.decoder, (o j).frame = none

theorem delivering_opened : Delivering info o [] (opened 0) :=
  ⟨rfl, nofun, fun _ => rfl, iff_of_true rfl fun _ h => absurd h (Nat.not_lt_zero _)⟩

end

section
variable {info : Info} {o : ℕ → Outcome} {delivered : List UInt8} {s : Source ℕ}

/-! ### A call of the decoder -/

theorem samplesAvailable_call (h : s.audioBlockAvailable = false) :
    samplesAvailable info (scripted o) s =
      ((o s.decoder).reports, afterCall info (o s.decoder).frame (s.decoder + 1) s) :=
  if_neg (by rw [h]; exact Bool.false_ne_true)

/-- A call that hands over a block leaves it available. -/
theorem Delivering.call_frame (h : Delivering info o delivered s)
    (havail : s.audioBlockAvailable = false) {frame : Frame}
    (hframe : (o s.decoder).frame = some frame) :
    Delivering info o delivered (afterCall info (some frame) (s.decoder + 1) s) where
  account := by
    have hacc := h.account
    rw [Source.waiting, if_neg (by rw [havail]; exact Bool.false_ne_true), List.append_nil] at hacc
    have hzero := h.offset_zero havail
    simp only [afterCall, writeCallbackImpl, Source.waiting, if_true, hzero, List.drop_zero]
    rw [handed_succ, ← hacc, Outcome.bytes, hframe]
  offset_lt _ := by
    simp only [afterCall, writeCallbackImpl, h.offset_zero havail]
    exact List.length_pos_iff.2 (blockBytes_ne_nil info frame)
  offset_zero := nofun
  buffer_nil := by
    refine iff_of_false (blockBytes_ne_nil info frame) fun hnone => ?_
    rw [hnone s.decoder (Nat.lt_succ_self _)] at hframe
    cases hframe

/-- A call that hands over no block only counts. -/
theorem Delivering.call_none (h : Delivering info o delivered s)
    (hframe : (o s.decoder).frame = none) :
    Delivering info o delivered { s with decoder := s.decoder + 1 } where
  account := by
    rw [handed_succ, Outcome.bytes_eq_nil.2 hframe, List.append_nil]
    exact h.account
  offset_lt := h.offset_lt
  offset_zero := h.offset_zero
  buffer_nil := by
    refine h.buffer_nil.trans ⟨fun hnone j hj => ?_,
      fun hnone j hj => hnone j (hj.trans_le (Nat.le_succ _))⟩
    rcases Nat.lt_succ_iff_lt_or_eq.1 hj with hj | rfl
    · exact hnone j hj
    · exact hframe

theorem Delivering.with_pos (h : Delivering info o delivered s) (p : ℤ) :
    Delivering info o delivered { s with pos := p } :=
  ⟨h.account, h.offset_lt, h.offset_zero, h.buffer_nil⟩

/-! ### Passes -/

variable {n : ℕ} {out : List UInt8}

/-- A call that reports a block: the pass is the one with this block available. -/
theorem readPass_report (h : s.audioBlockAvailable = false) (hmore : out.length < n)
    (hreports : (o s.decoder).reports = true) {frame : Frame}
    (hframe : (o s.decoder).frame = some frame) :
    readPass info (scripted o) n (s, out) =
      readPass info (scripted o) n (afterCall info (some frame) (s.decoder + 1) s, out) := by
  have havail : (afterCall info (some frame) (s.decoder + 1) s).audioBlockAvailable = true := rfl
  simp only [readPass, if_pos hmore, samplesAvailable_call h, samplesAvailable_of_available havail,
    hreports, hframe]

/-- A call that reports no samples stops the loop. -/
theorem readPass_stop (h : s.audioBlockAvailable = false) (hmore : out.length < n)
    (hreports : (o s.decoder).reports = false) :
    readPass info (scripted o) n (s, out) =
      .done (some (out, stopped out (afterCall info (o s.decoder).frame (s.decoder + 1) s))) := by
  simp only [readPass, if_pos hmore, samplesAvailable_call h, hreports, stopped]
  rfl

/-- A silent call: what lies in the buffer is copied. -/
theorem readPass_silent (h : s.audioBlockAvailable = false) (hmore : out.length < n)
    (hsilent : (o s.decoder).Silent) (hle : s.bufferOffset ≤ s.buffer.length) :
    readPass info (scripted o) n (s, out) =
      .again (consume (min (s.buffer.length - s.bufferOffset) (n - out.length))
          { s with decoder := s.decoder + 1 },
        out ++ slice s.buffer s.bufferOffset
          (min (s.buffer.length - s.bufferOffset) (n - out.length))) := by
  have hcall : samplesAvailable info (scripted o) s =
      ((o s.decoder).reports, afterCall info (o s.decoder).frame (s.decoder + 1) s) :=
    samplesAvailable_call h
  rw [hsilent.1, hsilent.2, afterCall] at hcall
  simp only [readPass, if_pos hmore, hcall, if_true, if_neg (not_lt.2 hle)]

/-- A silent call with an empty buffer is followed by another one. -/
theorem readPass_silent_nil (h : s.audioBlockAvailable = false) (hmore : out.length < n)
    (hsilent : (o s.decoder).Silent) (hoff : s.bufferOffset = 0) (hnil : s.buffer = []) :
    readPass info (scripted o) n (s, out) = .again ({ s with decoder := s.decoder + 1 }, out) := by
  rw [readPass_silent h hmore hsilent (by rw [hoff]; exact Nat.zero_le _)]
  obtain ⟨buffer, off, avail, pos, d⟩ := s
  subst h hoff hnil
  simp [consume, slice]

/-! ### Progress -/

theorem Delivering.available_lt (h : Delivering info o delivered s)
    (havail : s.audioBlockAvailable = true) : 0 < s.buffer.length - s.bufferOffset :=
  Nat.sub_pos_of_lt (h.offset_lt havail)

/-- Copied bytes were waiting, and are delivered. -/
theorem Delivering.consume (h : Delivering info o delivered s)
    (havail : s.audioBlockAvailable = true) {k : ℕ} (hk : k ≤ s.buffer.length - s.bufferOffset) :
    Delivering info o (delivered ++ slice s.buffer s.bufferOffset k) (consume k s) := by
  have hlt := h.offset_lt havail
  have hacc := h.account
  rw [waiting_consume havail k, ← List.append_assoc] at hacc
  by_cases hall : s.bufferOffset + k = s.buffer.length
  · rw [Flac.consume, if_pos hall] at hacc ⊢
    exact ⟨hacc, fun hno => absurd hno Bool.false_ne_true, fun _ => rfl, h.buffer_nil⟩
  · rw [Flac.consume, if_neg hall] at hacc ⊢
    refine ⟨hacc, fun _ => ?_, fun hno => ?_, h.buffer_nil⟩
    · show s.bufferOffset + k < s.buffer.length
      omega
    · rw [havail] at hno
      cases hno

/-- A pass with an available block, or whose call is not silent: bytes are
    copied, or the loop stops. -/
theorem Delivering.pass {pre : List UInt8} (h : Delivering info o (pre ++ out) s)
    (hmore : out.length < n) (hcall : s.audioBlockAvailable = true ∨ ¬ (o s.decoder).Silent) :
    (∃ s' out', readPass info (scripted o) n (s, out) = .again (s', out') ∧
      out.length < out'.length ∧ Delivering info o (pre ++ out') s') ∨
    ∃ s', readPass info (scripted o) n (s, out) = .done (some (out, s')) ∧
      Delivering info o (pre ++ out) s' := by
  have hcopy : ∀ s, Delivering info o (pre ++ out) s → s.audioBlockAvailable = true →
      ∃ s' out', readPass info (scripted o) n (s, out) = .again (s', out') ∧
        out.length < out'.length ∧ Delivering info o (pre ++ out') s' := by
    intro s h havail
    refine ⟨_, _, readPass_available havail (h.offset_lt havail).le hmore, ?_, ?_⟩
    · have hpos := h.available_lt havail
      rw [List.length_append, length_slice_min]
      omega
    · rw [← List.append_assoc]
      exact h.consume havail (Nat.min_le_left _ _)
  cases havail : s.audioBlockAvailable with
  | true => exact .inl (hcopy s h havail)
  | false =>
    have hloud := hcall.resolve_left (by rw [havail]; exact Bool.false_ne_true)
    cases hreports : (o s.decoder).reports with
    | true =>
      obtain ⟨frame, hframe⟩ : ∃ frame, (o s.decoder).frame = some frame :=
        Option.ne_none_iff_exists'.1 fun hnone => hloud ⟨hreports, hnone⟩
      rw [readPass_report havail hmore hreports hframe]
      exact .inl (hcopy _ (h.call_frame havail hframe) rfl)
    | false =>
      refine .inr ⟨_, readPass_stop havail hmore hreports, .with_pos ?_ _⟩
      cases hframe : (o s.decoder).frame with
      | none => exact h.call_none hframe
      | some frame => exact h.call_frame havail hframe

/-- **Reads return** and deliver what is handed over. -/
theorem Delivering.read_returns (hon : Honest o) (n : ℕ) {pre : List UInt8}
    (h : Delivering info o (pre ++ out) s) :
    ∃ out' s', Returns (readPass info (scripted o) n) (s, out) (some (out', s')) ∧
      Delivering info o (pre ++ out') s' := by
  induction hm : n - out.length using Nat.strong_induction_on generalizing s out with
  | _ m ih =>
    subst hm
    by_cases hmore : out.length < n
    · have hloud : ∀ s, Delivering info o (pre ++ out) s →
          s.audioBlockAvailable = true ∨ ¬ (o s.decoder).Silent →
          ∃ out' s', Returns (readPass info (scripted o) n) (s, out) (some (out', s')) ∧
            Delivering info o (pre ++ out') s' := by
        intro s h hcall
        rcases h.pass hmore hcall with ⟨s', out', hpass, hlt, h'⟩ | ⟨s', hpass, h'⟩
        · obtain ⟨out'', s'', hret, h''⟩ := ih _ (by omega) h' rfl
          exact ⟨out'', s'', .again hpass hret, h''⟩
        · exact ⟨out, s', .done hpass, h'⟩
      -- by induction on the silent calls up to the next call that is not
      obtain ⟨d, hd⟩ : ∃ d, ¬ (o (s.decoder + d)).Silent := by
        by_cases hs : (o s.decoder).Silent
        · obtain ⟨j, hj, hnot⟩ := (hon _ hs).2
          exact ⟨j - s.decoder, by rwa [Nat.add_sub_cancel' hj.le]⟩
        · exact ⟨0, hs⟩
      induction d generalizing s with
      | zero => exact hloud s h (.inr hd)
      | succ d ihd =>
        by_cases hcall : s.audioBlockAvailable = true ∨ ¬ (o s.decoder).Silent
        · exact hloud s h hcall
        · obtain ⟨havail, hs⟩ := not_or.1 hcall
          have havail := Bool.eq_false_iff.2 havail
          have hs := not_not.1 hs
          have hpass : readPass info (scripted o) n (s, out) =
              .again ({ s with decoder := s.decoder + 1 }, out) :=
            readPass_silent_nil havail hmore hs (h.offset_zero havail) (h.buffer_nil.2 (hon _ hs).1)
          obtain ⟨out', s', hret, h'⟩ := ihd (h.call_none hs.2)
            (by show ¬ (o (s.decoder + 1 + d)).Silent; rwa [Nat.add_assoc, Nat.add_comm 1])
          exact ⟨out', s', .again hpass hret, h'⟩
    · exact ⟨out, _, .done (readPass_full (not_lt.1 hmore)), h.with_pos _⟩

/-- **Runs of reads.**  What was delivered, and what waits, is what was handed over. -/
theorem delivering_reads (hon : Honest o) (reads : List ℕ) {pre : List UInt8}
    (h : Delivering info o pre s) :
    ∃ outs s', Reads info (scripted o) s reads outs s' ∧
      Delivering info o (pre ++ outs.flatten) s' := by
  induction reads generalizing s pre with
  | nil => exact ⟨[], s, .nil, by rwa [List.flatten_nil, List.append_nil]⟩
  | cons n reads ih =>
    rw [← List.append_nil pre] at h
    obtain ⟨out, s₁, hret, h₁⟩ := h.read_returns hon n
    obtain ⟨outs, s₂, hreads, h₂⟩ := ih h₁
    rw [List.append_assoc, ← List.flatten_cons] at h₂
    exact ⟨out :: outs, s₂, .cons hret hreads, h₂⟩

/-! ## Silent calls that are noticed -/

/-- One more read. -/
theorem Reads.snoc {reads : List ℕ} {outs : List (List UInt8)} {s' s'' : Source ℕ}
    (h : Reads info (scripted o) s reads outs s')
    (hret : Returns (readPass info (scripted o) n) (s', []) (some (out, s''))) :
    Reads info (scripted o) s (reads ++ [n]) (outs ++ [out]) s'' := by
  induction h with
  | nil => exact .cons hret .nil
  | cons hret' _ ih => exact .cons hret' (ih hret)

theorem Reads.snoc_inv {reads : List ℕ} {outs outs' : List (List UInt8)} {s' s'' : Source ℕ}
    (h : Reads info (scripted o) s reads outs s')
    (h' : Reads info (scripted o) s (reads ++ [n]) outs' s'') :
    ∃ out, outs' = outs ++ [out] ∧
      Returns (readPass info (scripted o) n) (s', []) (some (out, s'')) := by
  induction h generalizing outs' with
  | nil =>
    cases h' with
    | cons hret hreads =>
      cases hreads
      exact ⟨_, rfl, hret⟩
  | cons hret _ ih =>
    cases h' with
    | cons hret' hreads =>
      obtain ⟨rfl, rfl⟩ := Prod.ext_iff.1 (Option.some.inj (hret.unique hret'))
      obtain ⟨out, rfl, hlast⟩ := ih hreads
      exact ⟨out, rfl, hlast⟩

/-- A read of a whole block that is available. -/
theorem returns_block (havail : s.audioBlockAvailable = true) (hoff : s.bufferOffset = 0)
    (hne : s.buffer ≠ []) :
    Returns (readPass info (scripted o) s.buffer.length) (s, [])
      (some (s.buffer, stopped s.buffer
        { s with bufferOffset := 0, audioBlockAvailable := false })) := by
  have hpass : readPass info (scripted o) s.buffer.length (s, []) = _ :=
    readPass_available havail (by omega) (List.length_pos_iff.2 hne)
  have hall : min (s.buffer.length - s.bufferOffset) (s.buffer.length - ([] : List UInt8).length) =
      s.buffer.length := by
    rw [hoff]
    exact Nat.min_self _
  rw [hall, consume, hoff, Nat.zero_add, if_pos rfl, slice, List.drop_zero, List.take_length,
    List.nil_append] at hpass
  exact .again hpass (.done (readPass_full le_rfl))

/-- Silent calls are passed over as long as the buffer is empty. -/
theorem returns_skip {r : Option (List UInt8 × Source ℕ)} (hn : 0 < n)
    (havail : s.audioBlockAvailable = false) (hoff : s.bufferOffset = 0) {c : ℕ}
    (hle : s.decoder ≤ c)
    (hsilent : ∀ j, s.decoder ≤ j → j < c → (o j).Silent ∧ s.buffer = [])
    (h : Returns (readPass info (scripted o) n) ({ s with decoder := c }, []) r) :
    Returns (readPass info (scripted o) n) (s, []) r := by
  obtain ⟨d, rfl⟩ := Nat.exists_eq_add_of_le hle
  induction d generalizing s with
  | zero => exact h
  | succ d ih =>
    obtain ⟨hs, hnil⟩ := hsilent s.decoder le_rfl (by omega)
    refine .again (readPass_silent_nil havail hn hs hoff hnil) (ih havail hoff ?_ ?_ ?_)
    · exact Nat.le_add_right _ _
    · intro j hj hlt
      have hlt : j < s.decoder + 1 + d := hlt
      exact hsilent j (Nat.le_of_succ_le hj) (by omega)
    · show Returns _ ({ s with decoder := s.decoder + 1 + d }, []) r
      rwa [Nat.add_assoc, Nat.add_comm 1]

variable (info o) in
/-- Some reads deliver all that is handed over before call `c`, where a read
    that needs more goes on with. -/
def Reaches (c : ℕ) : Prop :=
  ∃ reads outs s, Reads info (scripted o) (opened 0) reads outs s ∧
    Delivering info o outs.flatten s ∧ s.audioBlockAvailable = false ∧ s.decoder ≤ c ∧
    ∀ j, s.decoder ≤ j → j < c → (o j).Silent ∧ s.buffer = []

theorem reaches_zero : Reaches info o 0 :=
  ⟨[], [], opened 0, .nil, delivering_opened info o, rfl, le_rfl, fun _ _ h => absurd h (by omega)⟩

/-- A block that a read of its length gets wholly. -/
theorem Reaches.of_block {reads : List ℕ} {outs : List (List UInt8)} {s t : Source ℕ} {c : ℕ}
    (hreads : Reads info (scripted o) (opened 0) reads outs s)
    (hdel : Delivering info o outs.flatten t) (havail : t.audioBlockAvailable = true)
    (hoff : t.bufferOffset = 0) (hc : t.decoder = c)
    (hret : ∀ r, Returns (readPass info (scripted o) t.buffer.length) (t, []) r →
      Returns (readPass info (scripted o) t.buffer.length) (s, []) r) : Reaches info o c := by
  subst hc
  have hlt := hdel.offset_lt havail
  have hne : t.buffer ≠ [] := List.length_pos_iff.1 (by omega)
  have hall := hdel.consume havail (by rw [hoff, Nat.sub_zero] : t.buffer.length ≤ _)
  rw [consume, hoff, Nat.zero_add, if_pos rfl, slice, List.drop_zero, List.take_length] at hall
  refine ⟨_, _, _, hreads.snoc (hret _ (returns_block havail hoff hne)), ?_, rfl, le_rfl,
    fun j hj hlt => absurd hlt (not_lt.2 hj)⟩
  rw [List.flatten_append, List.flatten_singleton]
  exact hall.with_pos _

theorem Delivering.skip (h : Delivering info o delivered s) {c : ℕ} (hle : s.decoder ≤ c)
    (hskip : ∀ j, s.decoder ≤ j → j < c → (o j).Silent ∧ s.buffer = []) :
    Delivering info o delivered { s with decoder := c } := by
  obtain ⟨d, rfl⟩ := Nat.exists_eq_add_of_le hle
  induction d with
  | zero => exact h
  | succ d ih =>
    have hd := ih (Nat.le_add_right _ _) fun j hj hlt => hskip j hj (by omega)
    exact hd.call_none (hskip _ (Nat.le_add_right _ _) (by omega)).1.2

/-- What is handed over before the next call is reached, unless that call is
    silent behind a block. -/
theorem Reaches.succ {c : ℕ} (h : Reaches info o c)
    (hearly : (o c).Silent → ∀ j < c, (o j).frame = none) : Reaches info o (c + 1) := by
  obtain ⟨reads, outs, s, hreads, hdel, havail, hle, hskip⟩ := h
  have hoff := hdel.offset_zero havail
  by_cases hs : (o c).Silent
  · refine ⟨reads, outs, s, hreads, hdel, havail, by omega, fun j hj hlt => ?_⟩
    rcases Nat.lt_succ_iff_lt_or_eq.1 hlt with hlt | rfl
    · exact hskip j hj hlt
    · exact ⟨hs, hdel.buffer_nil.2 fun i hi => hearly hs i (by omega)⟩
  · have hdel' := hdel.skip hle hskip
    cases hreports : (o c).reports with
    | true =>
      obtain ⟨frame, hframe⟩ : ∃ frame, (o c).frame = some frame :=
        Option.ne_none_iff_exists'.1 fun hnone => hs ⟨hreports, hnone⟩
      have hblock := hdel'.call_frame (s := { s with decoder := c }) havail hframe
      refine .of_block hreads hblock rfl hoff rfl fun r hr => ?_
      have hpos : 0 < (blockBytes info frame).length :=
        List.length_pos_iff.2 (blockBytes_ne_nil info frame)
      exact returns_skip hpos havail hoff hle hskip
        (hr.of_eq (readPass_report (s := { s with decoder := c }) havail hpos hreports hframe))
    | false =>
      have hstop : Returns (readPass info (scripted o) 1) (s, []) _ :=
        returns_skip Nat.one_pos havail hoff hle hskip
          (.done (readPass_stop havail Nat.one_pos hreports))
      have hreads' := hreads.snoc hstop
      have hflat : (outs ++ [[]]).flatten = outs.flatten := by simp
      cases hframe : (o c).frame with
      | none =>
        rw [hframe] at hreads'
        refine ⟨_, _, _, hreads', ?_, havail, le_rfl, fun j hj hlt => absurd hlt (not_lt.2 hj)⟩
        rw [hflat]
        exact (hdel'.call_none hframe).with_pos _
      | some frame =>
        rw [hframe] at hreads'
        have hblock := hdel'.call_frame (s := { s with decoder := c }) havail hframe
        rw [← hflat] at hblock
        exact .of_block hreads' (hblock.with_pos _) rfl hoff rfl fun r hr => hr

/-- Behind a block a silent call makes the block be delivered once more. -/
theorem Reaches.silent {c : ℕ} (h : Reaches info o c) (hs : (o c).Silent)
    (hall : ∀ reads, Delivers info o reads) : ∀ j < c, (o j).frame = none := by
  obtain ⟨reads, outs, s, hreads, hdel, havail, hle, hskip⟩ := h
  have hoff := hdel.offset_zero havail
  by_contra hlate
  have hne : s.buffer ≠ [] := fun hnil => hlate fun j hj => by
    rcases Nat.lt_or_ge j s.decoder with h | h
    · exact hdel.buffer_nil.1 hnil j h
    · exact (hskip j h hj).1.2
  obtain rfl : s.decoder = c := by
    by_contra hlt
    exact hne (hskip s.decoder le_rfl (by omega)).2
  obtain ⟨outs', s', hreads', hpre⟩ := hall (reads ++ [s.buffer.length])
  obtain ⟨out, rfl, hret⟩ := hreads.snoc_inv hreads'
  have hpass : readPass info (scripted o) s.buffer.length (s, []) = _ :=
    readPass_silent havail (List.length_pos_iff.2 hne) hs (by omega)
  have hmin : min (s.buffer.length - s.bufferOffset) (s.buffer.length - ([] : List UInt8).length) =
      s.buffer.length := by
    rw [hoff]
    exact Nat.min_self _
  rw [hmin, consume, hoff, Nat.zero_add, if_pos rfl, slice, List.drop_zero, List.take_length,
    List.nil_append] at hpass
  have hdone := hret.unique (.again hpass (.done (readPass_full le_rfl)))
  obtain ⟨rfl, rfl⟩ := Prod.ext_iff.1 (Option.some.inj hdone)
  have hacc := hdel.account
  rw [Source.waiting, if_neg (by rw [havail]; exact Bool.false_ne_true), List.append_nil] at hacc
  have hlen := hpre.length_le
  rw [List.flatten_append, List.flatten_singleton, hacc, List.length_append] at hlen
  have hsame : handed info o (s.decoder + 1) = handed info o s.decoder := by
    rw [handed_succ, Outcome.bytes_eq_nil.2 hs.2, List.append_nil]
  have hpos := List.length_pos_iff.2 hne
  have hlen' : (handed info o s.decoder).length + s.buffer.length ≤
      (handed info o (s.decoder + 1)).length := hlen
  rw [hsame] at hlen'
  omega

/-- Silent calls for ever keep a read from returning. -/
theorem not_returns_of_silent {r : Option (List UInt8 × Source ℕ)} (hn : 0 < n)
    (havail : s.audioBlockAvailable = false) (hoff : s.bufferOffset = 0) (hnil : s.buffer = [])
    (hsilent : ∀ j, s.decoder ≤ j → (o j).Silent) :
    ¬ Returns (readPass info (scripted o) n) (s, []) r := by
  intro h
  let Stuck (x : Source ℕ × List UInt8) : Prop :=
    x.1.audioBlockAvailable = false ∧ x.1.bufferOffset = 0 ∧ x.1.buffer = [] ∧
      s.decoder ≤ x.1.decoder ∧ x.2 = []
  have hpass : ∀ x, Stuck x → readPass info (scripted o) n x =
      .again ({ x.1 with decoder := x.1.decoder + 1 }, x.2) := by
    rintro ⟨t, _⟩ ⟨h1, h2, h3, h4, rfl⟩
    exact readPass_silent_nil h1 hn (hsilent _ h4) h2 h3
  refine h.inv Stuck (fun _ => False) ?_ ?_ ⟨havail, hoff, hnil, le_rfl, rfl⟩
  · intro x x' hx hnext
    cases (hpass x hx).symm.trans hnext
    exact ⟨hx.1, hx.2.1, hx.2.2.1, hx.2.2.2.1.trans (Nat.le_succ _), hx.2.2.2.2⟩
  · intro x r hx hdone
    cases (hpass x hx).symm.trans hdone

theorem honest_of_delivers (hall : ∀ reads, Delivers info o reads) : Honest o := by
  have hreach : ∀ c, Reaches info o c := by
    intro c
    induction c with
    | zero => exact reaches_zero
    | succ c ih => exact ih.succ fun hs => ih.silent hs hall
  intro i hi
  refine ⟨(hreach i).silent hi hall, ?_⟩
  by_contra hend
  push Not at hend
  obtain ⟨reads, outs, s, hreads, hdel, havail, hle, hskip⟩ := hreach i
  obtain ⟨outs', s', hreads', -⟩ := hall (reads ++ [1])
  obtain ⟨out, -, hret⟩ := hreads.snoc_inv hreads'
  refine not_returns_of_silent Nat.one_pos havail (hdel.offset_zero havail) ?_ ?_ hret
  · exact hdel.buffer_nil.2 fun j hj => (hreach i).silent hi hall j (hj.trans_le hle)
  · intro j hj
    rcases lt_trichotomy j i with h | rfl | h
    · exact (hskip j hj h).1
    · exact hi
    · exact hend j h

variable (info o) in
/-- **When every byte is delivered once.** -/
theorem delivers_once_iff : (∀ reads, Delivers info o reads) ↔ Honest o := by
  refine ⟨honest_of_delivers, fun hon reads => ?_⟩
  obtain ⟨outs, s, hreads, hdel⟩ := delivering_reads hon reads (delivering_opened info o)
  exact ⟨outs, s, hreads, s.waiting, hdel.account⟩

end

/-! ### An aborted decoder -/

/-- Mono, 8 bit. -/
def s8Info : Info where
  format := RuntimeFormat.ofTag ⟨.signedInteger, ._8bit, .littleEndian⟩ (by decide)
  numFrames := 100
  numFrames_pos := by decide
  numChannels_pos := by decide
  numChannels_le := by decide

/-- One sample of the value 1. -/
def oneSample : Frame := ⟨1, fun _ _ => 1#32, Nat.one_pos⟩

/-- A block, then an aborted decoder. -/
def truncated : ℕ → Outcome
  | 0 => ⟨true, .readFrame, some oneSample⟩
  | _ + 1 => ⟨true, .aborted, none⟩

/-- The block is delivered twice by a read of two frames. -/
theorem truncated_twice : ¬ Delivers s8Info truncated [2] := by
  rintro ⟨outs, s, hreads, hpre⟩
  obtain ⟨out, rfl, hret⟩ := Reads.nil.snoc_inv hreads
  have hread : Returns (readPass s8Info (scripted truncated) 2) (opened 0, [])
      (some ([1, 1], ⟨[1], 0, false, 2, 2⟩)) := .of_iterate 3 rfl
  obtain ⟨rfl, rfl⟩ := Prod.ext_iff.1 (Option.some.inj (hret.unique hread))
  revert hpre
  decide

end Flac

end NiMedia
