/-
  Reading samples from a stream (`audio/istream.h`, `istream.cpp`).

  A value is read through `istream::read` and a temporary.  A range is converted
  straight out of the get area of the stream buffer: each pass of the loop
  copies what the get area holds, moves the get pointer by the count of bytes as
  an `int`, and refills the get area until the range is full.
-/
import NiMedia.Audio.StreamInfo
import NiMedia.Iostreams.StreamBuffer
import NiMedia.Lib.Words
import NiMedia.Pcm.Copy

namespace NiMedia

open Bytes Words

/-- `audio::istream`: the buffer, the info and the state bits. -/
structure Istream where
  buf : StreamBuffer
  info : StreamInfo
  eofbit : Bool
  failbit : Bool

/-- `iterator::distance_to`. -/
def Iter.distanceTo (it other : Iter) : ℤ := (other.off - it.off).tdiv it.step

namespace Istream

/-- `istream::read`, which is that of `std::istream`. -/
def read (s : Istream) (n : ℕ) : List UInt8 × Istream :=
  if s.eofbit ∨ s.failbit then ([], { s with failbit := true })
  else
    let r := s.buf.xsgetn n
    if r.1.length = n then (r.1, { s with buf := r.2 })
    else (r.1, { s with buf := r.2, eofbit := true, failbit := true })

section
variable (h : Host) (order : EvaluationOrder) (V : ArithType)

/-- `operator>>( Value& )`. -/
def extractValue (s : Istream) (val : V.Val) : V.Val × Istream :=
  match s.read s.info.bytesPerSample with
  | (temp, s') => if s'.failbit then (val, s') else (h.read V s.info.format temp, s')

/-- The get area and the range of values. -/
def rangeMemory (area : List UInt8) (rng : List V.Val) : Memory :=
  ⟨fun _ => area, Function.update (fun _ _ => []) V fun _ => rng⟩

/-- `pcm::make_iterator<Value>` at a place of the get area. -/
def pcmIter (fmt : RuntimeFormat) (off : ℤ) : Iter := ⟨V, ⟨0, false⟩, .runtime fmt, 0, off⟩

/-- An iterator of the range. -/
def outIter (off : ℤ) : Iter := ⟨V, ⟨1, false⟩, .plain, 0, off⟩

/-- A range, the place up to which it is filled, and the buffer. -/
abbrev RangeState := List V.Val × ℕ × StreamBuffer

/-- The end of a pass: the loop goes on if the range is not full and there are
    characters left. -/
def rangeNext (rng : List V.Val) (out : ℕ) :
    Option StreamBuffer → Loop.Next (RangeState V) (Option (RangeState V))
  | none => .done none
  | some sb =>
    if out = rng.length then .done (some (rng, out, sb))
    else match sb.underflow with
      | (some _, sb') => .again (rng, out, sb')
      | (none, sb') => .done (some (rng, out, sb'))

/-- One pass of the loop of `operator>>( Range&& )`. -/
def rangePass (info : StreamInfo) (fuel : ℕ) :
    RangeState V → Loop.Next (RangeState V) (Option (RangeState V))
  | (rng, out, sb) =>
    let pcmBeg := pcmIter V info.format sb.gptr
    let pcmEnd := pcmIter V info.format sb.area.length
    match dispatch order (copyImpl h)
        [.iter pcmBeg, .iter pcmEnd, .iter (outIter V out), .iter (outIter V rng.length)]
        fuel (rangeMemory V sb.area rng) with
    | some (.ok [.iter first, .iter second], m) =>
      let count := wrap 32 (pcmBeg.distanceTo first * info.bytesPerSample)
      rangeNext V (m.values V 0) second.off.toNat (sb.gbump count)
    | _ => .done none

/-- `operator>>( Range&& )`. -/
def extractRange (fuel : ℕ) (s : Istream) (rng : List V.Val) : Option (List V.Val × Istream) :=
  if s.failbit ∨ rng.length = 0 then some (rng, s)
  else match s.buf.underflow with
    | (none, sb) => some (rng, { s with buf := sb, eofbit := true, failbit := true })
    | (some _, sb) =>
      match Loop.iterate (rangePass h order V s.info fuel) fuel (rng, 0, sb) with
      | some (some (rng', out, sb')) =>
        if out = rng'.length then some (rng', { s with buf := sb' })
        else some (rng'.take out ++ List.replicate (rng'.length - out) 0,
          { s with buf := sb', eofbit := true })
      | _ => none

end

end Istream

/-- `n` samples of some bytes, from offset `p` on. -/
def samples (h : Host) (V : ArithType) (f : RuntimeFormat) (D : List UInt8) (p n : ℕ) :
    List V.Val :=
  (List.range n).map fun j =>
    h.read V f (slice D (p + j * f.bitwidth.numBytes) f.bitwidth.numBytes)

/-! ## A pass -/

/-- How many samples of `w` bytes a pass converts, when the get area has `a` bytes
    left and the range has room for `r` values.  If the get area does not end with
    a sample, its end is not seen. -/
def passCount (w a r : ℕ) : ℕ := if w ∣ a then min (a / w) r else r

theorem passCount_le (w a r : ℕ) : passCount w a r ≤ r := by
  unfold passCount
  split_ifs
  · exact min_le_right _ _
  · exact le_rfl

/-- Before that many samples neither end is met. -/
theorem passCount_go {w a r j : ℕ} (hw : 0 < w) (hj : j < passCount w a r) : a ≠ j * w ∧ j ≠ r := by
  have hle := passCount_le w a r
  refine ⟨fun ha => ?_, by omega⟩
  have hdvd : w ∣ a := ⟨j, by rw [ha, Nat.mul_comm]⟩
  rw [passCount, if_pos hdvd, ha, Nat.mul_div_cancel _ hw] at hj
  omega

theorem passCount_stop (w a r : ℕ) : a = passCount w a r * w ∨ passCount w a r = r := by
  unfold passCount
  split_ifs with hdvd
  · rcases le_total (a / w) r with hle | hle
    · exact .inl (by rw [min_eq_left hle, Nat.div_mul_cancel hdvd])
    · exact .inr (min_eq_right hle)
  · exact .inr rfl

/-- The whole get area is converted. -/
theorem passCount_all {w a k r : ℕ} (hw : 0 < w) (hk : k * w = a) (hkr : k ≤ r) :
    passCount w a r = k := by
  have hdvd : w ∣ a := ⟨k, by rw [← hk, Nat.mul_comm]⟩
  rw [passCount, if_pos hdvd, ← hk, Nat.mul_div_cancel _ hw]
  exact min_eq_left hkr

namespace Istream

section
variable (h : Host) (order : EvaluationOrder) {V : ArithType}

/-- Where a pass goes on, and where it stops: at the end of the get area, or of
    the range. -/
theorem passCount_bounds (sb : StreamBuffer) {w k r p : ℕ} (hw : 0 < w)
    (hk : k = passCount w (sb.area.length - sb.gptr) r) :
    (∀ j < k, (sb.gptr : ℤ) + j * w ≠ sb.area.length ∧
      (p : ℤ) + j * (1 : ℕ) ≠ (p + r : ℕ)) ∧
    ((sb.gptr : ℤ) + k * w = sb.area.length ∨ (p : ℤ) + k * (1 : ℕ) = (p + r : ℕ)) := by
  have hsb := sb.gptr_le
  constructor
  · intro j hj
    obtain ⟨h1, h2⟩ := passCount_go hw (hk ▸ hj)
    constructor
    · intro heq
      have heq : sb.gptr + j * w = sb.area.length := by exact_mod_cast heq
      omega
    · push_cast
      omega
  · rcases passCount_stop w (sb.area.length - sb.gptr) r with h1 | h1
    · left
      rw [← hk] at h1
      have heq : sb.gptr + k * w = sb.area.length := by omega
      exact_mod_cast heq
    · right
      push_cast
      omega

/-- The conversion of a pass. -/
theorem rangePass_copy (info : StreamInfo) (pre old : List V.Val) (sb : StreamBuffer) {k : ℕ}
    (hk : k = passCount info.bytesPerSample (sb.area.length - sb.gptr) old.length) {fuel : ℕ}
    (hf : old.length < fuel) :
    dispatch order (copyImpl h)
        [.iter (pcmIter V info.format sb.gptr), .iter (pcmIter V info.format sb.area.length),
          .iter (outIter V pre.length), .iter (outIter V (pre ++ old).length)] fuel
        (rangeMemory V sb.area (pre ++ old)) =
      some (.ok [.iter ((pcmIter V info.format sb.gptr).advance k),
          .iter ((outIter V pre.length).advance k)],
        copied h (pcmIter V info.format sb.gptr) (outIter V pre.length) k
          (rangeMemory V sb.area (pre ++ old))) := by
  have hle : k ≤ old.length := hk ▸ passCount_le _ _ _
  have hstep : (pcmIter V info.format sb.gptr).step = info.bytesPerSample := rfl
  have hstep' : (outIter V pre.length).step = 1 := rfl
  obtain ⟨hgo, hstop⟩ := passCount_bounds sb (p := pre.length) info.bytesPerSample_pos hk
  rw [← List.length_append] at hgo hstop
  have hdispatch := dispatch_copy_until (h := h) order (pcmIter V info.format sb.gptr)
    (outIter V pre.length) sb.area.length (pre ++ old).length k
    (rangeMemory V sb.area (pre ++ old)) hgo hstop (show k < fuel by omega)
  have hplain : ∀ i : Iter, ¬ i.sameProxy (outIter V pre.length) :=
    fun i hi => kind_ne_plain_of_sameProxy hi rfl
  have hcopied : copied h (pcmIter V info.format sb.gptr).resolve (outIter V pre.length).resolve k
      (rangeMemory V sb.area (pre ++ old)) =
      copied h (pcmIter V info.format sb.gptr) (outIter V pre.length) k
        (rangeMemory V sb.area (pre ++ old)) :=
    copied_resolve (iff_of_false (hplain _) (hplain _)) _ _
  rw [hcopied] at hdispatch
  exact hdispatch

/-- **A pass** stores the next samples and moves the get pointer behind them, as
    far as an `int` goes. -/
theorem rangePass_eq (info : StreamInfo) (pre old : List V.Val) (sb : StreamBuffer) {k : ℕ}
    (hk : k = passCount info.bytesPerSample (sb.area.length - sb.gptr) old.length) {fuel : ℕ}
    (hf : old.length < fuel) :
    rangePass h order V info fuel (pre ++ old, pre.length, sb) =
      rangeNext V (pre ++ (samples h V info.format sb.area sb.gptr k ++ old.drop k))
        (pre.length + k) (sb.gbump (wrap 32 (k * info.bytesPerSample : ℕ))) := by
  have hle : k ≤ old.length := hk ▸ passCount_le _ _ _
  have hwpos := info.bytesPerSample_pos
  have hstep' : (outIter V pre.length).step = 1 := rfl
  have hcall := rangePass_copy h order info pre old sb hk hf
  have hvalues := copied_values (h := h) info.format ⟨0, false⟩ ⟨1, false⟩ 0 0 sb.gptr pre
    (old.take k) (old.drop k) (rangeMemory V sb.area (pre ++ old))
    (by simp [rangeMemory])
  rw [List.length_take, min_eq_left hle] at hvalues
  have hdist : (pcmIter V info.format sb.gptr).distanceTo
      ((pcmIter V info.format sb.gptr).advance k) = k := by
    rw [Iter.distanceTo, Iter.advance, add_sub_cancel_left]
    exact Int.mul_tdiv_cancel _ (by exact_mod_cast hwpos.ne')
  have hout : ((outIter V pre.length).advance k).off.toNat = pre.length + k := by
    have hoff : ((outIter V pre.length).advance k).off =
        (pre.length : ℤ) + k * (outIter V pre.length).step := rfl
    rw [hoff, hstep']
    omega
  simp only [rangePass, hcall, hdist, hout]
  rw [show (copied h (pcmIter V info.format sb.gptr) (outIter V pre.length) k
    (rangeMemory V sb.area (pre ++ old))).values V 0 = _ from hvalues]
  rfl

end

end Istream

/-! ## Samples -/

section
variable {h : Host} {V : ArithType} {f : RuntimeFormat}

@[simp] theorem length_samples (D : List UInt8) (p n : ℕ) : (samples h V f D p n).length = n := by
  rw [samples, List.length_map, List.length_range]

theorem samples_add (D : List UInt8) (p m n : ℕ) :
    samples h V f D p (m + n) =
      samples h V f D p m ++ samples h V f D (p + m * f.bitwidth.numBytes) n := by
  rw [samples, List.range_add, List.map_append, List.map_map]
  refine congrArg _ (List.map_congr_left fun j _ => ?_)
  have hpos : p + (m + j) * f.bitwidth.numBytes =
      p + m * f.bitwidth.numBytes + j * f.bitwidth.numBytes := by ring
  rw [Function.comp, hpos]

theorem samples_drop (D : List UInt8) (p q n : ℕ) :
    samples h V f (D.drop q) p n = samples h V f D (q + p) n := by
  refine List.map_congr_left fun j _ => ?_
  rw [slice_drop, Nat.add_assoc]

/-- The first `k` samples, and then those of the bytes behind them. -/
theorem samples_cut {D D' : List UInt8} {k r : ℕ} (hkr : k ≤ r)
    (hD : D' = D.drop (k * f.bitwidth.numBytes)) :
    samples h V f D 0 r = samples h V f D 0 k ++ samples h V f D' 0 (r - k) := by
  have hadd := samples_add (h := h) (V := V) (f := f) D 0 k (r - k)
  rw [Nat.add_sub_cancel' hkr] at hadd
  rw [hadd, hD, samples_drop, Nat.zero_add, Nat.add_zero]

theorem samples_one (D : List UInt8) :
    samples h V f D 0 1 = [h.read V f (D.take f.bitwidth.numBytes)] := by
  simp [samples, slice]

/-- The samples of the get area are those of the bytes to come. -/
theorem samples_rest (sb : StreamBuffer) {n : ℕ}
    (hn : n * f.bitwidth.numBytes ≤ sb.area.length - sb.gptr) :
    samples h V f sb.area sb.gptr n = samples h V f sb.rest 0 n := by
  refine List.map_congr_left fun j hj => ?_
  have hj := Nat.mul_le_mul_right f.bitwidth.numBytes (Nat.succ_le_of_lt (List.mem_range.1 hj))
  rw [Nat.succ_mul] at hj
  have hdrop : j * f.bitwidth.numBytes ≤ (sb.area.drop sb.gptr).length := by
    rw [List.length_drop]
    omega
  rw [Nat.zero_add, StreamBuffer.rest, slice, slice, List.drop_append_of_le_length hdrop,
    List.take_append_of_le_length (by simp only [List.length_drop]; omega), List.drop_drop]

end

/-! ## Filling a range -/

namespace Istream

open StreamBuffer

section
variable (h : Host) (order : EvaluationOrder) {V : ArithType} {info : StreamInfo}

/-- The last pass: the get area holds what the range still has room for. -/
theorem rangePass_last (pre : List V.Val) {old : List V.Val} {sb : StreamBuffer}
    (hw : sb.Whole info.bytesPerSample)
    (hfit : old.length * info.bytesPerSample ≤ sb.area.length - sb.gptr)
    (hint : old.length * info.bytesPerSample < 2 ^ 31) {fuel : ℕ} (hf : old.length < fuel) :
    ∃ sb', rangePass h order V info fuel (pre ++ old, pre.length, sb) =
        .done (some (pre ++ samples h V info.format sb.rest 0 old.length, (pre ++ old).length,
          sb')) ∧
      sb'.rest = sb.rest.drop (old.length * info.bytesPerSample) ∧
      sb'.Whole info.bytesPerSample ∧
      sb'.lengths = skip sb.lengths (old.length * info.bytesPerSample) := by
  have hdvd : info.bytesPerSample ∣ sb.area.length - sb.gptr := hw.dvd _ List.mem_cons_self
  have hcount : passCount info.bytesPerSample (sb.area.length - sb.gptr) old.length =
      old.length := by
    rw [passCount, if_pos hdvd]
    exact min_eq_right ((Nat.le_div_iff_mul_le info.bytesPerSample_pos).2 hfit)
  have hpass := rangePass_eq h order info pre old sb hcount.symm hf
  obtain ⟨sb', hbump, hrest, hblocks, hskip⟩ := gbump_spec hfit
  rw [(wrap_natCast 31 _).2.2 hint, hbump, samples_rest sb hfit, List.drop_length, List.append_nil,
    rangeNext, if_pos (by rw [List.length_append, length_samples]), ← List.length_append] at hpass
  refine ⟨sb', hpass, hrest, ⟨?_, fun b hb => hw.filled b (hblocks ▸ hb)⟩, hskip⟩
  rw [hskip]
  exact dvd_of_mem_skip hw.dvd (Nat.dvd_mul_left _ _)

/-- Any other pass uses up the get area, and what it does then is up to the
    refill. -/
theorem rangePass_drained (pre : List V.Val) {old : List V.Val} {sb : StreamBuffer} {k : ℕ}
    (hk : k * info.bytesPerSample = sb.area.length - sb.gptr) (hmore : k < old.length)
    (hint : k * info.bytesPerSample < 2 ^ 31) {fuel : ℕ} (hf : old.length < fuel) :
    ∃ sb₁ : StreamBuffer, sb₁.rest = sb.rest.drop (k * info.bytesPerSample) ∧
      sb₁.blocks = sb.blocks ∧ sb₁.lengths = skip sb.lengths (k * info.bytesPerSample) ∧
      (∀ c sb', sb₁.underflow = (some c, sb') →
        rangePass h order V info fuel (pre ++ old, pre.length, sb) =
          .again ((pre ++ samples h V info.format sb.rest 0 k) ++ old.drop k, pre.length + k,
            sb')) ∧
      ∀ sb', sb₁.underflow = (none, sb') →
        rangePass h order V info fuel (pre ++ old, pre.length, sb) =
          .done (some ((pre ++ samples h V info.format sb.rest 0 k) ++ old.drop k, pre.length + k,
            sb')) := by
  have hcount : passCount info.bytesPerSample (sb.area.length - sb.gptr) old.length = k :=
    passCount_all info.bytesPerSample_pos hk hmore.le
  have hpass := rangePass_eq h order info pre old sb hcount.symm hf
  obtain ⟨sb₁, hbump, hrest, hblocks, hskip⟩ := gbump_spec hk.le
  have hopen : pre.length + k ≠
      (pre ++ (samples h V info.format sb.area sb.gptr k ++ old.drop k)).length := by
    simp only [List.length_append, length_samples, List.length_drop]
    omega
  rw [(wrap_natCast 31 _).2.2 hint, hbump, rangeNext, if_neg hopen, ← List.append_assoc,
    samples_rest sb hk.le] at hpass
  refine ⟨sb₁, hrest, hblocks, hskip, ?_, ?_⟩
  · intro c sb' hunder
    rw [hpass, hunder]
  · intro sb' hunder
    rw [hpass, hunder]

/-- It goes on if there are bytes left. -/
theorem rangePass_again (pre : List V.Val) {old : List V.Val} {sb : StreamBuffer} {k : ℕ}
    (hw : sb.Whole info.bytesPerSample) (hk : k * info.bytesPerSample = sb.area.length - sb.gptr)
    (hmore : k < old.length) (hroom : k * info.bytesPerSample < sb.rest.length)
    (hint : k * info.bytesPerSample < 2 ^ 31) {fuel : ℕ} (hf : old.length < fuel) :
    ∃ sb', rangePass h order V info fuel (pre ++ old, pre.length, sb) =
        .again ((pre ++ samples h V info.format sb.rest 0 k) ++ old.drop k, pre.length + k, sb') ∧
      sb'.gptr < sb'.area.length ∧
      sb'.rest = sb.rest.drop (k * info.bytesPerSample) ∧
      sb'.Whole info.bytesPerSample ∧
      Refilled (skip sb.lengths (k * info.bytesPerSample)) sb'.lengths := by
  obtain ⟨sb₁, hrest, hblocks, hskip, hpass, -⟩ := rangePass_drained h order pre hk hmore hint hf
  have hne : sb₁.rest ≠ [] := by
    refine List.ne_nil_of_length_pos ?_
    rw [hrest, List.length_drop]
    omega
  obtain ⟨c, sb', hunder, hlt, hrest', hf', hre⟩ :=
    underflow_spec (fun b hb => hw.filled b (hblocks ▸ hb)) hne
  rw [hskip] at hre
  exact ⟨sb', hpass c sb' hunder, hlt, hrest'.trans hrest,
    ⟨hre.dvd (dvd_of_mem_skip hw.dvd (Nat.dvd_mul_left _ _)), hf'⟩, hre⟩

/-- The stream buffer behind a pass that has taken `k` of `N` samples to come. -/
structure Advanced (V : ArithType) (info : StreamInfo) (sb : StreamBuffer) (N k : ℕ)
    (sb' : StreamBuffer) : Prop where
  pos : 0 < k
  lt : k < N
  inside : sb'.gptr < sb'.area.length
  whole : sb'.Whole info.bytesPerSample
  length : sb'.rest.length + k * info.bytesPerSample = sb.rest.length
  fits : ∀ c ∈ cut sb'.lengths ((N - k) * info.bytesPerSample), c < 2 ^ 31
  samples : samples h V info.format sb.rest 0 N =
    samples h V info.format sb.rest 0 k ++ samples h V info.format sb'.rest 0 (N - k)
  drop : sb'.rest.drop ((N - k) * info.bytesPerSample) = sb.rest.drop (N * info.bytesPerSample)
  skip : skip sb'.lengths ((N - k) * info.bytesPerSample) =
    skip sb.lengths (N * info.bytesPerSample)

/-- **A pass** towards more samples than the get area holds. -/
theorem rangePass_advanced (pre : List V.Val) {old : List V.Val} {sb : StreamBuffer} {N : ℕ}
    (hlt : sb.gptr < sb.area.length) (hw : sb.Whole info.bytesPerSample) (hN : N ≤ old.length)
    (hfar : sb.area.length - sb.gptr < N * info.bytesPerSample)
    (hroom : N * info.bytesPerSample ≤ sb.rest.length)
    (hcut : ∀ c ∈ cut sb.lengths (N * info.bytesPerSample), c < 2 ^ 31) {fuel : ℕ}
    (hf : old.length < fuel) :
    ∃ k sb', Advanced h V info sb N k sb' ∧
      rangePass h order V info fuel (pre ++ old, pre.length, sb) =
        .again ((pre ++ samples h V info.format sb.rest 0 k) ++ old.drop k, pre.length + k,
          sb') := by
  have hwpos := info.bytesPerSample_pos
  obtain ⟨k, hk⟩ : ∃ k, k * info.bytesPerSample = sb.area.length - sb.gptr :=
    ⟨_, Nat.div_mul_cancel (hw.dvd _ List.mem_cons_self)⟩
  have hkpos : 0 < k := Nat.pos_of_mul_pos_right (by rw [hk]; omega)
  have hkN : k < N := Nat.lt_of_mul_lt_mul_right (hk.trans_lt hfar)
  have hsplit : N * info.bytesPerSample =
      k * info.bytesPerSample + (N - k) * info.bytesPerSample := by
    rw [← Nat.add_mul, Nat.add_sub_cancel' hkN.le]
  have hleft : 0 < (N - k) * info.bytesPerSample := Nat.mul_pos (by omega) hwpos
  rw [hsplit] at hcut hroom
  have hint : k * info.bytesPerSample < 2 ^ 31 := by
    rw [lengths, cut_more (by omega), List.forall_mem_cons, ← hk] at hcut
    exact hcut.1
  obtain ⟨sb', hpass, hlt', hrest, hw', hre⟩ :=
    rangePass_again h order pre hw hk (by omega) (by omega) hint hf
  refine ⟨k, sb', ⟨hkpos, hkN, hlt', hw', ?_, ?_, samples_cut hkN.le hrest, ?_, ?_⟩, hpass⟩
  · rw [hrest, List.length_drop]
    omega
  · exact ((hre.forall_cut_add hk hleft (Nat.two_pow_pos 31)).1 hcut).2
  · rw [hrest, List.drop_drop, hsplit]
  · rw [hre.skip_eq hleft, skip_skip, hsplit]

/-- **A range is filled** with the samples to come, wherever the blocks end, as
    long as an `int` holds the bytes that a pass takes. -/
theorem range_full (pre : List V.Val) {old : List V.Val} {sb : StreamBuffer} (hold : 0 < old.length)
    (hlt : sb.gptr < sb.area.length) (hw : sb.Whole info.bytesPerSample)
    (hroom : old.length * info.bytesPerSample ≤ sb.rest.length)
    (hcut : ∀ c ∈ cut sb.lengths (old.length * info.bytesPerSample), c < 2 ^ 31) {fuel n : ℕ}
    (hf : old.length < fuel) (hn : old.length ≤ n) :
    ∃ sb', Loop.iterate (rangePass h order V info fuel) n (pre ++ old, pre.length, sb) =
        some (some (pre ++ samples h V info.format sb.rest 0 old.length, (pre ++ old).length,
          sb')) ∧
      sb'.rest = sb.rest.drop (old.length * info.bytesPerSample) ∧
      sb'.Whole info.bytesPerSample ∧
      sb'.lengths = skip sb.lengths (old.length * info.bytesPerSample) := by
  obtain ⟨r, hr⟩ : ∃ r, old.length = r := ⟨_, rfl⟩
  induction r using Nat.strong_induction_on generalizing pre old sb n with
  | _ r ih =>
    obtain ⟨n, rfl⟩ : ∃ j, n = j + 1 := ⟨n - 1, by omega⟩
    by_cases hfit : old.length * info.bytesPerSample ≤ sb.area.length - sb.gptr
    · rw [lengths, cut_fit hfit] at hcut
      obtain ⟨sb', hpass, hrest, hw', hskip⟩ := rangePass_last h order pre hw hfit
        (hcut _ (List.mem_singleton_self _)) hf
      exact ⟨sb', Loop.iterate_done hpass n, hrest, hw', hskip⟩
    · obtain ⟨k, sb₂, ha, hpass⟩ :=
        rangePass_advanced h order pre hlt hw le_rfl (not_le.1 hfit) hroom hcut hf
      have hkpos := ha.pos
      have hkr := ha.lt
      have hdrop : (old.drop k).length = old.length - k := List.length_drop
      have hcut₂ := ha.fits
      have hroom₂ : (old.length - k) * info.bytesPerSample ≤ sb₂.rest.length := by
        have hlength := ha.length
        rw [Nat.sub_mul]
        omega
      rw [← hdrop] at hcut₂ hroom₂
      obtain ⟨sb', hloop, hrest', hw', hskip'⟩ := ih (old.drop k).length (by omega)
        (pre ++ samples h V info.format sb.rest 0 k) (by omega) ha.inside ha.whole hroom₂ hcut₂
        (by omega) (show (old.drop k).length ≤ n by omega) rfl
      rw [hdrop] at hloop hrest' hskip'
      rw [List.length_append, length_samples] at hloop
      refine ⟨sb', ?_, hrest'.trans ha.drop, hw', hskip'.trans ha.skip⟩
      have hlength : (pre ++ samples h V info.format sb.rest 0 k ++ old.drop k).length =
          (pre ++ old).length := by
        simp only [List.length_append, length_samples, List.length_drop]
        omega
      rw [Loop.iterate_again hpass, hloop, ha.samples, List.append_assoc, hlength]

/-- **What a pass leads to**, in a loop that ends well: it is the last one, or
    the loop goes on behind it. -/
theorem range_inv (pre : List V.Val) {old : List V.Val} {sb : StreamBuffer} {fuel n : ℕ}
    (hf : old.length < fuel) {rng : List V.Val} {out : ℕ} {sb' : StreamBuffer}
    (hit : Loop.iterate (rangePass h order V info fuel) (n + 1) (pre ++ old, pre.length, sb) =
      some (some (rng, out, sb'))) :
    ∃ k sb₁, k = passCount info.bytesPerSample (sb.area.length - sb.gptr) old.length ∧
      sb.gbump (wrap 32 (k * info.bytesPerSample : ℕ)) = some sb₁ ∧
      ((out = pre.length + k ∧ rng.length = pre.length + old.length ∧
          (k = old.length ∧ sb' = sb₁ ∨ k < old.length ∧ sb₁.underflow = (none, sb'))) ∨
        k < old.length ∧ ∃ c sb₂, sb₁.underflow = (some c, sb₂) ∧ ∃ pre' : List V.Val,
          pre'.length = pre.length + k ∧
          Loop.iterate (rangePass h order V info fuel) n
            (pre' ++ old.drop k, pre'.length, sb₂) = some (some (rng, out, sb'))) := by
  obtain ⟨k, hk⟩ : ∃ k, k = passCount info.bytesPerSample (sb.area.length - sb.gptr) old.length :=
    ⟨_, rfl⟩
  have hkr : k ≤ old.length := hk ▸ passCount_le _ _ _
  have hpass := rangePass_eq h order info pre old sb hk hf
  have hlength : (pre ++ (samples h V info.format sb.area sb.gptr k ++ old.drop k)).length =
      pre.length + old.length := by
    simp only [List.length_append, length_samples, List.length_drop]
    omega
  cases hbump : sb.gbump (wrap 32 (k * info.bytesPerSample : ℕ)) with
  | none =>
    rw [hbump] at hpass
    rw [Loop.iterate_done hpass] at hit
    cases hit
  | some sb₁ =>
    refine ⟨k, sb₁, hk, hbump, ?_⟩
    rw [hbump, rangeNext, hlength] at hpass
    by_cases hfull : pre.length + k = pre.length + old.length
    · rw [if_pos hfull] at hpass
      rw [Loop.iterate_done hpass] at hit
      simp only [Option.some.injEq, Prod.mk.injEq] at hit
      obtain ⟨rfl, rfl, rfl⟩ := hit
      exact .inl ⟨rfl, hlength, .inl ⟨by omega, rfl⟩⟩
    · rw [if_neg hfull] at hpass
      rcases hunder : sb₁.underflow with ⟨_ | c, sb₂⟩
      · rw [hunder] at hpass
        rw [Loop.iterate_done hpass] at hit
        simp only [Option.some.injEq, Prod.mk.injEq] at hit
        obtain ⟨rfl, rfl, rfl⟩ := hit
        exact .inl ⟨rfl, hlength, .inr ⟨by omega, rfl⟩⟩
      · rw [hunder] at hpass
        have hpre : (pre ++ samples h V info.format sb.area sb.gptr k).length =
            pre.length + k := by
          rw [List.length_append, length_samples]
        rw [Loop.iterate_again hpass, ← List.append_assoc, ← hpre] at hit
        exact .inr ⟨by omega, c, sb₂, rfl, _, hpre, hit⟩

/-- The loop has consumed no more than what it has stored. -/
theorem range_bound (pre : List V.Val) {old : List V.Val} {sb : StreamBuffer} {fuel n : ℕ}
    (hf : old.length < fuel) {rng : List V.Val} {out : ℕ} {sb' : StreamBuffer}
    (hit : Loop.iterate (rangePass h order V info fuel) n (pre ++ old, pre.length, sb) =
      some (some (rng, out, sb'))) :
    (sb.Filled → sb'.Filled) ∧ rng.length = pre.length + old.length ∧
      ∃ m ≤ old.length, out = pre.length + m ∧
        sb.rest.length ≤ sb'.rest.length + m * info.bytesPerSample := by
  induction n generalizing pre old sb with
  | zero => cases hit
  | succ n ih =>
    obtain ⟨k, sb₁, hk, hbump, hnext⟩ := range_inv h order pre hf hit
    have hkr : k ≤ old.length := hk ▸ passCount_le _ _ _
    obtain ⟨hblocks, hrest₁⟩ := gbump_inv hbump
    have hwrap : wrap 32 (k * info.bytesPerSample : ℕ) ≤ (k * info.bytesPerSample : ℕ) :=
      (wrap_natCast 31 _).1
    have hf₁ : sb.Filled → sb₁.Filled := fun hf b hb => hf b (hblocks ▸ hb)
    rcases hnext with ⟨hout, hlength, ⟨-, rfl⟩ | ⟨-, hunder⟩⟩ |
      ⟨hmore, c, sb₂, hunder, pre', hpre', hit'⟩
    · exact ⟨hf₁, hlength, k, hkr, hout, by omega⟩
    · have hrest := rest_underflow sb₁
      rw [hunder] at hrest
      refine ⟨fun hf => ?_, hlength, k, hkr, hout, by rw [hrest]; omega⟩
      have hf' := filled_underflow (hf₁ hf)
      rwa [hunder] at hf'
    · have hrest := rest_underflow sb₁
      rw [hunder] at hrest
      obtain ⟨hf', hlength, m, hm, hout, hle⟩ := ih pre' (by rw [List.length_drop]; omega) hit'
      rw [List.length_drop] at hlength hm
      rw [hrest] at hle
      refine ⟨fun hf => hf' ?_, by omega, k + m, by omega, by omega, ?_⟩
      · have hf₂ := filled_underflow (hf₁ hf)
        rwa [hunder] at hf₂
      · rw [Nat.add_mul]
        omega

/-- From a get area whose size an `int` makes 0, the loop does not get away. -/
theorem range_stuck (pre : List V.Val) {old : List V.Val} {sb : StreamBuffer} {fuel n : ℕ}
    (hf : old.length < fuel) {rng : List V.Val} {out : ℕ} {sb' : StreamBuffer}
    (hdvd : 2 ^ 32 ∣ sb.area.length - sb.gptr) (hlt : sb.gptr < sb.area.length)
    (hit : Loop.iterate (rangePass h order V info fuel) n (pre ++ old, pre.length, sb) =
      some (some (rng, out, sb'))) : sb'.rest ≠ [] := by
  induction n generalizing pre old sb with
  | zero => cases hit
  | succ n ih =>
    obtain ⟨k, sb₁, hk, hbump, hnext⟩ := range_inv h order pre hf hit
    have hbig := Nat.le_of_dvd (by omega) hdvd
    -- unless the range is full, the pass takes all and moves nowhere
    have hsame : k < old.length → sb₁ = sb := by
      intro hmore
      have hall : k * info.bytesPerSample = sb.area.length - sb.gptr := by
        rcases passCount_stop info.bytesPerSample (sb.area.length - sb.gptr) old.length with h | h
        · rw [← hk] at h
          exact h.symm
        · omega
      have hzero : wrap 32 (k * info.bytesPerSample : ℕ) = 0 := by
        rw [hall]
        exact Int.bmod_eq_zero_of_dvd (by exact_mod_cast hdvd)
      rw [hzero, gbump_zero] at hbump
      exact (Option.some.inj hbump).symm
    rcases hnext with ⟨-, -, ⟨-, rfl⟩ | ⟨hmore, hunder⟩⟩ |
      ⟨hmore, c, sb₂, hunder, pre', -, hit'⟩
    · obtain ⟨-, hrest⟩ := gbump_inv hbump
      have hint : wrap 32 (k * info.bytesPerSample : ℕ) < 2 ^ 31 := wrap_lt 31 _
      have hle := area_le_rest sb
      refine List.ne_nil_of_length_pos ?_
      omega
    · obtain ⟨c, hcur⟩ := underflow_of_lt hlt
      rw [hsame hmore, hcur] at hunder
      cases hunder
    · obtain ⟨c, hcur⟩ := underflow_of_lt hlt
      rw [hsame hmore, hcur] at hunder
      cases hunder
      exact ih pre' (by rw [List.length_drop]; omega) hdvd hlt hit'

/-- How many samples a pass takes. -/
theorem passCount_spec {sb : StreamBuffer} {w k r : ℕ} (hw : sb.Whole w) (hwpos : 0 < w)
    (hlt : sb.gptr < sb.area.length) (hr : 0 < r)
    (hk : k = passCount w (sb.area.length - sb.gptr) r) :
    0 < k ∧ k ≤ r ∧ k * w ≤ sb.area.length - sb.gptr ∧
      (k < r → k * w = sb.area.length - sb.gptr) := by
  have hdvd : w ∣ sb.area.length - sb.gptr := hw.dvd _ List.mem_cons_self
  have hkr : k ≤ r := hk ▸ passCount_le _ _ _
  rw [passCount, if_pos hdvd] at hk
  refine ⟨?_, hkr, ?_, fun hmore => ?_⟩
  · have hpos := Nat.div_pos (Nat.le_of_dvd (by omega) hdvd) hwpos
    omega
  · exact (Nat.le_div_iff_mul_le hwpos).1 (hk.trans_le (min_le_left _ _))
  · rw [hk, min_eq_left (by omega), Nat.div_mul_cancel hdvd]

/-- An `int` does not hold the count, and the get pointer stays behind. -/
theorem gbump_behind {sb sb₁ : StreamBuffer} {a : ℕ} (hbump : sb.gbump (wrap 32 a) = some sb₁)
    (hbig : ¬ a < 2 ^ 31) (hfit : a ≤ sb.area.length - sb.gptr) :
    sb.rest.length < sb₁.rest.length + a ∧ sb₁.rest ≠ [] := by
  have harea := area_le_rest sb
  obtain ⟨-, hrest⟩ := gbump_inv hbump
  obtain ⟨hwrap, hint⟩ : wrap 32 a ≤ a ∧ (wrap 32 a = a ↔ a < 2 ^ 31) := wrap_natCast 31 a
  have hless : wrap 32 a < a := lt_of_le_of_ne hwrap fun heq => hbig (hint.1 heq)
  have hlater : sb.rest.length < sb₁.rest.length + a := by
    have hlater : (sb.rest.length : ℤ) < sb₁.rest.length + a :=
      lt_of_eq_of_lt hrest.symm (Int.add_lt_add_left hless _)
    exact_mod_cast hlater
  exact ⟨hlater, List.ne_nil_of_length_pos <|
    Nat.lt_add_left_iff_pos.1 ((hfit.trans harea).trans_lt hlater)⟩

/-- Then what is left of a get area that has been taken as a whole has a size
    that an `int` makes 0. -/
theorem gbump_behind_all {sb sb₁ : StreamBuffer} {a : ℕ}
    (hbump : sb.gbump (wrap 32 a) = some sb₁) (hbig : ¬ a < 2 ^ 31)
    (hall : a = sb.area.length - sb.gptr) :
    2 ^ 32 ∣ sb₁.area.length - sb₁.gptr ∧ sb₁.gptr < sb₁.area.length := by
  obtain ⟨hwrap, hint⟩ : wrap 32 a ≤ a ∧ (wrap 32 a = a ↔ a < 2 ^ 31) := wrap_natCast 31 a
  have hless : wrap 32 a < a := lt_of_le_of_ne hwrap fun heq => hbig (hint.1 heq)
  have hleft := gbump_left hbump
  rw [← hall] at hleft
  constructor
  · have hdvd := Int.dvd_self_sub_bmod (x := (a : ℤ)) (m := 2 ^ 32)
    rw [wrap] at hleft
    rw [← hleft] at hdvd
    exact_mod_cast hdvd
  · have hpos : (0 : ℤ) < (sb₁.area.length - sb₁.gptr : ℕ) := by
      rw [hleft]
      exact Int.sub_pos_of_lt hless
    clear hleft hless hint hwrap
    omega

/-- If an `int` does not hold what a pass takes, less is consumed than stored, and
    something is left. -/
theorem range_behind (pre : List V.Val) {old : List V.Val} {sb : StreamBuffer}
    (hold : 0 < old.length) {fuel n : ℕ} (hf : old.length < fuel)
    (hw : sb.Whole info.bytesPerSample) (hlt : sb.gptr < sb.area.length)
    (hbig : ¬ passCount info.bytesPerSample (sb.area.length - sb.gptr) old.length *
      info.bytesPerSample < 2 ^ 31) {rng : List V.Val} {out : ℕ} {sb' : StreamBuffer}
    (hit : Loop.iterate (rangePass h order V info fuel) (n + 1) (pre ++ old, pre.length, sb) =
      some (some (rng, out, sb'))) :
    ∃ m, 0 < m ∧ m ≤ old.length ∧ out = pre.length + m ∧
      sb.rest.length < sb'.rest.length + m * info.bytesPerSample ∧ sb'.rest ≠ [] := by
  obtain ⟨k, sb₁, hk, hbump, hnext⟩ := range_inv h order pre hf hit
  obtain ⟨hkpos, hkr, hfit, hka⟩ := passCount_spec hw info.bytesPerSample_pos hlt hold hk
  rw [← hk] at hbig
  obtain ⟨hlater, hne⟩ := gbump_behind hbump hbig hfit
  rcases hnext with ⟨hout, -, ⟨-, rfl⟩ | ⟨-, hunder⟩⟩ |
    ⟨hmore, c, sb₂, hunder, pre', hpre', hit'⟩
  · exact ⟨k, hkpos, hkr, hout, hlater, hne⟩
  · obtain ⟨hblocks, -⟩ := gbump_inv hbump
    obtain ⟨c, sb₂, hunder', -⟩ := underflow_spec (fun b hb => hw.filled b (hblocks ▸ hb)) hne
    rw [hunder] at hunder'
    cases hunder'
  · obtain ⟨hstuck, hlt₁⟩ := gbump_behind_all hbump hbig (hka hmore)
    obtain ⟨c', hcur⟩ := underflow_of_lt hlt₁
    obtain rfl : sb₁ = sb₂ := (Prod.mk.inj (hcur.symm.trans hunder)).2
    have hdrop : (old.drop k).length < fuel := by rw [List.length_drop]; omega
    obtain ⟨-, -, m, hm, hout, hle⟩ := range_bound h order pre' hdrop hit'
    rw [List.length_drop] at hm
    refine ⟨k + m, by omega, by omega, by omega, ?_,
      range_stuck h order pre' hdrop hstuck hlt₁ hit'⟩
    rw [Nat.add_mul]
    omega

/-- **All or less.**  The loop has consumed what it has stored, and an `int` held
    what each pass took; or it has consumed less and left something. -/
theorem range_account (pre : List V.Val) {old : List V.Val} {sb : StreamBuffer}
    (hold : 0 < old.length) {fuel n : ℕ} (hf : old.length < fuel)
    (hw : sb.Whole info.bytesPerSample) (hlt : sb.gptr < sb.area.length) {rng : List V.Val}
    {out : ℕ} {sb' : StreamBuffer}
    (hit : Loop.iterate (rangePass h order V info fuel) n (pre ++ old, pre.length, sb) =
      some (some (rng, out, sb'))) :
    ∃ m, 0 < m ∧ m ≤ old.length ∧ out = pre.length + m ∧
      ((sb.rest.length = sb'.rest.length + m * info.bytesPerSample ∧
          ∀ c ∈ cut sb.lengths (m * info.bytesPerSample), c < 2 ^ 31) ∨
        sb.rest.length < sb'.rest.length + m * info.bytesPerSample ∧ sb'.rest ≠ []) := by
  have hwpos := info.bytesPerSample_pos
  induction n generalizing pre old sb with
  | zero => cases hit
  | succ n ih =>
    obtain ⟨k, sb₁, hk, hbump, hnext⟩ := range_inv h order pre hf hit
    obtain ⟨hkpos, hkr, hfit, hka⟩ := passCount_spec hw hwpos hlt hold hk
    by_cases hsmall : k * info.bytesPerSample < 2 ^ 31
    · rw [(wrap_natCast 31 (k * info.bytesPerSample)).2.2 hsmall] at hbump
      obtain ⟨-, hrest₁⟩ := gbump_inv hbump
      have hone : ∀ c ∈ cut sb.lengths (k * info.bytesPerSample), c < 2 ^ 31 := by
        rw [lengths, cut_fit hfit, List.forall_mem_singleton]
        exact hsmall
      rcases hnext with ⟨hout, -, ⟨-, rfl⟩ | ⟨-, hunder⟩⟩ |
        ⟨hmore, c, sb₂, hunder, pre', hpre', hit'⟩
      · exact ⟨k, hkpos, hkr, hout, .inl ⟨by omega, hone⟩⟩
      · have hrest : sb'.rest = sb₁.rest := by
          have := rest_underflow sb₁
          rwa [hunder] at this
        exact ⟨k, hkpos, hkr, hout, .inl ⟨by rw [hrest]; omega, hone⟩⟩
      · obtain ⟨sb₃, hbump', -, hblocks, hskip⟩ := gbump_spec hfit
        obtain rfl : sb₁ = sb₃ := Option.some.inj (hbump.symm.trans hbump')
        obtain ⟨c', sb₃, hunder', hlt₂, hrest₂, hf₂, hre⟩ := underflow_spec
          (fun b hb => hw.filled b (hblocks ▸ hb)) (rest_ne_nil_of_underflow hunder)
        obtain rfl : sb₂ = sb₃ := (Prod.mk.inj (hunder.symm.trans hunder')).2
        rw [hskip] at hre
        obtain ⟨m, hmpos, hm, hout, haccount⟩ := ih pre' (by rw [List.length_drop]; omega)
          (by rw [List.length_drop]; omega)
          ⟨hre.dvd (dvd_of_mem_skip hw.dvd (Nat.dvd_mul_left _ _)), hf₂⟩ hlt₂ hit'
        rw [List.length_drop] at hm
        rw [hrest₂] at haccount
        refine ⟨k + m, by omega, by omega, by omega, ?_⟩
        rw [Nat.add_mul,
          hre.forall_cut_add (hka hmore) (Nat.mul_pos hmpos hwpos) (Nat.two_pow_pos 31)]
        rcases haccount with ⟨hall, hcut⟩ | ⟨hless, hne⟩
        · exact .inl ⟨by omega, hsmall, hcut⟩
        · exact .inr ⟨by omega, hne⟩
    · rw [hk] at hsmall
      obtain ⟨m, hmpos, hm, hout, hbehind⟩ := range_behind h order pre hold hf hw hlt hsmall hit
      exact ⟨m, hmpos, hm, hout, .inr hbehind⟩

end

end Istream

end NiMedia
