/-
  Extracting a range (`operator>>( Range&& )` of `audio/istream.h`).

  * `extracts_iff`: what a range gets, what is consumed, and which bits are set,
    with any number of samples to come, unless a pass takes more bytes than an
    `int` holds.
  * `silent_iff`: when the end of a range that is longer than the stream is
    silent.
-/
import NiMedia.Audio.Reading
import NiMedia.Pcm.Limits
import Mathlib.Algebra.BigOperators.Ring.List

namespace NiMedia

open Bytes Words StreamBuffer

namespace Istream

section
variable (h : Host) (order : EvaluationOrder) {V : ArithType} {info : StreamInfo}

/-! ## The end of the stream -/

/-- The pass that meets the end of the stream. -/
theorem rangePass_end (pre : List V.Val) {old : List V.Val} {sb : StreamBuffer} {k : ℕ}
    (hk : k * info.bytesPerSample = sb.area.length - sb.gptr)
    (hmore : k < old.length) (hend : sb.rest.length = k * info.bytesPerSample)
    (hint : k * info.bytesPerSample < 2 ^ 31) {fuel : ℕ} (hf : old.length < fuel) :
    ∃ sb', rangePass h order V info fuel (pre ++ old, pre.length, sb) =
        .done (some ((pre ++ samples h V info.format sb.rest 0 k) ++ old.drop k, pre.length + k,
          sb')) ∧ sb'.rest = [] := by
  obtain ⟨sb₁, hrest, -, -, -, hpass⟩ := rangePass_drained h order pre hk hmore hint hf
  have hnil : sb₁.rest = [] := by rw [hrest, ← hend, List.drop_length]
  obtain ⟨sb', hunder, hrest'⟩ := underflow_end hnil
  exact ⟨sb', hpass sb' hunder, hrest'⟩

/-- **The samples to come** are stored, and the rest of the range is left open. -/
theorem range_short (pre : List V.Val) {old : List V.Val} {sb : StreamBuffer} {R : ℕ}
    (hR : sb.rest.length = R * info.bytesPerSample) (hlt : sb.gptr < sb.area.length)
    (hw : sb.Whole info.bytesPerSample) (hshort : R < old.length)
    (hcut : ∀ c ∈ cut sb.lengths (R * info.bytesPerSample), c < 2 ^ 31) {fuel n : ℕ}
    (hf : old.length < fuel) (hn : R ≤ n) :
    ∃ sb', Loop.iterate (rangePass h order V info fuel) n (pre ++ old, pre.length, sb) =
        some (some ((pre ++ samples h V info.format sb.rest 0 R) ++ old.drop R, pre.length + R,
          sb')) ∧ sb'.rest = [] := by
  induction R using Nat.strong_induction_on generalizing pre old sb n with
  | _ R ih =>
    have harea := area_le_rest sb
    have hRpos : 0 < R := Nat.pos_of_mul_pos_right (by rw [← hR]; omega)
    obtain ⟨n, rfl⟩ : ∃ j, n = j + 1 := ⟨n - 1, by omega⟩
    by_cases hfit : R * info.bytesPerSample ≤ sb.area.length - sb.gptr
    · have hall : R * info.bytesPerSample = sb.area.length - sb.gptr := by omega
      rw [lengths, cut_fit hfit, List.forall_mem_singleton] at hcut
      obtain ⟨sb', hpass, hrest⟩ := rangePass_end h order pre hall hshort hR hcut hf
      exact ⟨sb', Loop.iterate_done hpass n, hrest⟩
    · obtain ⟨k, sb₂, ha, hpass⟩ :=
        rangePass_advanced h order pre hlt hw hshort.le (not_le.1 hfit) hR.ge hcut hf
      have hkpos := ha.pos
      have hkR := ha.lt
      have hdrop : (old.drop k).length = old.length - k := List.length_drop
      have hR₂ : sb₂.rest.length = (R - k) * info.bytesPerSample := by
        have hlength := ha.length
        rw [Nat.sub_mul]
        omega
      obtain ⟨sb', hloop, hrest⟩ := ih (R - k) (by omega)
        (pre ++ samples h V info.format sb.rest 0 k) hR₂ ha.inside ha.whole
        (show R - k < (old.drop k).length by omega) ha.fits (by omega) (show R - k ≤ n by omega)
      rw [List.length_append, length_samples] at hloop
      refine ⟨sb', ?_, hrest⟩
      have hopen : (old.drop k).drop (R - k) = old.drop R := by
        rw [List.drop_drop, Nat.add_sub_cancel' hkR.le]
      have hout : pre.length + k + (R - k) = pre.length + R := by omega
      rw [hopen, hout] at hloop
      rw [Loop.iterate_again hpass, hloop, ha.samples]
      simp only [List.append_assoc]

/-! ## The specification -/

/-- How many samples are to come. -/
def remaining (s : Istream) : ℕ := s.buf.rest.length / s.info.bytesPerSample

/-- How many of them a range of `n` values gets. -/
def count (s : Istream) (n : ℕ) : ℕ := min n s.remaining

/-- What is to come of extracting a range from `s`: the values of the range, and
    the stream. -/
structure Extracted (s : Istream) (rng : List V.Val) (r : List V.Val × Istream) : Prop where
  length : r.1.length = rng.length
  values : r.1.take (s.count rng.length) =
    samples h V s.info.format s.buf.rest 0 (s.count rng.length)
  consumed : r.2.buf.rest = s.buf.rest.drop (s.count rng.length * s.info.bytesPerSample)
  info : r.2.info = s.info
  full : rng.length ≤ s.remaining → r.2.eofbit = s.eofbit ∧ r.2.failbit = s.failbit
  short : 0 < s.remaining → s.remaining < rng.length → r.2.eofbit = true ∧ r.2.failbit = false
  empty : s.remaining = 0 → 0 < rng.length → r.1 = rng ∧ r.2.eofbit = true ∧ r.2.failbit = true
  nothing : rng.length = 0 → r = (rng, s)

/-- Extracting a range goes as specified. -/
def Extracts (s : Istream) (rng : List V.Val) : Prop :=
  ∃ n, ∀ fuel > n, ∃ r, s.extractRange h order V fuel rng = some r ∧ Extracted h s rng r

variable {s : Istream} {rng : List V.Val}

theorem length_rest_of_whole (hw : s.buf.Whole s.info.bytesPerSample) :
    s.buf.rest.length = s.remaining * s.info.bytesPerSample := by
  have hdvd : s.info.bytesPerSample ∣ s.buf.rest.length := by
    rw [length_rest]
    exact List.dvd_sum hw.dvd
  rw [remaining, Nat.div_mul_cancel hdvd]

theorem cut_zero (sb : StreamBuffer) : ∀ c ∈ cut sb.lengths 0, c < 2 ^ 31 := by
  rw [lengths, cut_fit (Nat.zero_le _), List.forall_mem_singleton]
  exact Nat.two_pow_pos 31

/-- The loop runs if there is a range to be filled and a sample to come. -/
theorem extractRange_loop (hfail : s.failbit = false) (hpos : 0 < rng.length)
    (hw : s.buf.Whole s.info.bytesPerSample) (hR : 0 < s.remaining) (fuel : ℕ) :
    ∃ sb₁, sb₁.gptr < sb₁.area.length ∧ sb₁.rest = s.buf.rest ∧
      sb₁.Whole s.info.bytesPerSample ∧ Refilled s.buf.lengths sb₁.lengths ∧
      (∀ rng' out sb', Loop.iterate (rangePass h order V s.info fuel) fuel (rng, 0, sb₁) =
          some (some (rng', out, sb')) →
        s.extractRange h order V fuel rng =
          if out = rng'.length then some (rng', { s with buf := sb' })
          else some (rng'.take out ++ List.replicate (rng'.length - out) 0,
            { s with buf := sb', eofbit := true })) ∧
      ∀ r, s.extractRange h order V fuel rng = some r → ∃ rng' out,
        Loop.iterate (rangePass h order V s.info fuel) fuel (rng, 0, sb₁) =
          some (some (rng', out, r.2.buf)) := by
  have hrest := length_rest_of_whole hw
  have hbytes := Nat.mul_pos hR s.info.bytesPerSample_pos
  obtain ⟨c, sb₁, hunder, hlt, hrest₁, hf₁, hre⟩ :=
    underflow_spec hw.filled (List.ne_nil_of_length_pos (by omega))
  have hgo : ¬ (s.failbit = true ∨ rng.length = 0) := by
    rintro (h | h)
    · rw [hfail] at h
      cases h
    · omega
  refine ⟨sb₁, hlt, hrest₁, ⟨hre.dvd hw.dvd, hf₁⟩, hre, fun rng' out sb' hit => ?_, fun r hr => ?_⟩
  · simp only [extractRange, if_neg hgo, hunder, hit]
  · simp only [extractRange, if_neg hgo, hunder] at hr
    split at hr
    · rename_i rng' out sb' hit
      refine ⟨rng', out, ?_⟩
      split_ifs at hr
      · cases hr
        exact hit
      · cases hr
        exact hit
    · cases hr

/-- A range that is filled. -/
theorem extractRange_full (hfail : s.failbit = false) (hpos : 0 < rng.length)
    (hw : s.buf.Whole s.info.bytesPerSample) (hle : rng.length ≤ s.remaining)
    (hcut : ∀ c ∈ cut s.buf.lengths (rng.length * s.info.bytesPerSample), c < 2 ^ 31) {fuel : ℕ}
    (hf : rng.length < fuel) :
    ∃ sb', s.extractRange h order V fuel rng =
        some (samples h V s.info.format s.buf.rest 0 rng.length, { s with buf := sb' }) ∧
      sb'.rest = s.buf.rest.drop (rng.length * s.info.bytesPerSample) := by
  have hrest := length_rest_of_whole hw
  have hroom := Nat.mul_le_mul_right s.info.bytesPerSample hle
  have hbytes : 0 < rng.length * s.info.bytesPerSample :=
    Nat.mul_pos hpos s.info.bytesPerSample_pos
  obtain ⟨sb₁, hlt, hrest₁, hw₁, hre, hloop, -⟩ :=
    extractRange_loop h order hfail hpos hw (by omega) fuel
  obtain ⟨sb', hit, hrest', -, -⟩ := range_full h order (n := fuel) ([] : List V.Val) hpos hlt hw₁
    (by rw [hrest₁]; omega) ((hre.forall_cut hbytes (Nat.two_pow_pos 31)).2 hcut) hf hf.le
  rw [List.nil_append, List.nil_append, hrest₁] at hit
  refine ⟨sb', ?_, by rw [hrest', hrest₁]⟩
  have hit : Loop.iterate (rangePass h order V s.info fuel) fuel (rng, 0, sb₁) = _ := hit
  rw [hloop _ _ _ hit, if_pos (length_samples _ _ _).symm]

/-- A range that is longer than the stream. -/
theorem extractRange_short (hfail : s.failbit = false)
    (hw : s.buf.Whole s.info.bytesPerSample) (hR : 0 < s.remaining)
    (hlt : s.remaining < rng.length)
    (hcut : ∀ c ∈ cut s.buf.lengths (s.remaining * s.info.bytesPerSample), c < 2 ^ 31) {fuel : ℕ}
    (hf : rng.length < fuel) :
    ∃ sb', s.extractRange h order V fuel rng =
        some (samples h V s.info.format s.buf.rest 0 s.remaining ++
          List.replicate (rng.length - s.remaining) 0, { s with buf := sb', eofbit := true }) ∧
      sb'.rest = [] := by
  have hrest := length_rest_of_whole hw
  have hbytes : 0 < s.remaining * s.info.bytesPerSample :=
    Nat.mul_pos hR s.info.bytesPerSample_pos
  obtain ⟨sb₁, hlt₁, hrest₁, hw₁, hre, hloop, -⟩ :=
    extractRange_loop h order hfail (show 0 < rng.length by omega) hw hR fuel
  obtain ⟨sb', hit, hrest'⟩ := range_short h order (n := fuel) ([] : List V.Val)
    (by rw [hrest₁]; exact hrest) hlt₁ hw₁ hlt
    ((hre.forall_cut hbytes (Nat.two_pow_pos 31)).2 hcut) hf (by omega)
  rw [List.nil_append, List.nil_append, hrest₁, List.length_nil, Nat.zero_add] at hit
  refine ⟨sb', ?_, hrest'⟩
  have hlen : (samples h V s.info.format s.buf.rest 0 s.remaining ++
      rng.drop s.remaining).length = rng.length := by
    rw [List.length_append, length_samples, List.length_drop]
    omega
  rw [hloop _ _ _ hit, hlen, if_neg hlt.ne, List.take_left' (length_samples _ _ _)]

/-! ### The four cases -/

theorem extracted_nothing (hzero : rng.length = 0) : Extracted h s rng (rng, s) := by
  have hcount : s.count rng.length = 0 := by rw [count, hzero, Nat.zero_min]
  exact {
    length := rfl
    values := by rw [hcount]; rfl
    consumed := by rw [hcount, Nat.zero_mul, List.drop_zero]
    info := rfl
    full := fun _ => ⟨rfl, rfl⟩
    short := fun _ hlt => by omega
    empty := fun _ hpos => by omega
    nothing := fun _ => rfl }

theorem extracted_end {sb' : StreamBuffer} (hpos : 0 < rng.length) (hR : s.remaining = 0)
    (hnil : s.buf.rest = []) (hrest' : sb'.rest = []) :
    Extracted h s rng (rng, { s with buf := sb', eofbit := true, failbit := true }) := by
  have hcount : s.count rng.length = 0 := by rw [count, hR, Nat.min_zero]
  exact {
    length := rfl
    values := by rw [hcount]; rfl
    consumed := by rw [hnil, List.drop_nil]; exact hrest'
    info := rfl
    full := fun hle => by omega
    short := fun hlt => by omega
    empty := fun _ _ => ⟨rfl, rfl, rfl⟩
    nothing := fun hzero => by omega }

theorem extracted_short {sb' : StreamBuffer} (hfail : s.failbit = false)
    (hw : s.buf.Whole s.info.bytesPerSample) (hR : 0 < s.remaining)
    (hlt : s.remaining < rng.length) (hrest' : sb'.rest = []) :
    Extracted h s rng (samples h V s.info.format s.buf.rest 0 s.remaining ++
      List.replicate (rng.length - s.remaining) 0, { s with buf := sb', eofbit := true }) := by
  have hrest := length_rest_of_whole hw
  have hcount : s.count rng.length = s.remaining := Nat.min_eq_right hlt.le
  exact {
    length := by
      simp only [List.length_append, length_samples, List.length_replicate]
      omega
    values := by rw [hcount, List.take_left' (length_samples _ _ _)]
    consumed := by rw [hcount, ← hrest, List.drop_length]; exact hrest'
    info := rfl
    full := fun hle => by omega
    short := fun _ _ => ⟨rfl, hfail⟩
    empty := fun hzero => by omega
    nothing := fun hzero => by omega }

theorem extracted_full {sb' : StreamBuffer} (hpos : 0 < rng.length)
    (hle : rng.length ≤ s.remaining)
    (hrest' : sb'.rest = s.buf.rest.drop (rng.length * s.info.bytesPerSample)) :
    Extracted h s rng
      (samples h V s.info.format s.buf.rest 0 rng.length, { s with buf := sb' }) := by
  have hcount : s.count rng.length = rng.length := Nat.min_eq_left hle
  exact {
    length := length_samples _ _ _
    values := by rw [hcount, List.take_of_length_le (length_samples _ _ _).le]
    consumed := by rw [hcount]; exact hrest'
    info := rfl
    full := fun _ => ⟨rfl, rfl⟩
    short := fun _ hlt => by omega
    empty := fun hzero => by omega
    nothing := fun hzero => by omega }

/-- **Within an `int`**, extracting goes as specified. -/
theorem extracts_of_withinInt (hfail : s.failbit = false)
    (hw : s.buf.Whole s.info.bytesPerSample)
    (hcut : ∀ c ∈ cut s.buf.lengths (s.count rng.length * s.info.bytesPerSample), c < 2 ^ 31) :
    Extracts h order s rng := by
  refine ⟨rng.length, fun fuel hf => ?_⟩
  have hrest := length_rest_of_whole hw
  rcases Nat.eq_zero_or_pos rng.length with hzero | hpos
  · exact ⟨(rng, s), by rw [extractRange, if_pos (Or.inr hzero)], extracted_nothing h hzero⟩
  rcases Nat.eq_zero_or_pos s.remaining with hR | hR
  · -- the end of the stream
    have hnil : s.buf.rest = [] := by
      rw [hR, Nat.zero_mul] at hrest
      exact List.length_eq_zero_iff.1 hrest
    obtain ⟨sb', hunder, hrest'⟩ := underflow_end hnil
    have hgo : ¬ (s.failbit = true ∨ rng.length = 0) := by
      rintro (h | h)
      · rw [hfail] at h
        cases h
      · omega
    exact ⟨_, by rw [extractRange, if_neg hgo, hunder], extracted_end h hpos hR hnil hrest'⟩
  rcases Nat.lt_or_ge s.remaining rng.length with hlt | hle
  · have hcount : s.count rng.length = s.remaining := Nat.min_eq_right hlt.le
    rw [hcount] at hcut
    obtain ⟨sb', hext, hrest'⟩ := extractRange_short h order hfail hw hR hlt hcut hf
    exact ⟨_, hext, extracted_short h hfail hw hR hlt hrest'⟩
  · have hcount : s.count rng.length = rng.length := Nat.min_eq_left hle
    rw [hcount] at hcut
    obtain ⟨sb', hext, hrest'⟩ := extractRange_full h order hfail hpos hw hle hcut hf
    exact ⟨_, hext, extracted_full h hpos hle hrest'⟩

/-- And otherwise it does not: an `int` holds what each pass takes if just the
    bytes of the samples are consumed. -/
theorem withinInt_of_extracted (hfail : s.failbit = false)
    (hw : s.buf.Whole s.info.bytesPerSample) {fuel : ℕ} (hf : rng.length < fuel)
    {r : List V.Val × Istream} (hext : s.extractRange h order V fuel rng = some r)
    (hr : Extracted h s rng r) :
    ∀ c ∈ cut s.buf.lengths (s.count rng.length * s.info.bytesPerSample), c < 2 ^ 31 := by
  have hwpos := s.info.bytesPerSample_pos
  have hrest := length_rest_of_whole hw
  rcases Nat.eq_zero_or_pos (s.count rng.length) with hzero | hpos
  · rw [hzero, Nat.zero_mul]
    exact cut_zero _
  have hle : s.count rng.length ≤ rng.length := Nat.min_le_left _ _
  have hle' : s.count rng.length ≤ s.remaining := Nat.min_le_right _ _
  obtain ⟨sb₁, hlt₁, hrest₁, hw₁, hre, -, hloop⟩ :=
    extractRange_loop h order hfail (show 0 < rng.length by omega) hw (by omega) fuel
  obtain ⟨rng', out, hit⟩ := hloop r hext
  have hconsumed := congrArg List.length hr.consumed
  rw [List.length_drop] at hconsumed
  obtain ⟨m, hmpos, hm, -, haccount⟩ := range_account h order ([] : List V.Val) (by omega) hf hw₁
    hlt₁ hit
  rw [hrest₁] at haccount
  have hbytes := Nat.mul_le_mul_right s.info.bytesPerSample hle'
  rcases haccount with ⟨hall, hcut⟩ | ⟨hless, hne⟩
  · have hsame : m * s.info.bytesPerSample = s.count rng.length * s.info.bytesPerSample := by omega
    rw [← hsame]
    exact (hre.forall_cut (Nat.mul_pos hmpos hwpos) (Nat.two_pow_pos 31)).1 hcut
  · -- something is left, so the range was to be filled, and more than that is stored
    have hpos' := List.length_pos_iff.2 hne
    have hlt : s.count rng.length * s.info.bytesPerSample <
        s.remaining * s.info.bytesPerSample := by
      omega
    have hfull : s.count rng.length = rng.length := by
      have := Nat.lt_of_mul_lt_mul_right hlt
      unfold count at this ⊢
      omega
    have hmore := Nat.mul_le_mul_right s.info.bytesPerSample hm
    rw [hfull] at hconsumed hbytes
    omega

end

/-- **Extracting a range**, out of any stream of whole samples in blocks that are
    not empty, goes as specified iff no pass takes 2^31 bytes or more. -/
theorem extracts_iff (h : Host) (order : EvaluationOrder) (V : ArithType) (s : Istream)
    (hfail : s.failbit = false) (hw : s.buf.Whole s.info.bytesPerSample) (rng : List V.Val) :
    Extracts h order s rng ↔
      ∀ c ∈ cut s.buf.lengths (s.count rng.length * s.info.bytesPerSample), c < 2 ^ 31 := by
  constructor
  · rintro ⟨n, hn⟩
    obtain ⟨r, hext, hr⟩ := hn (n + rng.length + 1) (by omega)
    exact withinInt_of_extracted h order hfail hw (by omega) hext hr
  · exact extracts_of_withinInt h order hfail hw

theorem extracts_iff_twoBlocks :
    Extracts (.ofNative .littleEndian) .leftToRight twoBlocks
      ([7, 7, 7, 7, 7] : List (ArithType.Val (.integer ⟨true, .w32⟩))) :=
  (extracts_iff (.ofNative .littleEndian) .leftToRight (.integer ⟨true, .w32⟩) twoBlocks rfl
    ⟨by decide, show ∀ b ∈ twoBlocks.buf.blocks, b ≠ [] by decide⟩ [7, 7, 7, 7, 7]).2
    (show ∀ c ∈ cut [0, 4, 2] 6, c < 2 ^ 31 by decide)

theorem oneBlock_extracted {n : ℕ} (hn : 0 < n)
    (he : Extracts (.ofNative .littleEndian) .leftToRight (oneBlock n)
      (List.replicate n 0 : List (ArithType.Val (.integer ⟨true, .w8⟩)))) : n < 2 ^ 31 := by
  obtain ⟨k, hk⟩ := he
  obtain ⟨r, hext, hr⟩ := hk (k + n + 1) (by omega)
  have hcount : (oneBlock n).count n = n := by
    rw [count, remaining, length_rest, oneBlock_lengths, oneBlock_bytes]
    simp
  have hcut := withinInt_of_extracted _ _ rfl (oneBlock_whole hn)
    (by rw [List.length_replicate]; omega) hext hr
  rw [List.length_replicate, hcount] at hcut
  exact oneBlock_cut hn hcut

/-- A range of the size of a block of 2^31 bytes. -/
theorem oneBlock_not_extracted :
    ¬ Extracts (.ofNative .littleEndian) .leftToRight (oneBlock (2 ^ 31))
      (List.replicate (2 ^ 31) 0 : List (ArithType.Val (.integer ⟨true, .w8⟩))) :=
  fun he => lt_irrefl _ (oneBlock_extracted (Nat.two_pow_pos 31) he)

/-! ## Silence -/

/-- Extracting ends, and the values behind the samples that were to come are
    neutral elements. -/
def Silent (h : Host) (order : EvaluationOrder) {V : ArithType} (s : Istream) (rng : List V.Val) :
    Prop :=
  ∃ n, ∀ fuel > n, ∃ r, s.extractRange h order V fuel rng = some r ∧
    r.1.drop s.remaining = List.replicate (rng.length - s.remaining) V.zero

section
variable (h : Host) (order : EvaluationOrder) {V : ArithType} {s : Istream} {rng : List V.Val}

/-- Within an `int`, the range is padded with zeros. -/
theorem silent_of_withinInt (hfail : s.failbit = false) (hw : s.buf.Whole s.info.bytesPerSample)
    (hR : 0 < s.remaining) (hlt : s.remaining < rng.length)
    (hcut : ∀ c ∈ cut s.buf.lengths (s.remaining * s.info.bytesPerSample), c < 2 ^ 31) :
    Silent h order s rng ↔ V.isUnsigned = false := by
  rw [← V.zero_eq_zero_iff]
  constructor
  · rintro ⟨n, hn⟩
    obtain ⟨r, hext, hr⟩ := hn (n + rng.length + 1) (by omega)
    obtain ⟨sb', hext', -⟩ := extractRange_short h order hfail hw hR hlt hcut
      (show rng.length < n + rng.length + 1 by omega)
    obtain rfl := Option.some.inj (hext.symm.trans hext')
    dsimp only at hr
    rw [List.drop_left' (length_samples _ _ _), List.replicate_inj] at hr
    exact (hr.2.resolve_left (by omega)).symm
  · intro hzero
    refine ⟨rng.length, fun fuel hf => ?_⟩
    obtain ⟨sb', hext, -⟩ := extractRange_short h order hfail hw hR hlt hcut hf
    refine ⟨_, hext, ?_⟩
    dsimp only
    rw [List.drop_left' (length_samples _ _ _), hzero]

end

/-- **Silence.**  Out of any stream that is shorter than the range: the range gets
    the samples to come and silence iff its type is not unsigned and no pass takes
    2^31 bytes or more; and if no pass does, it gets silence iff its type is not
    unsigned. -/
theorem silent_iff (h : Host) (order : EvaluationOrder) (V : ArithType) (s : Istream)
    (hfail : s.failbit = false) (hw : s.buf.Whole s.info.bytesPerSample) (rng : List V.Val)
    (hR : 0 < s.remaining) (hlt : s.remaining < rng.length) :
    (Extracts h order s rng ∧ Silent h order s rng ↔
      V.isUnsigned = false ∧
        ∀ c ∈ cut s.buf.lengths (s.remaining * s.info.bytesPerSample), c < 2 ^ 31) ∧
    ((∀ c ∈ cut s.buf.lengths (s.remaining * s.info.bytesPerSample), c < 2 ^ 31) →
      (Silent h order s rng ↔ V.isUnsigned = false)) := by
  have hcount : s.count rng.length = s.remaining := Nat.min_eq_right hlt.le
  refine ⟨?_, silent_of_withinInt h order hfail hw hR hlt⟩
  constructor
  · rintro ⟨⟨n, hn⟩, hsilent⟩
    obtain ⟨r, hext, hr⟩ := hn (n + rng.length + 1) (by omega)
    have hcut := withinInt_of_extracted h order hfail hw (by omega) hext hr
    rw [hcount] at hcut
    exact ⟨(silent_of_withinInt h order hfail hw hR hlt hcut).1 hsilent, hcut⟩
  · rintro ⟨hsigned, hcut⟩
    have hsilent := (silent_of_withinInt h order hfail hw hR hlt hcut).2 hsigned
    rw [← hcount] at hcut
    exact ⟨extracts_of_withinInt h order hfail hw hcut, hsilent⟩

theorem silent_iff_twoBlocks :
    Silent (.ofNative .littleEndian) .leftToRight twoBlocks
      ([7, 7, 7, 7, 7] : List (ArithType.Val (.integer ⟨true, .w32⟩))) :=
  ((silent_iff (.ofNative .littleEndian) .leftToRight (.integer ⟨true, .w32⟩) twoBlocks rfl
    ⟨by decide, show ∀ b ∈ twoBlocks.buf.blocks, b ≠ [] by decide⟩ [7, 7, 7, 7, 7]
    (by decide) (by decide)).2 (show ∀ c ∈ cut [0, 4, 2] 6, c < 2 ^ 31 by decide)).2 rfl

/-- Three samples and two values of `uint8_t` more. -/
theorem twoBlocks_not_silent :
    ¬ Silent (.ofNative .littleEndian) .leftToRight twoBlocks
      ([7, 7, 7, 7, 7] : List (ArithType.Val (.integer ⟨false, .w8⟩))) := by
  rw [silent_of_withinInt (.ofNative .littleEndian) .leftToRight rfl
    ⟨by decide, show ∀ b ∈ twoBlocks.buf.blocks, b ≠ [] by decide⟩ (by decide) (by decide)
    (show ∀ c ∈ cut [0, 4, 2] 6, c < 2 ^ 31 by decide)]
  exact nofun

end Istream

end NiMedia
