/-
  Reading samples in any style.

  Consecutive reads ask for single values and for ranges of any length.

  * `delivers_iff`: they deliver the samples to come in order, consume the bytes
    of these and set no bit, however the samples are asked for and wherever the
    blocks of the device end, iff no range takes more bytes out of one block
    than an `int` holds.
-/
import NiMedia.Audio.Istream

namespace NiMedia

namespace Istream

open StreamBuffer

/-! ## Requests -/

section
variable (h : Host) (order : EvaluationOrder) (V : ArithType)

/-- A value to read, or a range to fill. -/
inductive Request where
  | value : V.Val → Request
  | range : List V.Val → Request

variable {V} in
def Request.count : Request V → ℕ
  | value _ => 1
  | range rng => rng.length

/-- `stream >> value` or `stream >> range`. -/
def extract (fuel : ℕ) (s : Istream) : Request V → Option (List V.Val × Istream)
  | .value val => some ([(s.extractValue h V val).1], (s.extractValue h V val).2)
  | .range rng => s.extractRange h order V fuel rng

/-- Consecutive reads, and the samples that they deliver. -/
def extractAll (fuel : ℕ) : Istream → List (Request V) → Option (List V.Val × Istream)
  | s, [] => some ([], s)
  | s, r :: rs => (s.extract h order V fuel r).bind fun x =>
      (extractAll fuel x.2 rs).map fun y => (x.1 ++ y.1, y.2)

end

/-- How many samples are asked for. -/
def total {V : ArithType} (rs : List (Request V)) : ℕ := (rs.map Request.count).sum

/-- An `int` holds the bytes that a range takes out of each piece. -/
def Request.WithinInt {V : ArithType} (w : ℕ) (as : List ℕ) : Request V → Prop
  | value _ => True
  | range rng => ∀ c ∈ cut as (rng.length * w), c < 2 ^ 31

/-- So it is for each range in turn. -/
def WithinInt {V : ArithType} (w : ℕ) : List ℕ → List (Request V) → Prop
  | _, [] => True
  | as, r :: rs => r.WithinInt w as ∧ WithinInt w (skip as (r.count * w)) rs

section
variable (h : Host) (order : EvaluationOrder) {V : ArithType} {s : Istream}

/-- Any single read delivers the samples to come. -/
theorem extract_spec (heof : s.eofbit = false) (hfail : s.failbit = false)
    (hw : s.buf.Whole s.info.bytesPerSample) (r : Request V)
    (hroom : r.count * s.info.bytesPerSample ≤ s.buf.rest.length)
    (hint : r.WithinInt s.info.bytesPerSample s.buf.lengths) {fuel : ℕ} (hf : r.count < fuel) :
    ∃ sb', s.extract h order V fuel r =
        some (samples h V s.info.format s.buf.rest 0 r.count, { s with buf := sb' }) ∧
      sb'.rest = s.buf.rest.drop (r.count * s.info.bytesPerSample) ∧
      sb'.Whole s.info.bytesPerSample ∧
      sb'.lengths = skip s.buf.lengths (r.count * s.info.bytesPerSample) := by
  cases r with
  | value val =>
    rw [Request.count, Nat.one_mul] at hroom ⊢
    obtain ⟨sb', hget, hrest, hf', hskip⟩ := xsgetn_spec hw.filled hroom
    refine ⟨sb', ?_, hrest, ⟨?_, hf'⟩, hskip⟩
    · have hlen : (s.buf.rest.take s.info.bytesPerSample).length = s.info.bytesPerSample := by
        rw [List.length_take, min_eq_left hroom]
      have hread : s.read s.info.bytesPerSample =
          (s.buf.rest.take s.info.bytesPerSample, { s with buf := sb' }) := by
        simp [read, heof, hfail, hget, hlen]
      simp only [extract, extractValue, hread, hfail, samples_one]
      rfl
    · rw [hskip]
      exact dvd_of_mem_skip hw.dvd dvd_rfl
  | range rng =>
    simp only [Request.count] at hroom hf ⊢
    by_cases hzero : rng.length = 0
    · refine ⟨s.buf, ?_, by rw [hzero, Nat.zero_mul, List.drop_zero], hw, ?_⟩
      · rw [List.length_eq_zero_iff.1 hzero]
        simp [extract, extractRange, samples]
      · rw [hzero, Nat.zero_mul, skip_zero]
    · have hpos : 0 < rng.length * s.info.bytesPerSample :=
        Nat.mul_pos (by omega) s.info.bytesPerSample_pos
      obtain ⟨c, sb₁, hunder, hlt, hrest₁, hf₁, hre⟩ :=
        underflow_spec hw.filled (List.ne_nil_of_length_pos (by omega))
      obtain ⟨sb', hloop, hrest, hw', hskip⟩ := range_full h order (n := fuel) ([] : List V.Val)
        (show 0 < rng.length by omega) hlt ⟨hre.dvd hw.dvd, hf₁⟩ (by rw [hrest₁]; exact hroom)
        ((hre.forall_cut hpos (Nat.two_pow_pos 31)).2 hint) hf hf.le
      rw [List.nil_append, List.nil_append, hrest₁] at hloop
      refine ⟨sb', ?_, by rw [hrest, hrest₁], hw', by rw [hskip, hre.skip_eq hpos]⟩
      rw [extract, extractRange, if_neg (by simp [hfail, hzero]), hunder]
      simp only [List.length_nil] at hloop
      simp only [hloop, length_samples, if_true]

/-! ## What is consumed -/

theorem read_good {n : ℕ} (hfail : (s.read n).2.failbit = false) :
    s.eofbit = false ∧ s.failbit = false ∧ (s.buf.xsgetn n).1.length = n ∧
      (s.read n).2 = { s with buf := (s.buf.xsgetn n).2 } := by
  unfold read at hfail ⊢
  dsimp only at hfail ⊢
  split_ifs at hfail ⊢ with hbits hlen
  obtain ⟨heof, hfail⟩ := not_or.1 hbits
  exact ⟨Bool.eq_false_of_not_eq_true heof, Bool.eq_false_of_not_eq_true hfail, hlen, rfl⟩

theorem extractValue_snd (val : V.Val) :
    (s.extractValue h V val).2 = (s.read s.info.bytesPerSample).2 := by
  unfold extractValue
  split
  rename_i temp s' hread
  rw [hread]
  split_ifs <;> rfl

/-- A value that was read without a failure. -/
theorem extract_value_good {val : V.Val} {fuel : ℕ} {vs : List V.Val} {s' : Istream}
    (hit : s.extract h order V fuel (.value val) = some (vs, s')) (hfail : s'.failbit = false) :
    s.eofbit = false ∧ s.failbit = false ∧
      (s.buf.xsgetn s.info.bytesPerSample).1.length = s.info.bytesPerSample ∧
      s' = { s with buf := (s.buf.xsgetn s.info.bytesPerSample).2 } := by
  obtain rfl : (s.read s.info.bytesPerSample).2 = s' := by
    rw [← extractValue_snd h val]
    exact (Prod.mk.inj (Option.some.inj hit)).2
  exact read_good hfail

/-- A range that was read without a bit set: it is empty, or the loop has filled
    it. -/
theorem extract_range_good {rng : List V.Val} {fuel : ℕ} {vs : List V.Val} {s' : Istream}
    (hit : s.extract h order V fuel (.range rng) = some (vs, s')) (heof : s'.eofbit = false)
    (hfail : s'.failbit = false) :
    (rng.length = 0 ∧ s' = s) ∨
    (0 < rng.length ∧ ∃ c sb₁ sb', s.buf.underflow = (some c, sb₁) ∧
      Loop.iterate (rangePass h order V s.info fuel) fuel (rng, 0, sb₁) =
        some (some (vs, vs.length, sb')) ∧
      s' = { s with buf := sb' }) := by
  simp only [extract, extractRange] at hit
  split_ifs at hit with hnone
  · obtain ⟨-, rfl⟩ := Prod.mk.inj (Option.some.inj hit)
    exact .inl ⟨hnone.resolve_left (by simp [hfail]), rfl⟩
  · refine .inr ⟨Nat.pos_of_ne_zero (not_or.1 hnone).2, ?_⟩
    rcases hunder : s.buf.underflow with ⟨_ | c, sb₁⟩
    · rw [hunder] at hit
      obtain ⟨-, rfl⟩ := Prod.mk.inj (Option.some.inj hit)
      cases heof
    · rw [hunder] at hit
      simp only at hit
      split at hit
      · rename_i rng' out sb' hloop
        split_ifs at hit with hout
        · obtain ⟨rfl, rfl⟩ := Prod.mk.inj (Option.some.inj hit)
          exact ⟨c, sb₁, sb', rfl, hout ▸ hloop, rfl⟩
        · obtain ⟨-, rfl⟩ := Prod.mk.inj (Option.some.inj hit)
          cases heof
      · cases hit

/-- No read clears a bit. -/
theorem extract_flags {r : Request V} {fuel : ℕ} {vs : List V.Val} {s' : Istream}
    (hit : s.extract h order V fuel r = some (vs, s')) (heof : s'.eofbit = false)
    (hfail : s'.failbit = false) : s.eofbit = false ∧ s.failbit = false := by
  cases r with
  | value val =>
    obtain ⟨heof', hfail', -⟩ := extract_value_good h order hit hfail
    exact ⟨heof', hfail'⟩
  | range rng =>
    rcases extract_range_good h order hit heof hfail with ⟨-, rfl⟩ | ⟨-, c, sb₁, sb', -, -, rfl⟩
    · exact ⟨heof, hfail⟩
    · exact ⟨heof, hfail⟩

/-- A read that sets no bit has consumed no more than what it was to read, and
    all of it only if an `int` held what each pass took. -/
theorem extract_account (hf : s.buf.Filled) {r : Request V} {fuel : ℕ} (hfuel : r.count < fuel)
    {vs : List V.Val} {s' : Istream} (hit : s.extract h order V fuel r = some (vs, s'))
    (heof : s'.eofbit = false) (hfail : s'.failbit = false) :
    (s'.info = s.info ∧ s'.buf.Filled) ∧
    s.buf.rest.length ≤ s'.buf.rest.length + r.count * s.info.bytesPerSample ∧
    (s.buf.rest.length = s'.buf.rest.length + r.count * s.info.bytesPerSample →
      s.buf.Whole s.info.bytesPerSample → r.WithinInt s.info.bytesPerSample s.buf.lengths) := by
  cases r with
  | value val =>
    obtain ⟨-, -, hlen, rfl⟩ := extract_value_good h order hit hfail
    have hrest := congrArg List.length (xsgetn_rest s.buf s.info.bytesPerSample)
    rw [List.length_append, hlen] at hrest
    obtain ⟨sb', hget, -, hf', -⟩ := xsgetn_spec hf (show s.info.bytesPerSample ≤ _ by omega)
    rw [hget] at hrest ⊢
    refine ⟨⟨rfl, hf'⟩, ?_, fun _ _ => trivial⟩
    simp only [Request.count] at hrest ⊢
    omega
  | range rng =>
    simp only [Request.count] at hfuel ⊢
    rcases extract_range_good h order hit heof hfail with
      ⟨hzero, rfl⟩ | ⟨hpos, c, sb₁, sb', hunder, hloop, rfl⟩
    · refine ⟨⟨rfl, hf⟩, by omega, fun _ _ c hc => ?_⟩
      rw [hzero, Nat.zero_mul, lengths, cut_fit (Nat.zero_le _)] at hc
      rw [List.mem_singleton.1 hc]
      exact Nat.two_pow_pos 31
    · have hrest := rest_underflow s.buf
      have hf₁ := filled_underflow hf
      rw [hunder] at hrest hf₁
      have hbytes : 0 < rng.length * s.info.bytesPerSample :=
        Nat.mul_pos hpos s.info.bytesPerSample_pos
      obtain ⟨hf', hlength, m, hm, hout, hle⟩ :=
        range_bound h order ([] : List V.Val) hfuel hloop
      rw [List.length_nil, Nat.zero_add] at hlength hout
      rw [hrest, ← hout, hlength] at hle
      refine ⟨⟨rfl, hf' hf₁⟩, hle, fun heq hw => ?_⟩
      obtain ⟨c', sb₂, hunder', hlt, -, -, hre⟩ :=
        underflow_spec hf (List.ne_nil_of_length_pos (by rw [heq]; omega))
      obtain rfl : sb₁ = sb₂ := (Prod.mk.inj (hunder.symm.trans hunder')).2
      obtain ⟨m', -, -, hout', hall | ⟨hless, -⟩⟩ := range_account h order ([] : List V.Val) hpos
        hfuel ⟨hre.dvd hw.dvd, hf₁⟩ hlt hloop
      · rw [List.length_nil, Nat.zero_add, hlength] at hout'
        rw [← hout'] at hall
        exact (hre.forall_cut hbytes (Nat.two_pow_pos 31)).1 hall.2
      · rw [List.length_nil, Nat.zero_add, hlength] at hout'
        rw [hrest, ← hout'] at hless
        exact absurd heq hless.ne

/-! ## Consecutive reads -/

theorem total_cons (r : Request V) (rs : List (Request V)) : total (r :: rs) = r.count + total rs :=
  rfl

/-- Consecutive reads deliver the samples to come. -/
theorem extractAll_spec (heof : s.eofbit = false) (hfail : s.failbit = false)
    (hw : s.buf.Whole s.info.bytesPerSample) {rs : List (Request V)}
    (hroom : total rs * s.info.bytesPerSample ≤ s.buf.rest.length)
    (hint : WithinInt s.info.bytesPerSample s.buf.lengths rs) {fuel : ℕ} (hf : total rs < fuel) :
    ∃ sb', s.extractAll h order V fuel rs =
        some (samples h V s.info.format s.buf.rest 0 (total rs), { s with buf := sb' }) ∧
      sb'.rest = s.buf.rest.drop (total rs * s.info.bytesPerSample) := by
  induction rs generalizing s with
  | nil =>
    refine ⟨s.buf, rfl, ?_⟩
    rw [total, List.map_nil, List.sum_nil, Nat.zero_mul, List.drop_zero]
  | cons r rs ih =>
    rw [total_cons] at hroom hf ⊢
    rw [Nat.add_mul] at hroom ⊢
    obtain ⟨hint, hints⟩ := hint
    obtain ⟨sb₁, hfirst, hrest₁, hw₁, hskip⟩ := extract_spec h order heof hfail hw r (by omega) hint
      (show r.count < fuel by omega)
    obtain ⟨sb', hall, hrest⟩ := ih (s := { s with buf := sb₁ }) heof hfail hw₁
      (show total rs * s.info.bytesPerSample ≤ sb₁.rest.length by
        rw [hrest₁, List.length_drop]
        omega)
      (show WithinInt s.info.bytesPerSample sb₁.lengths rs by rw [hskip]; exact hints) (by omega)
    refine ⟨sb', ?_, by rw [hrest, hrest₁, List.drop_drop]⟩
    rw [extractAll, hfirst, Option.bind_some, hall, Option.map_some, hrest₁, samples_drop,
      samples_add]
    simp only [Nat.zero_add, Nat.add_zero]
    rfl

theorem extractAll_cons {r : Request V} {rs : List (Request V)} {fuel : ℕ} {vs : List V.Val}
    {s' : Istream} (hit : s.extractAll h order V fuel (r :: rs) = some (vs, s')) :
    ∃ vs₁ s₁ vs₂, s.extract h order V fuel r = some (vs₁, s₁) ∧
      s₁.extractAll h order V fuel rs = some (vs₂, s') := by
  rw [extractAll, Option.bind_eq_some_iff] at hit
  obtain ⟨⟨vs₁, s₁⟩, hfirst, hrest⟩ := hit
  obtain ⟨⟨vs₂, s₂⟩, hall, heq⟩ := Option.map_eq_some_iff.1 hrest
  obtain ⟨-, rfl⟩ := Prod.mk.inj heq
  exact ⟨vs₁, s₁, vs₂, hfirst, hall⟩

theorem extractAll_flags {rs : List (Request V)} {fuel : ℕ} {vs : List V.Val} {s' : Istream}
    (hit : s.extractAll h order V fuel rs = some (vs, s')) (heof : s'.eofbit = false)
    (hfail : s'.failbit = false) : s.eofbit = false ∧ s.failbit = false := by
  induction rs generalizing s vs with
  | nil =>
    obtain ⟨-, rfl⟩ := Prod.mk.inj (Option.some.inj hit)
    exact ⟨heof, hfail⟩
  | cons r rs ih =>
    obtain ⟨vs₁, s₁, vs₂, hfirst, hall⟩ := extractAll_cons h order hit
    obtain ⟨heof₁, hfail₁⟩ := ih hall
    exact extract_flags h order hfirst heof₁ hfail₁

/-- Reads that set no bit have consumed no more than what they were to read, and
    all of it only if an `int` held what each pass took. -/
theorem extractAll_account (hf : s.buf.Filled) {rs : List (Request V)} {fuel : ℕ}
    (hfuel : total rs < fuel) {vs : List V.Val} {s' : Istream}
    (hit : s.extractAll h order V fuel rs = some (vs, s')) (heof : s'.eofbit = false)
    (hfail : s'.failbit = false) :
    s.buf.rest.length ≤ s'.buf.rest.length + total rs * s.info.bytesPerSample ∧
    (s.buf.rest.length = s'.buf.rest.length + total rs * s.info.bytesPerSample →
      s.buf.Whole s.info.bytesPerSample → WithinInt s.info.bytesPerSample s.buf.lengths rs) := by
  induction rs generalizing s vs with
  | nil =>
    obtain ⟨-, rfl⟩ := Prod.mk.inj (Option.some.inj hit)
    exact ⟨by omega, fun _ _ => trivial⟩
  | cons r rs ih =>
    rw [total_cons] at hfuel ⊢
    rw [Nat.add_mul]
    obtain ⟨vs₁, s₁, vs₂, hfirst, hall⟩ := extractAll_cons h order hit
    obtain ⟨heof₁, hfail₁⟩ := extractAll_flags h order hall heof hfail
    obtain ⟨⟨hinfo, hf₁⟩, hle₁, hint₁⟩ := extract_account h order hf
      (show r.count < fuel by omega) hfirst heof₁ hfail₁
    obtain ⟨hle₂, hint₂⟩ := ih hf₁ (by omega) hall
    rw [hinfo] at hle₂ hint₂
    refine ⟨by omega, fun heq hw => ?_⟩
    have hint := hint₁ (by omega) hw
    -- all is consumed as it should be, so the first read went as specified
    obtain ⟨heof₀, hfail₀⟩ := extract_flags h order hfirst heof₁ hfail₁
    obtain ⟨sb₁, hfirst', -, hw₁, hskip⟩ := extract_spec h order heof₀ hfail₀ hw r (by omega) hint
      (show r.count < fuel by omega)
    obtain ⟨-, rfl⟩ := Prod.mk.inj (Option.some.inj (hfirst'.symm.trans hfirst))
    rw [hskip] at hint₂
    exact ⟨hint, hint₂ (by omega) hw₁⟩

/-- The reads deliver the samples to come, consume their bytes and no others, and
    set no bit. -/
def Delivers (s : Istream) (rs : List (Request V)) : Prop :=
  ∃ n, ∀ fuel > n, ∃ s', s.extractAll h order V fuel rs =
      some (samples h V s.info.format s.buf.rest 0 (total rs), s') ∧
    s'.buf.rest = s.buf.rest.drop (total rs * s.info.bytesPerSample) ∧
    s'.eofbit = false ∧ s'.failbit = false

theorem withinInt_of_delivers (hw : s.buf.Whole s.info.bytesPerSample) {rs : List (Request V)}
    (hroom : total rs * s.info.bytesPerSample ≤ s.buf.rest.length) (hd : Delivers h order s rs) :
    WithinInt s.info.bytesPerSample s.buf.lengths rs := by
  obtain ⟨n, hn⟩ := hd
  obtain ⟨s', hall, hrest, heof, hfail⟩ := hn (n + total rs + 1) (by omega)
  have hlen := congrArg List.length hrest
  rw [List.length_drop] at hlen
  exact (extractAll_account h order hw.filled (by omega) hall heof hfail).2 (by omega) hw

end

/-- **Reading styles and block sizes.**  Whatever the blocks of the device are, and
    however the samples are asked for, the reads deliver the samples to come and
    consume just these, if and only if no range takes 2^31 bytes or more out of
    one block. -/
theorem delivers_iff (h : Host) (order : EvaluationOrder) (V : ArithType) (s : Istream)
    (heof : s.eofbit = false) (hfail : s.failbit = false)
    (hw : s.buf.Whole s.info.bytesPerSample) (rs : List (Request V))
    (hroom : total rs * s.info.bytesPerSample ≤ s.buf.rest.length) :
    Delivers h order s rs ↔ WithinInt s.info.bytesPerSample s.buf.lengths rs := by
  constructor
  · exact withinInt_of_delivers h order hw hroom
  · intro hint
    refine ⟨total rs, fun fuel hf => ?_⟩
    obtain ⟨sb', hall, hrest⟩ := extractAll_spec h order heof hfail hw hroom hint hf
    exact ⟨{ s with buf := sb' }, hall, hrest, heof, hfail⟩

/-- Three samples in two blocks. -/
def twoBlocks : Istream where
  buf := ⟨[], 0, le_rfl, [[1, 0, 2, 0], [3, 0]]⟩
  info := { format := s16le }
  eofbit := false
  failbit := false

theorem delivers_iff_twoBlocks :
    Delivers (.ofNative .littleEndian) .leftToRight twoBlocks
      ([.value 0, .range [0, 0]] : List (Request (.integer ⟨true, .w32⟩))) :=
  (delivers_iff (.ofNative .littleEndian) .leftToRight (.integer ⟨true, .w32⟩) twoBlocks rfl rfl
    ⟨by decide, show ∀ b ∈ twoBlocks.buf.blocks, b ≠ [] by decide⟩ [.value 0, .range [0, 0]]
    (by decide)).2 ⟨trivial, show ∀ c ∈ cut [2, 2] 4, c < 2 ^ 31 by decide, trivial⟩

/-- One block of `n` samples of 8 bits. -/
def oneBlock (n : ℕ) : Istream where
  buf := ⟨[], 0, le_rfl, [List.replicate n 0]⟩
  info := { format := s8 }
  eofbit := false
  failbit := false

theorem oneBlock_bytes (n : ℕ) : (oneBlock n).info.bytesPerSample = 1 := by
  show s8.bitwidth.bits / 8 = 1
  rfl

theorem oneBlock_lengths (n : ℕ) : (oneBlock n).buf.lengths = [0, n] := by simp [oneBlock, lengths]

theorem oneBlock_whole {n : ℕ} (hn : 0 < n) :
    (oneBlock n).buf.Whole (oneBlock n).info.bytesPerSample := by
  refine ⟨fun a _ => oneBlock_bytes n ▸ one_dvd a, fun b hb => ?_⟩
  rw [List.mem_singleton.1 hb]
  exact List.ne_nil_of_length_pos (by rwa [List.length_replicate])

/-- The block is taken in one piece. -/
theorem oneBlock_cut {n : ℕ} (hn : 0 < n)
    (h : ∀ c ∈ cut (oneBlock n).buf.lengths (n * (oneBlock n).info.bytesPerSample), c < 2 ^ 31) :
    n < 2 ^ 31 := by
  rw [oneBlock_bytes, oneBlock_lengths, Nat.mul_one, cut_more hn, Nat.sub_zero, cut_fit le_rfl] at h
  exact h n (List.mem_cons_of_mem _ (List.mem_singleton_self n))

theorem oneBlock_fits {n : ℕ} (hn : 0 < n)
    (hd : Delivers (.ofNative .littleEndian) .leftToRight (oneBlock n)
      ([.range (List.replicate n 0)] : List (Request (.integer ⟨true, .w8⟩)))) : n < 2 ^ 31 := by
  have hint := withinInt_of_delivers _ _ (oneBlock_whole hn) (by
    rw [oneBlock_bytes, length_rest, oneBlock_lengths]
    simp [total, Request.count]) hd
  have hcut := hint.1
  rw [Request.WithinInt, List.length_replicate] at hcut
  exact oneBlock_cut hn hcut

/-- A block of 2^31 bytes that is read as one range. -/
theorem oneBlock_not_delivered :
    ¬ Delivers (.ofNative .littleEndian) .leftToRight (oneBlock (2 ^ 31))
      ([.range (List.replicate (2 ^ 31) 0)] : List (Request (.integer ⟨true, .w8⟩))) :=
  fun hd => lt_irrefl _ (oneBlock_fits (Nat.two_pow_pos 31) hd)

end Istream

end NiMedia
