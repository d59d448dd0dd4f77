/-
  Positions in samples and frames (`audio/istream.cpp`, `ostream.cpp`:
  `sample_tellg`, `frame_tellg`, `sample_tellp`, `frame_tellp`, `sample_seekg`,
  `frame_seekg`).

  A position is signed and a size is not, so the quotient is taken in `size_t`,
  and so is the product of an offset and a size.

  * `tellUnit_agrees_iff`: what is left of a position, and of the -1 of a failed
    stream.
  * `positions_iff`: in every run, the positions agree iff the stream is good, or
    the units are of one byte.
-/
import NiMedia.Audio.Ivectorstream

namespace NiMedia

open Words

/-! ## Streams -/

/-- `std::ios`, and the position of the stream buffer. -/
structure IoStream where
  eofbit : Bool
  failbit : Bool
  badbit : Bool
  position : ℕ
  deriving DecidableEq, Repr

/-- What a client calls.  A `tellg` may be one of `sample_tellg` or
    `frame_tellg`; `extract` is `operator>>` for a range of `n` values. -/
inductive StreamCall where
  | read (n : ℕ)
  | extract (n : ℕ)
  | write (n : ℕ)
  | seekg (call : SeekCall)
  | clear
  | tellg
  | tellp

/-- The position, if the stream allows to be asked. -/
def positionIf (ok : Bool) (position : ℕ) : ℤ := if ok then position else -1

namespace IoStream

def opened : IoStream := ⟨false, false, false, 0⟩

variable (s : IoStream)

def good : Bool := !s.eofbit && !s.failbit && !s.badbit

def fail : Bool := s.failbit || s.badbit

/-- `istream::tellg`: the sentry fails unless the stream is good. -/
def tellg : ℤ := positionIf s.good s.position

/-- `ostream::tellp`: the stream must not have failed. -/
def tellp : ℤ := positionIf (!s.fail) s.position

variable (info : StreamInfo) (extent : ℕ)

/-- What a call does to a stream on a device that holds `extent` bytes, or has
    room for as many. -/
def step : StreamCall → IoStream
  | .read n =>
    if s.good then
      if s.position + n ≤ extent then { s with position := s.position + n }
      else { s with position := extent, eofbit := true, failbit := true }
    else { s with failbit := true }
  | .extract n =>
    -- only a range that gets nothing fails; a short one is at the end
    if s.fail ∨ n = 0 then s
    else if s.position = extent then { s with eofbit := true, failbit := true }
    else
      let count := min n ((extent - s.position) / info.bytesPerSample)
      { s with
        position := s.position + count * info.bytesPerSample
        eofbit := s.eofbit || decide (count < n) }
  | .write n =>
    if s.good then
      if s.position + n ≤ extent then { s with position := s.position + n }
      else { s with position := extent, badbit := true }
    else s
  | .seekg call =>
    if s.fail then { s with eofbit := false, failbit := true }
    else { s with
      eofbit := false
      position := (absolutePosition s.position 0 extent (call.offset info) call.way).toNat }
  | .clear => { s with eofbit := false, failbit := false, badbit := false }
  | .tellg => if s.good then s else { s with failbit := true }
  | .tellp => s

/-- The stream after some calls. -/
def after (calls : List StreamCall) : IoStream :=
  calls.foldl (fun s call => s.step info extent call) opened

end IoStream

/-! ## Units -/

/-- A position divided by a size, as `size_t`, and back; a division by zero has no
    result. -/
def tellUnit (p : ℤ) (unit : ℕ) : Option ℤ :=
  if unit = 0 then none else some (wrap 64 (p % 2 ^ 64 / unit))

section
variable (info : StreamInfo) (s : IoStream)

def sampleTellg : Option ℤ := tellUnit s.tellg info.bytesPerSample

def frameTellg : Option ℤ := tellUnit s.tellg info.bytesPerFrame

def sampleTellp : Option ℤ := tellUnit s.tellp info.bytesPerSample

def frameTellp : Option ℤ := tellUnit s.tellp info.bytesPerFrame

/-- What a position in units should be. -/
def Agrees (p : ℤ) (unit : ℕ) (r : Option ℤ) : Prop :=
  (0 ≤ p → r = some (p / unit)) ∧ (p = -1 → r = some (-1))

/-- The offsets that are passed on. -/
def SeeksAgree : Prop :=
  ∀ (k : ℤ) (way : SeekDir),
    (-2 ^ 63 ≤ k * info.bytesPerSample → k * info.bytesPerSample < 2 ^ 63 →
      (SeekCall.sampleSeekg k way).offset info = k * info.bytesPerSample) ∧
    (-2 ^ 63 ≤ k * info.bytesPerFrame → k * info.bytesPerFrame < 2 ^ 63 →
      (SeekCall.frameSeekg k way).offset info = k * info.bytesPerFrame)

/-- An `audio::istream` gives the positions that it should. -/
def IstreamAgrees : Prop :=
  Agrees s.tellg info.bytesPerSample (sampleTellg info s) ∧
    Agrees s.tellg info.bytesPerFrame (frameTellg info s) ∧ SeeksAgree info

/-- So does an `audio::ostream`. -/
def OstreamAgrees : Prop :=
  Agrees s.tellp info.bytesPerSample (sampleTellp info s) ∧
    Agrees s.tellp info.bytesPerFrame (frameTellp info s)

/-- The units are of one byte. -/
def ByteUnits : Prop := info.bytesPerSample = 1 ∧ info.bytesPerFrame = 1

end

/-! ## One position -/

section
variable {info : StreamInfo} {s : IoStream} {extent unit : ℕ} {p : ℤ}

theorem tellUnit_of_nonneg (hunit : unit ≠ 0) (h0 : 0 ≤ p) (h1 : p < 2 ^ 63) :
    tellUnit p unit = some (p / unit) := by
  have hle : p / unit ≤ p := Int.ediv_le_self _ h0
  have hnonneg : 0 ≤ p / unit := Int.ediv_nonneg h0 (Int.natCast_nonneg _)
  rw [tellUnit, if_neg hunit, Int.emod_eq_of_lt h0 (by omega),
    wrap_of_range (by omega) (by omega)]

/-- The -1 of a failed stream is the greatest `size_t`, of which less than half is
    left by a unit of more than one byte. -/
theorem tellUnit_failed (hunit : unit ≠ 0) : tellUnit (-1) unit = some (-1) ↔ unit = 1 := by
  have hmod : (-1 : ℤ) % 2 ^ 64 = 2 ^ 64 - 1 := rfl
  rw [tellUnit, if_neg hunit, hmod, Option.some_inj]
  constructor
  · intro h
    by_contra hne
    have hpos : (0 : ℤ) < unit := by omega
    have hle : ((2 : ℤ) ^ 64 - 1) / unit < 2 ^ 63 :=
      Int.ediv_lt_of_lt_mul hpos (by omega)
    have hnonneg : 0 ≤ ((2 : ℤ) ^ 64 - 1) / unit := Int.ediv_nonneg (by norm_num) hpos.le
    rw [wrap_of_range (by omega) hle] at h
    omega
  · rintro rfl
    rfl

/-- **One position** agrees in a unit of some bytes, unless the stream has failed
    and the unit is of more than one. -/
theorem tellUnit_agrees_iff (hp : p = -1 ∨ 0 ≤ p ∧ p < 2 ^ 63) :
    Agrees p unit (tellUnit p unit) ↔ unit ≠ 0 ∧ (p = -1 → unit = 1) := by
  by_cases hunit : unit = 0
  · subst hunit
    refine iff_of_false ?_ (fun h => h.1 rfl)
    rintro ⟨hnonneg, hfailed⟩
    rcases hp with hp | ⟨hp, -⟩
    · cases hfailed hp
    · cases hnonneg hp
  · constructor
    · rintro ⟨-, hfailed⟩
      refine ⟨hunit, ?_⟩
      rintro rfl
      exact (tellUnit_failed hunit).1 (hfailed rfl)
    · rintro ⟨-, hone⟩
      refine ⟨fun h0 => ?_, ?_⟩
      · rcases hp with rfl | ⟨-, hlt⟩
        · omega
        · exact tellUnit_of_nonneg hunit h0 hlt
      · rintro rfl
        exact (tellUnit_failed hunit).2 (hone rfl)

variable (info) in
/-- Both units. -/
theorem agrees_units_iff (hp : p = -1 ∨ 0 ≤ p ∧ p < 2 ^ 63) :
    (Agrees p info.bytesPerSample (tellUnit p info.bytesPerSample) ∧
      Agrees p info.bytesPerFrame (tellUnit p info.bytesPerFrame)) ↔
      info.bytesPerFrame ≠ 0 ∧ (p = -1 → ByteUnits info) := by
  have hsample := info.bytesPerSample_pos.ne'
  rw [tellUnit_agrees_iff hp, tellUnit_agrees_iff hp]
  constructor
  · rintro ⟨⟨-, h1⟩, hframe, h2⟩
    exact ⟨hframe, fun h => ⟨h1 h, h2 h⟩⟩
  · rintro ⟨hframe, h⟩
    exact ⟨⟨hsample, fun hp => (h hp).1⟩, hframe, fun hp => (h hp).2⟩

/-- Offsets are passed on exactly, backwards as well. -/
theorem seeksAgree (info : StreamInfo) : SeeksAgree info :=
  fun _ _ => ⟨wrap_of_range, wrap_of_range⟩

/-! ## Runs -/

/-- A call leaves the position on the device. -/
theorem IoStream.position_step (h : s.position ≤ extent) (call : StreamCall) :
    (s.step info extent call).position ≤ extent := by
  cases call with
  | read n =>
    simp only [IoStream.step]
    split_ifs with hgood hfits
    · exact hfits
    · exact le_rfl
    · exact h
  | extract n =>
    simp only [IoStream.step]
    split_ifs
    · exact h
    · exact h
    · have hle : min n ((extent - s.position) / info.bytesPerSample) * info.bytesPerSample ≤
          extent - s.position :=
        (Nat.mul_le_mul_right _ (Nat.min_le_right _ _)).trans (Nat.div_mul_le_self _ _)
      simp only
      omega
  | write n =>
    simp only [IoStream.step]
    split_ifs with hgood hfits
    · exact hfits
    · exact le_rfl
    · exact h
  | seekg call =>
    simp only [IoStream.step]
    split_ifs
    · exact h
    · exact Int.toNat_le.2 (absolutePosition_le (Int.natCast_nonneg extent))
  | clear => exact h
  | tellg =>
    simp only [IoStream.step]
    split_ifs
    · exact h
    · exact h
  | tellp => exact h

variable (info) in
theorem IoStream.position_after (calls : List StreamCall) :
    (IoStream.after info extent calls).position ≤ extent := by
  induction calls using List.reverseRecOn with
  | nil => exact Nat.zero_le extent
  | append_singleton calls call ih =>
    rw [IoStream.after, List.foldl_append]
    exact IoStream.position_step ih call

theorem positionIf_eq_neg_one_iff {ok : Bool} {n : ℕ} : positionIf ok n = -1 ↔ ok = false := by
  unfold positionIf
  cases ok with
  | false => exact iff_of_true rfl rfl
  | true =>
    refine iff_of_false ?_ (by simp)
    have hn := Int.natCast_nonneg n
    intro heq
    rw [if_pos rfl] at heq
    omega

theorem positionIf_cases (ok : Bool) {n : ℕ} (h : n < 2 ^ 63) :
    positionIf ok n = -1 ∨ 0 ≤ positionIf ok n ∧ positionIf ok n < 2 ^ 63 := by
  unfold positionIf
  split_ifs
  · right; omega
  · exact Or.inl rfl

theorem istreamAgrees_iff (h : s.position < 2 ^ 63) :
    IstreamAgrees info s ↔
      info.bytesPerFrame ≠ 0 ∧ (s.good = false → ByteUnits info) := by
  have hiff := agrees_units_iff info (positionIf_cases s.good h)
  rw [positionIf_eq_neg_one_iff] at hiff
  rw [← hiff]
  exact ⟨fun ⟨h1, h2, _⟩ => ⟨h1, h2⟩, fun ⟨h1, h2⟩ => ⟨h1, h2, seeksAgree info⟩⟩

theorem ostreamAgrees_iff (h : s.position < 2 ^ 63) :
    OstreamAgrees info s ↔
      info.bytesPerFrame ≠ 0 ∧ (s.fail = true → ByteUnits info) := by
  have hiff := agrees_units_iff info (positionIf_cases (!s.fail) h)
  rwa [positionIf_eq_neg_one_iff, Bool.not_eq_false'] at hiff

end

/-- **Positions in units.**  In every state that reads, writes, seeks, clears and
    tells lead to, on a device whose positions are `std::streamoff`s: the stream
    gives the positions that it should iff the size of a frame does not wrap to
    zero, and the stream is good (has not failed, for output) or the units are of
    one byte. -/
theorem positions_iff (info : StreamInfo) (extent : ℕ) (hextent : extent < 2 ^ 63)
    (calls : List StreamCall) :
    (IstreamAgrees info (.after info extent calls) ↔
      info.bytesPerFrame ≠ 0 ∧
        ((IoStream.after info extent calls).good = false → ByteUnits info)) ∧
    (OstreamAgrees info (.after info extent calls) ↔
      info.bytesPerFrame ≠ 0 ∧
        ((IoStream.after info extent calls).fail = true → ByteUnits info)) := by
  have hposition := (IoStream.position_after info calls).trans_lt hextent
  exact ⟨istreamAgrees_iff hposition, ostreamAgrees_iff hposition⟩

open Ivectorstream (s16Info)

/-- A stream of two 16 bit samples, of which one is read. -/
theorem positions_iff_read :
    IstreamAgrees s16Info (.after s16Info 4 [.read 2]) ∧
      OstreamAgrees s16Info (.after s16Info 4 [.read 2]) := by
  obtain ⟨hin, hout⟩ := positions_iff s16Info 4 (by decide) [.read 2]
  exact ⟨hin.2 ⟨by decide, fun h => absurd h (by decide)⟩,
    hout.2 ⟨by decide, fun h => absurd h (by decide)⟩⟩

/-- Behind the end, `tellg` returns -1, and `sample_tellg` `2 ^ 63 - 1`. -/
theorem positions_disagree :
    ¬ ∀ (info : StreamInfo), 1 ≤ info.numChannels → ∀ (extent : ℕ), extent < 2 ^ 63 →
      ∀ calls, IstreamAgrees info (.after info extent calls) ∧
        OstreamAgrees info (.after info extent calls) := by
  intro h
  obtain ⟨⟨⟨-, hfailed⟩, -, -⟩, -⟩ := h s16Info le_rfl 2 (by decide) [.read 3]
  have htell : (IoStream.after s16Info 2 [.read 3]).tellg = -1 := rfl
  have hsample := hfailed htell
  rw [sampleTellg, htell] at hsample
  exact absurd hsample (by decide)

end NiMedia
