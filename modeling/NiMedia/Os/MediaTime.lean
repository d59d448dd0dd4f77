/-
  Media time (`audio/os/win/media_foundation_source.h`: `time100nsToFrames`,
  `framesTo100ns`).

  WMF counts time in units of 100 ns, in integers.  A frame becomes the time at
  or before it, in `LONGLONG` and `size_t`, and a time the nearest frame, here in
  rationals where the code has `double`.

  * `time100nsToFrames_eq_iff`: the times that become a frame.
  * `time100nsToFrames_framesTo100ns`: a frame survives, up to 5000000 frames in
    a second.
-/
import NiMedia.Lib.Rounding
import NiMedia.Lib.Words

namespace NiMedia

open Words Rounding

namespace MediaFoundation

/-- `secTo100ns`. -/
def secTo100ns : ℤ := 10000000

def time100nsToFrames (time100ns : ℤ) (sampleRate : ℕ) : ℤ :=
  roundAway (time100ns * sampleRate / secTo100ns)

/-- The product is a `LONGLONG`, and becomes a `size_t` to be divided. -/
def framesTo100ns (frame : ℤ) (sampleRate : ℕ) : ℤ :=
  wrap 64 (wrap 64 (frame * secTo100ns) % 2 ^ 64 / sampleRate)

section
variable {sampleRate : ℕ} {frame time100ns : ℤ}

/-- Half a frame before the frame, and less than half a frame behind it. -/
theorem time100nsToFrames_eq_iff (htime : 0 ≤ time100ns) :
    time100nsToFrames time100ns sampleRate = frame ↔
      (2 * frame - 1) * secTo100ns ≤ 2 * (time100ns * sampleRate) ∧
        2 * (time100ns * sampleRate) < (2 * frame + 1) * secTo100ns := by
  have hsec : (0 : ℚ) < secTo100ns := by norm_num [secTo100ns]
  have hq : (0 : ℚ) ≤ time100ns * sampleRate / secTo100ns := by positivity
  rw [time100nsToFrames, roundAway_eq_iff hq, le_div_iff₀ hsec, div_lt_iff₀ hsec]
  have hlower : ((frame : ℚ) - 1 / 2) * secTo100ns ≤ time100ns * sampleRate ↔
      (2 * frame - 1) * secTo100ns ≤ 2 * (time100ns * sampleRate) := by
    rw [← Int.cast_le (R := ℚ)]
    push_cast
    constructor <;> intro h <;> linarith
  have hupper : time100ns * sampleRate < ((frame : ℚ) + 1 / 2) * secTo100ns ↔
      2 * (time100ns * sampleRate) < (2 * frame + 1) * secTo100ns := by
    rw [← Int.cast_lt (R := ℚ)]
    push_cast
    constructor <;> intro h <;> linarith
  rw [hlower, hupper]

theorem framesTo100ns_eq (hframe : 0 ≤ frame) (hfits : frame * secTo100ns < 2 ^ 63) :
    framesTo100ns frame sampleRate = frame * secTo100ns / sampleRate := by
  have hsec : 0 ≤ secTo100ns := by norm_num [secTo100ns]
  have hproduct : 0 ≤ frame * secTo100ns := mul_nonneg hframe hsec
  have hquotient : 0 ≤ frame * secTo100ns / sampleRate :=
    Int.ediv_nonneg hproduct (Int.natCast_nonneg _)
  have hle : frame * secTo100ns / sampleRate ≤ frame * secTo100ns := Int.ediv_le_self _ hproduct
  rw [framesTo100ns, wrap_of_range (by omega) hfits, Int.emod_eq_of_lt hproduct (by omega),
    wrap_of_range (by omega) (by omega)]

/-- The time of a frame is less than one unit before it. -/
theorem framesTo100ns_error (hrate : 1 ≤ sampleRate) (hframe : 0 ≤ frame)
    (hfits : frame * secTo100ns < 2 ^ 63) :
    framesTo100ns frame sampleRate * sampleRate ≤ frame * secTo100ns ∧
      frame * secTo100ns < framesTo100ns frame sampleRate * sampleRate + sampleRate := by
  have hpos : (0 : ℤ) < sampleRate := by exact_mod_cast hrate
  rw [framesTo100ns_eq hframe hfits]
  constructor
  · exact Int.ediv_mul_le _ hpos.ne'
  · have hlt := Int.lt_ediv_add_one_mul_self (frame * secTo100ns) hpos
    rwa [add_mul, one_mul] at hlt

theorem framesTo100ns_nonneg (hframe : 0 ≤ frame) (hfits : frame * secTo100ns < 2 ^ 63) :
    0 ≤ framesTo100ns frame sampleRate := by
  rw [framesTo100ns_eq hframe hfits]
  have hsec : 0 ≤ secTo100ns := by norm_num [secTo100ns]
  exact Int.ediv_nonneg (mul_nonneg hframe hsec) (Int.natCast_nonneg _)

/-- A time less than one unit before a frame becomes that frame, if a unit is
    half a frame at most. -/
theorem time100nsToFrames_of_error (hmax : sampleRate ≤ 5000000) (htime : 0 ≤ time100ns)
    (hle : time100ns * sampleRate ≤ frame * secTo100ns)
    (hlt : frame * secTo100ns < time100ns * sampleRate + sampleRate) :
    time100nsToFrames time100ns sampleRate = frame := by
  rw [time100nsToFrames_eq_iff htime]
  unfold secTo100ns at *
  constructor <;> omega

end

/-- **Frames survive as times.**  What the truncation takes from a frame is less
    than the time of half a frame, and the rounding gives it back. -/
theorem time100nsToFrames_framesTo100ns (sampleRate : ℕ) (hrate : 1 ≤ sampleRate)
    (hmax : sampleRate ≤ 5000000) (frame : ℤ) (hframe : 0 ≤ frame)
    (hfits : frame * secTo100ns < 2 ^ 63) :
    time100nsToFrames (framesTo100ns frame sampleRate) sampleRate = frame := by
  obtain ⟨hle, hlt⟩ := framesTo100ns_error hrate hframe hfits
  exact time100nsToFrames_of_error hmax (framesTo100ns_nonneg hframe hfits) hle hlt

theorem time100nsToFrames_44100 :
    time100nsToFrames (framesTo100ns 1 44100) 44100 = 1 :=
  time100nsToFrames_framesTo100ns 44100 (by decide) (by decide) 1 (by decide) (by decide)

end MediaFoundation

end NiMedia
