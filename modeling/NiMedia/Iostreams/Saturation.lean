/-
  Seeks at the limits of the positions (`iostreams/positioning.h`).

  `absolute_position` is there to cut a seek to the stream, but adds up in 64
  bit before it cuts.

  * `absolutePosition_overflow`, `absolutePosition_underflow`: where a seek
    comes to whose sum does not fit;
  * `absolutePosition_saturates_iff`: when the exact sum is cut.
-/
import NiMedia.Iostreams.View

namespace NiMedia

open Words

/-! ## Cutting -/

theorem clamp_of_lt {v lo hi : ℤ} (h : v < lo) : clamp v lo hi = lo := if_pos h

theorem clamp_of_gt {v lo hi : ℤ} (h : lo ≤ hi) (h1 : hi < v) : clamp v lo hi = hi := by
  rw [clamp, if_neg (by omega), if_pos h1]

theorem clamp_of_le_hi {v lo hi : ℤ} (h1 : v ≤ hi) : clamp v lo hi = max lo v := by
  unfold clamp
  split_ifs <;> omega

theorem clamp_of_lo_le {v lo hi : ℤ} (h1 : lo ≤ v) : clamp v lo hi = min hi v := by
  unfold clamp
  split_ifs <;> omega

/-! ## Sums that do not fit -/

section
variable {pos beg end_ off : ℤ} {way : SeekDir}

theorem seekBase_mem (way : SeekDir) (h1 : beg ≤ pos) (h2 : pos ≤ end_) :
    beg ≤ seekBase pos beg end_ way ∧ seekBase pos beg end_ way ≤ end_ := by
  cases way <;> simp only [seekBase] <;> omega

/-- A sum above the largest position comes out `2 ^ 64` lower. -/
theorem absolutePosition_overflow (h1 : beg ≤ pos) (h2 : pos ≤ end_) (hend : end_ < 2 ^ 63)
    (hoff : off < 2 ^ 63) (hsum : 2 ^ 63 ≤ seekBase pos beg end_ way + off) :
    absolutePosition pos beg end_ off way =
      max beg (seekBase pos beg end_ way + off - 2 ^ 64) := by
  have hbase := seekBase_mem way h1 h2
  rw [absolutePosition_eq_wrap]
  generalize seekBase pos beg end_ way = b at *
  rw [wrap_of_ge hsum (by omega)]
  exact clamp_of_le_hi (by omega)

/-- A sum below the smallest position comes out `2 ^ 64` higher. -/
theorem absolutePosition_underflow (h1 : beg ≤ pos) (h2 : pos ≤ end_) (hbeg : -2 ^ 63 ≤ beg)
    (hoff : -2 ^ 63 ≤ off) (hsum : seekBase pos beg end_ way + off < -2 ^ 63) :
    absolutePosition pos beg end_ off way =
      min end_ (seekBase pos beg end_ way + off + 2 ^ 64) := by
  have hbase := seekBase_mem way h1 h2
  rw [absolutePosition_eq_wrap]
  generalize seekBase pos beg end_ way = b at *
  rw [wrap_of_lt hsum (by omega)]
  exact clamp_of_lo_le (by omega)

/-- In a stream that does not begin below 0, too large a seek comes to the
    beginning. -/
theorem absolutePosition_overflow_beg (h0 : 0 ≤ beg) (h1 : beg ≤ pos) (h2 : pos ≤ end_)
    (hend : end_ < 2 ^ 63) (hoff : off < 2 ^ 63)
    (hsum : 2 ^ 63 ≤ seekBase pos beg end_ way + off) :
    absolutePosition pos beg end_ off way = beg := by
  have hbase := seekBase_mem way h1 h2
  rw [absolutePosition_overflow h1 h2 hend hoff hsum]
  exact max_eq_left (by omega)

/-- **Saturation.**  A seek is cut to the stream iff its sum is a position, or
    the stream is empty. -/
theorem absolutePosition_saturates_iff (hbeg : -2 ^ 63 ≤ beg) (h1 : beg ≤ pos) (h2 : pos ≤ end_)
    (hend : end_ < 2 ^ 63) (hoff : -2 ^ 63 ≤ off) (hoff' : off < 2 ^ 63) :
    absolutePosition pos beg end_ off way = clamp (seekBase pos beg end_ way + off) beg end_ ↔
      (-2 ^ 63 ≤ seekBase pos beg end_ way + off ∧ seekBase pos beg end_ way + off < 2 ^ 63) ∨
        beg = end_ := by
  have hbase := seekBase_mem way h1 h2
  have hle : beg ≤ end_ := h1.trans h2
  rcases lt_or_ge (seekBase pos beg end_ way + off) (-2 ^ 63) with hlow | hlow
  · rw [absolutePosition_underflow h1 h2 hbeg hoff hlow, clamp_of_lt (by omega)]
    omega
  · rcases lt_or_ge (seekBase pos beg end_ way + off) (2 ^ 63) with hhigh | hhigh
    · exact iff_of_true (absolutePosition_eq hlow hhigh) (.inl ⟨hlow, hhigh⟩)
    · rw [absolutePosition_overflow h1 h2 hend hoff' hhigh, clamp_of_gt hle (by omega)]
      omega

end

theorem absolutePosition_saturates_small :
    absolutePosition 5 0 10 (-7) .cur = clamp (5 + -7) 0 10 :=
  (absolutePosition_saturates_iff (by decide) (by decide) (by decide) (by decide)
    (by decide) (by decide)).2 (.inl ⟨by decide, by decide⟩)

/-- In a view of the default extent, a seek by one behind the end comes to the
    beginning. -/
theorem behind_maxPos_wraps :
    ¬ absolutePosition 0 0 maxPos 1 .end_ = clamp (seekBase 0 0 maxPos .end_ + 1) 0 maxPos := by
  decide

end NiMedia
