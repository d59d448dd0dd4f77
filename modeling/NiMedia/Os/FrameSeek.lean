/-
  Seeks in frames.  The sources of the operating systems divide an offset in
  bytes by the frame size, a `size_t`, so that the division is an unsigned one.

  * `frameSeek_iff`: when such a seek comes to the frame it is to come to.
-/
import NiMedia.Iostreams.Saturation
import Mathlib.Algebra.Order.Ring.Int

namespace NiMedia

open Words

/-- `off / frameSize` as a `stream_offset`: `off` is converted to `size_t`. -/
def frameOffset (off : ℤ) (frameSize : ℕ) : ℤ := wrap 64 (off % 2 ^ 64 / frameSize)

section
variable {f : ℕ} {k : ℤ}

theorem frameOffset_of_nonneg (hf : 0 < f) (hk : 0 ≤ k) (hlt : k * f < 2 ^ 63) :
    frameOffset (k * f) f = k := by
  have hfz : (0 : ℤ) < f := by exact_mod_cast hf
  have hle : k ≤ k * f := le_mul_of_one_le_right hk hfz
  have hpos : 0 ≤ k * f := mul_nonneg hk hfz.le
  rw [frameOffset, Int.emod_eq_of_lt hpos (by omega), Int.mul_ediv_cancel k hfz.ne']
  exact wrap_of_range (by omega) (by omega)

/-- A negative offset wraps around before it is divided. -/
theorem frameOffset_of_neg (hf : 0 < f) (hk : k < 0) (hle : -2 ^ 63 ≤ k * f) :
    frameOffset (k * f) f = wrap 64 (2 ^ 64 / f + k) := by
  have hfz : (0 : ℤ) < f := by exact_mod_cast hf
  have hneg : k * f < 0 := mul_neg_of_neg_of_pos hk hfz
  have hmod : k * f % 2 ^ 64 = 2 ^ 64 + k * f := by
    rw [← Int.add_emod_right, Int.add_comm]
    exact Int.emod_eq_of_lt (by omega) (by omega)
  rw [frameOffset, hmod, Int.add_mul_ediv_right _ _ hfz.ne']

variable {pos n : ℤ} {way : SeekDir}

/-- A seek backwards goes forwards by `2 ^ 64 / f` frames. -/
theorem absolutePosition_neg (hf : 0 < f) (hk : k < 0) (hle : -2 ^ 63 ≤ k * f) :
    absolutePosition pos 0 n (frameOffset (k * f) f) way =
      clamp (wrap 64 (seekBase pos 0 n way + k + 2 ^ 64 / f)) 0 n := by
  have hadd : wrap 64 (seekBase pos 0 n way + wrap 64 (2 ^ 64 / f + k)) =
      wrap 64 (seekBase pos 0 n way + (2 ^ 64 / f + k)) := Int.add_bmod_bmod
  rw [absolutePosition_eq_wrap, frameOffset_of_neg hf hk hle, hadd, Int.add_assoc,
    Int.add_comm k]

/-- For frames of three bytes or more that is the end of the stream. -/
theorem clamp_backwards (hf : 3 ≤ f) (hn0 : 0 ≤ n) (hn : n * f < 2 ^ 63) {t : ℤ}
    (h0 : -2 ^ 63 ≤ t * f) (h1 : t < n) : clamp (wrap 64 (t + 2 ^ 64 / f)) 0 n = n := by
  have h3 : (3 : ℤ) ≤ f := by exact_mod_cast hf
  have hfz : (0 : ℤ) < f := by omega
  have hdiv := Int.ediv_mul_le (2 ^ 64) hfz.ne'
  have hlt := Int.lt_ediv_add_one_mul_self (2 ^ 64) hfz
  have hq0 : 0 ≤ (2 : ℤ) ^ 64 / f := Int.ediv_nonneg (by norm_num) hfz.le
  generalize (2 : ℤ) ^ 64 / f = q at *
  have hnq : n ≤ t + q := by
    by_contra hqn
    have hle := mul_le_mul_of_nonneg_right (show t + (q + 1) ≤ n by omega) hfz.le
    rw [Int.add_mul] at hle
    omega
  have hq3 := mul_le_mul_of_nonneg_left h3 hq0
  have hn3 := mul_le_mul_of_nonneg_left h3 hn0
  rw [wrap_of_range (by omega) (by omega), clamp]
  split_ifs <;> omega

/-- A seek backwards to a frame before the end comes to where it is to come to
    for frames of one byte, for frames of two bytes if that is the first one, and
    in an empty stream. -/
theorem clamp_backwards_iff (hf : 0 < f) (hn0 : 0 ≤ n) (hn : n * f < 2 ^ 63) {t : ℤ}
    (h0 : -2 ^ 63 ≤ t * f) (h1 : t < n) :
    clamp (wrap 64 (t + 2 ^ 64 / f)) 0 n = clamp t 0 n ↔ f = 1 ∨ f = 2 ∧ t = 0 ∨ n = 0 := by
  rcases Nat.lt_or_ge f 3 with hsmall | hlarge
  · obtain rfl | rfl : f = 1 ∨ f = 2 := by omega
    · have hwrap : wrap 64 (t + 2 ^ 64) = wrap 64 t := Int.add_bmod_right _ _
      have hdiv : (2 : ℤ) ^ 64 / ((1 : ℕ) : ℤ) = 2 ^ 64 := Int.ediv_one _
      rw [hdiv, hwrap, wrap_of_range (by omega) (by omega)]
      exact iff_of_true rfl (.inl rfl)
    · have hdiv : (2 : ℤ) ^ 64 / ((2 : ℕ) : ℤ) = 2 ^ 63 := rfl
      rw [hdiv]
      rcases lt_or_ge t 0 with ht | ht
      · rw [wrap_of_range (by omega) (by omega), clamp_of_gt hn0 (by omega), clamp_of_lt ht]
        omega
      · rw [wrap_of_ge (by omega) (by omega), clamp_of_lt (by omega), clamp_of_le ht h1.le]
        omega
  · rw [clamp_backwards hlarge hn0 hn h0 h1, clamp_of_le_hi h1.le]
    omega

/-- **Seeks in frames.**  A seek to a frame of the stream comes to this frame
    iff it does not go backwards, or a frame is one byte, or a frame is two
    bytes and the frame is the first one. -/
theorem frameSeek_iff (hf : 0 < f) (hn : n * f < 2 ^ 63) (hk : -2 ^ 63 ≤ k * f)
    (hk' : k * f < 2 ^ 63) (h0 : 0 ≤ seekBase pos 0 n way + k)
    (h1 : seekBase pos 0 n way + k < n) :
    absolutePosition pos 0 n (frameOffset (k * f) f) way = seekBase pos 0 n way + k ↔
      0 ≤ k ∨ f = 1 ∨ f = 2 ∧ seekBase pos 0 n way + k = 0 := by
  have hfz : (0 : ℤ) < f := by exact_mod_cast hf
  have hn0 : 0 ≤ n := by omega
  have hle : n ≤ n * f := le_mul_of_one_le_right hn0 hfz
  have hexact : clamp (wrap 64 (seekBase pos 0 n way + k)) 0 n = seekBase pos 0 n way + k := by
    rw [wrap_of_range (by omega) (by omega), clamp_of_le h0 h1.le]
  by_cases hneg : k < 0
  · have htf : -2 ^ 63 ≤ (seekBase pos 0 n way + k) * f :=
      (by norm_num : (-2 : ℤ) ^ 63 ≤ 0).trans (mul_nonneg h0 hfz.le)
    have hiff := clamp_backwards_iff hf hn0 hn htf h1
    rw [clamp_of_le h0 h1.le] at hiff
    rw [absolutePosition_neg hf hneg hk, hiff]
    omega
  · rw [frameOffset_of_nonneg hf (not_lt.1 hneg) hk', absolutePosition_eq_wrap, hexact]
    exact iff_of_true rfl (.inl (not_lt.1 hneg))

/-- **Seeks to any frame.**  A seek from a frame of the stream comes to where
    it is to come to, cut to the stream, iff it goes forwards without overflow,
    or backwards by frames of one byte, or back to the first frame by frames of
    two bytes, or in an empty stream. -/
theorem frameSeek_clamp_iff (hf : 0 < f) (hn : n * f < 2 ^ 63) (hpos : 0 ≤ pos) (hpos' : pos ≤ n)
    (hk : -2 ^ 63 ≤ k * f) (hk' : k * f < 2 ^ 63) :
    absolutePosition pos 0 n (frameOffset (k * f) f) way =
        clamp (seekBase pos 0 n way + k) 0 n ↔
      0 ≤ k ∧ seekBase pos 0 n way + k < 2 ^ 63 ∨
        k < 0 ∧ (f = 1 ∨ f = 2 ∧ seekBase pos 0 n way + k = 0 ∨ n = 0) := by
  have hfz : (0 : ℤ) < f := by exact_mod_cast hf
  have hn0 : 0 ≤ n := hpos.trans hpos'
  have hle : n ≤ n * f := le_mul_of_one_le_right hn0 hfz
  obtain ⟨hbase, hbase'⟩ := seekBase_mem way hpos hpos'
  rcases lt_or_ge k 0 with hneg | hnonneg
  · have htf : k * f ≤ (seekBase pos 0 n way + k) * f :=
      mul_le_mul_of_nonneg_right (by omega) hfz.le
    rw [absolutePosition_neg hf hneg hk,
      clamp_backwards_iff hf hn0 hn (hk.trans htf) (by omega)]
    omega
  · have hkf : k ≤ k * f := le_mul_of_one_le_right hnonneg hfz
    rw [frameOffset_of_nonneg hf hnonneg hk',
      absolutePosition_saturates_iff (by norm_num) hpos hpos' (by omega) (by omega) (by omega)]
    omega

end

end NiMedia
