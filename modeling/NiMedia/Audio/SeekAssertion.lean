/-
  The assertions at the head of the seeks (`flac_source.h`, `ogg_source.h`,
  `media_foundation_source.h`).  The remainder of a signed offset and a `size_t`
  is taken in 64 bit without sign.

  * `seekAssertions_iff`: when an offset of whole frames passes.
-/
import NiMedia.Flac.Source
import NiMedia.Ogg.Source
import NiMedia.Os.MediaFoundation

namespace NiMedia

/-- `off % bytes_per_frame`. -/
def offsetRem (off : ℤ) (bytesPerFrame : ℕ) : ℤ := off % 2 ^ 64 % bytesPerFrame

/-- The assertion of `flac_source::seek`. -/
def Flac.seekAssertion (bytesPerFrame : ℕ) (off : ℤ) : Prop := 0 = offsetRem off bytesPerFrame

/-- The assertion of `ogg_source::seek`. -/
def Ogg.seekAssertion (bytesPerFrame : ℕ) (off : ℤ) : Prop := 0 = offsetRem off bytesPerFrame

/-- The assertion of `media_foundation_source::seek`. -/
def MediaFoundation.seekAssertion (bytesPerFrame : ℕ) (off : ℤ) : Prop :=
  0 = offsetRem off bytesPerFrame

section
variable {F : ℕ} {k : ℤ}

theorem offsetRem_of_nonneg (hk : 0 ≤ k) (hlt : k * F < 2 ^ 63) : offsetRem (k * F) F = 0 := by
  have hpos : 0 ≤ k * F := mul_nonneg hk (Int.natCast_nonneg F)
  rw [offsetRem, Int.emod_eq_of_lt hpos (by omega)]
  exact Int.mul_emod_left k F

/-- Backwards, what remains is the remainder of `2 ^ 64`. -/
theorem offsetRem_of_neg (hF : 0 < F) (hk : k < 0) (hle : -2 ^ 63 ≤ k * F) :
    offsetRem (k * F) F = 2 ^ 64 % F := by
  have hneg : k * F < 0 := mul_neg_of_neg_of_pos hk (by exact_mod_cast hF)
  have hmod : k * F % 2 ^ 64 = 2 ^ 64 + k * F := by
    rw [← Int.add_emod_right, Int.add_comm]
    exact Int.emod_eq_of_lt (by omega) (by omega)
  rw [offsetRem, hmod]
  exact Int.add_mul_emod_self_right _ _ _

theorem offsetRem_eq_zero_iff (hF : 0 < F) (hle : -2 ^ 63 ≤ k * F) (hlt : k * F < 2 ^ 63) :
    0 = offsetRem (k * F) F ↔ 0 ≤ k ∨ F ∣ 2 ^ 64 := by
  rcases lt_or_ge k 0 with hneg | hnonneg
  · have hdvd : (2 : ℤ) ^ 64 % F = 0 ↔ F ∣ 2 ^ 64 := by
      rw [← Int.dvd_iff_emod_eq_zero]
      exact_mod_cast Int.natCast_dvd_natCast (m := F) (n := 2 ^ 64)
    rw [offsetRem_of_neg hF hneg hle, eq_comm, hdvd]
    constructor
    · exact .inr
    · rintro (hk | h)
      · omega
      · exact h
  · exact iff_of_true (offsetRem_of_nonneg hnonneg hlt).symm (.inl hnonneg)

/-- **Assertions of the seeks.**  They hold of an offset of whole frames iff it
    does not go backwards, or the frame size divides `2 ^ 64`. -/
theorem seekAssertions_iff (hF : 0 < F) (hle : -2 ^ 63 ≤ k * F) (hlt : k * F < 2 ^ 63) :
    (Flac.seekAssertion F (k * F) ∧ Ogg.seekAssertion F (k * F) ∧
      MediaFoundation.seekAssertion F (k * F)) ↔ 0 ≤ k ∨ F ∣ 2 ^ 64 := by
  have hrem := offsetRem_eq_zero_iff hF hle hlt
  constructor
  · rintro ⟨h, -, -⟩
    exact hrem.1 h
  · intro h
    exact ⟨hrem.2 h, hrem.2 h, hrem.2 h⟩

end

theorem seekAssertions_four : Flac.seekAssertion 4 (-3 * 4) ∧ Ogg.seekAssertion 4 (-3 * 4) ∧
    MediaFoundation.seekAssertion 4 (-3 * 4) :=
  (seekAssertions_iff (by decide) (by decide) (by decide)).2 (.inr (by decide))

/-- A seek back by a stereo frame of 24 bit samples. -/
theorem back_by_six_asserts :
    ¬ (Flac.seekAssertion 6 (-1 * 6) ∧ Ogg.seekAssertion 6 (-1 * 6) ∧
      MediaFoundation.seekAssertion 6 (-1 * 6)) := by
  rintro ⟨h, -, -⟩
  have hrem : offsetRem (-1 * 6) 6 = 4 := by decide
  rw [Flac.seekAssertion, hrem] at h
  omega

end NiMedia
