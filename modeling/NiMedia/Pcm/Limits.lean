/-
  The limits of the arithmetic types (`pcm/limits.h`).

  * `zero_eq_zero_iff`: the neutral element is 0 unless the type is unsigned.
-/
import NiMedia.Pcm.Arithmetic

namespace NiMedia

namespace IntType

/-- `detail::step`. -/
def step (t : IntType) (bits : ℕ) : t.Val := 1 <<< (t.bits - bits)

/-- `detail::scale`. -/
def scale (t : IntType) : t.Val := t.step 1

/-- `detail::zero`. -/
def zero (t : IntType) : t.Val := BitVec.ofInt t.bits (t.min + t.scale.toNat)

theorem zero_signed (w : Width) : zero ⟨true, w⟩ = 0 := by
  cases w <;> rfl

theorem zero_unsigned (w : Width) : zero ⟨false, w⟩ ≠ 0 := by
  cases w <;> decide

end IntType

namespace ArithType

/-- `pcm::numeric_limits<T>::zero()`. -/
def zero : (t : ArithType) → t.Val
  | integer t => t.zero
  | float => 0
  | double => 0

/-- `std::is_unsigned<T>`. -/
def isUnsigned : ArithType → Bool
  | integer t => !t.signed
  | float => false
  | double => false

theorem zero_eq_zero_iff (t : ArithType) : t.zero = 0 ↔ t.isUnsigned = false := by
  cases t with
  | integer t =>
    obtain ⟨signed, w⟩ := t
    cases signed with
    | false => exact iff_of_false (IntType.zero_unsigned w) nofun
    | true => exact iff_of_true (IntType.zero_signed w) rfl
  | float => exact iff_of_true rfl rfl
  | double => exact iff_of_true rfl rfl

end ArithType

end NiMedia
