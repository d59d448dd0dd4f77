/-
  A range of mutable iterators as an array of samples (`pcm/iterator.h`:
  `decrement`, `distance_to`, and assignment through the proxy).

  * `iterator_array`: the distance of the ends is the number of samples, stepping
    is by the size of a sample, and an assignment changes one sample.
-/
import NiMedia.Pcm.Iterator

namespace NiMedia

open Bytes

/-! ## The other operations of an iterator -/

namespace Iterator

/-- The iterator at the end of a buffer. -/
def end_ (f : IntFormat) (buf : List UInt8) : Iterator := ⟨f, buf.length⟩

def decrement (it : Iterator) : Iterator := { it with iter := it.iter + -it.step }

/-- The distance of the base iterators, divided as the language does. -/
def distanceTo (it other : Iterator) : ℤ := (other.iter - it.iter).tdiv it.step

/-! ## Stepping -/

variable (it : Iterator)

theorem step_pos : 0 < it.step := Int.natCast_pos.2 it.fmt.1.bitwidth.numBytes_pos

@[simp] theorem step_advance (i : ℤ) : (it.advance i).step = it.step := rfl

theorem advance_advance (i j : ℤ) : (it.advance i).advance j = it.advance (i + j) := by
  have h : it.iter + i * it.step + j * it.step = it.iter + (i + j) * it.step := by ring
  simp only [advance]
  exact congrArg (fun iter => (⟨it.fmt, iter⟩ : Iterator)) h

@[simp] theorem advance_zero : it.advance 0 = it := by
  simp only [advance, zero_mul, add_zero]

theorem increment_eq : it.increment = it.advance 1 := by
  simp only [increment, advance, one_mul]

theorem decrement_eq : it.decrement = it.advance (-1) := by
  simp only [decrement, advance, neg_one_mul]

/-- Stepping forward one by one. -/
theorem iterate_increment (i : ℕ) : increment^[i] it = it.advance i := by
  induction i with
  | zero => rw [Function.iterate_zero, id, Nat.cast_zero, advance_zero]
  | succ i ih => rw [Function.iterate_succ_apply', ih, increment_eq, advance_advance, Nat.cast_succ]

/-- Stepping back one by one. -/
theorem iterate_decrement (i : ℕ) : decrement^[i] it = it.advance (-i) := by
  induction i with
  | zero => rw [Function.iterate_zero, id, Nat.cast_zero, neg_zero, advance_zero]
  | succ i ih =>
    rw [Function.iterate_succ_apply', ih, decrement_eq, advance_advance, Nat.cast_succ, neg_add]

theorem distanceTo_advance (i j : ℤ) : (it.advance i).distanceTo (it.advance j) = j - i := by
  have h : (it.advance j).iter - (it.advance i).iter = (j - i) * it.step := by
    simp only [advance]; ring
  rw [distanceTo, h, step_advance, Int.mul_tdiv_cancel _ it.step_pos.ne']

end Iterator

section
variable {f : IntFormat} {buf : List UInt8} {k : ℕ}

/-- The end of a buffer of `k` samples is `k` steps from its beginning. -/
theorem end_eq_advance (h : buf.length = k * f.1.bitwidth.numBytes) :
    Iterator.end_ f buf = (Iterator.begin f).advance k := by
  simp only [Iterator.end_, Iterator.begin, Iterator.advance, Iterator.step, Iterator.numBytes, h]
  push_cast
  rw [zero_add]

/-! ## Assignment -/

variable {native : EndianType} {V : IntType} {i j : ℕ}

variable (native) in
theorem sample_fits (h : buf.length = k * f.1.bitwidth.numBytes) (hi : i < k) (v : V.Val) :
    i * f.1.bitwidth.numBytes + (write native V f v).length ≤ buf.length := by
  have hle := Nat.mul_le_mul_right f.1.bitwidth.numBytes (Nat.succ_le_of_lt hi)
  rw [length_write, h, ← Nat.succ_mul]
  exact hle

theorem assign_advance (v : V.Val) :
    ((Iterator.begin f).advance i).assign native V v buf =
      overwrite buf (i * f.1.bitwidth.numBytes) (write native V f v) := by
  have hpos : ((Iterator.begin f).advance i).iter.toNat = i * f.1.bitwidth.numBytes := by
    simp only [Iterator.advance, Iterator.begin, Iterator.step, Iterator.numBytes, zero_add]
    rw [← Int.natCast_mul, Int.toNat_natCast]
  rw [Iterator.assign, hpos]; rfl

/-- Different samples do not share bytes. -/
theorem sample_disjoint (n : ℕ) (hij : j ≠ i) : j * n + n ≤ i * n ∨ i * n + n ≤ j * n := by
  rcases Nat.lt_or_gt_of_ne hij with h | h
  · left
    rw [← Nat.succ_mul]
    exact Nat.mul_le_mul_right n h
  · right
    rw [← Nat.succ_mul]
    exact Nat.mul_le_mul_right n h

theorem deref_assign_self (h : buf.length = k * f.1.bitwidth.numBytes) (hi : i < k) (v : V.Val) :
    ((Iterator.begin f).advance i).deref native V
      (((Iterator.begin f).advance i).assign native V v buf) =
      read native V f (write native V f v) := by
  have hslice := slice_overwrite (sample_fits native h hi v)
  rw [length_write] at hslice
  rw [deref_advance, assign_advance, hslice]

theorem deref_assign_of_ne (h : buf.length = k * f.1.bitwidth.numBytes) (hi : i < k)
    (hij : j ≠ i) (v : V.Val) :
    ((Iterator.begin f).advance j).deref native V
      (((Iterator.begin f).advance i).assign native V v buf) =
      ((Iterator.begin f).advance j).deref native V buf := by
  rw [deref_advance, deref_advance, assign_advance,
    slice_overwrite_of_disjoint (sample_fits native h hi v)]
  rw [length_write]
  exact sample_disjoint _ hij

end

/-- **A range of iterators is an array.**  For a buffer of `k` samples: the distance
    from begin to end is `k`; `begin + i` is at the byte of the `i`-th sample, and
    stepping there and back leads to where one was; an assignment at an index
    changes the bytes of its sample only, all other indices read what they read
    before, and the index itself reads the value cut to the width of the format. -/
theorem iterator_array (native : EndianType) (f : IntFormat) (V : IntType) (k : ℕ)
    (buf : List UInt8) (h : buf.length = k * f.1.bitwidth.numBytes) :
    (Iterator.begin f).distanceTo (Iterator.end_ f buf) = k ∧
    (∀ i : ℤ, ((Iterator.begin f).advance i).iter = i * f.1.bitwidth.numBytes) ∧
    (∀ i j : ℤ, (((Iterator.begin f).advance i).advance j).advance (-j) =
      (Iterator.begin f).advance i) ∧
    (∀ i : ℕ, Iterator.increment^[i] (Iterator.begin f) = (Iterator.begin f).advance i ∧
      Iterator.decrement^[i] ((Iterator.begin f).advance i) = Iterator.begin f) ∧
    ∀ i < k, ∀ v : V.Val,
      (((Iterator.begin f).advance i).assign native V v buf).length = buf.length ∧
      (∀ p, p < i * f.1.bitwidth.numBytes ∨ (i + 1) * f.1.bitwidth.numBytes ≤ p →
        (((Iterator.begin f).advance i).assign native V v buf)[p]? = buf[p]?) ∧
      (∀ j < k, j ≠ i → ((Iterator.begin f).advance j).deref native V
        (((Iterator.begin f).advance i).assign native V v buf) =
          ((Iterator.begin f).advance j).deref native V buf) ∧
      ((Iterator.begin f).advance i).deref native V
        (((Iterator.begin f).advance i).assign native V v buf) =
          if f.1.bitwidth.bits < V.bits
          then v &&& (BitVec.allOnes V.bits <<< (V.bits - f.1.bitwidth.bits)) else v := by
  refine ⟨?_, fun i => ?_, fun i j => ?_, fun i => ⟨?_, ?_⟩, fun i hi v => ⟨?_, ?_, ?_, ?_⟩⟩
  · have hdist := (Iterator.begin f).distanceTo_advance 0 k
    rwa [Iterator.advance_zero, ← end_eq_advance h, sub_zero] at hdist
  · simp only [Iterator.advance, Iterator.begin, Iterator.step, Iterator.numBytes, zero_add]
  · rw [Iterator.advance_advance, Iterator.advance_advance, add_neg_cancel, add_zero]
  · exact Iterator.iterate_increment _ i
  · rw [Iterator.iterate_decrement, Iterator.advance_advance, add_neg_cancel,
      Iterator.advance_zero]
  · rw [assign_advance, length_overwrite (sample_fits native h hi v)]
  · intro p hp
    rw [assign_advance, getElem?_overwrite (sample_fits native h hi v), if_neg]
    rw [Nat.succ_mul] at hp
    rw [length_write]
    omega
  · exact fun j _ hij => deref_assign_of_ne h hi hij v
  · rw [deref_assign_self h hi, read_write]

theorem iterator_array_s24be :
    ((Iterator.begin s24be).advance (1 : ℕ)).deref .littleEndian ⟨true, .w32⟩
      (((Iterator.begin s24be).advance (0 : ℕ)).assign .littleEndian ⟨true, .w32⟩ 0x01020304#32
        [1, 2, 3, 4, 5, 6]) =
      ((Iterator.begin s24be).advance (1 : ℕ)).deref .littleEndian ⟨true, .w32⟩
        [1, 2, 3, 4, 5, 6] :=
  ((iterator_array .littleEndian s24be ⟨true, .w32⟩ 2 [1, 2, 3, 4, 5, 6] rfl).2.2.2.2 0
    (by decide) 0x01020304#32).2.2.1 1 (by decide) (by decide)

end NiMedia
