/-
  Iterators over samples (`pcm/iterator.h`) and copying through them, for the
  integer formats.

  An iterator is a position in a byte buffer and a format; it steps by the
  size of a sample, reads through `pcm::read` and is assigned through
  `pcm::write`.

  * `read_exact`: the `i`-th sample of a buffer is the integer that its bytes
    denote, scaled to the value type and rounded down.
  * `copy_roundtrip`: copying out of a buffer and back, and into a buffer and
    back.
  * `transcode_independent`: the bytes obtained by reading one format and
    writing another do not depend on the value type in between.
-/
import Mathlib.Data.Rat.Floor
import Mathlib.Algebra.Order.Field.Power
import NiMedia.Pcm.Intermediate

namespace NiMedia

open Bytes Words

/-- `pcm::iterator` over a buffer: the base iterator and the format of the
    proxy. -/
structure Iterator where
  fmt : IntFormat
  iter : ℤ

namespace Iterator

/-- The iterator at the beginning of a buffer. -/
def begin (f : IntFormat) : Iterator := ⟨f, 0⟩

def numBytes (it : Iterator) : ℕ := it.fmt.1.bitwidth.numBytes

/-- `proxy::step`. -/
def step (it : Iterator) : ℤ := it.numBytes

def increment (it : Iterator) : Iterator := { it with iter := it.iter + it.step }

def advance (it : Iterator) (off : ℤ) : Iterator := { it with iter := it.iter + off * it.step }

variable (native : EndianType) (V : IntType)

/-- `proxy::operator Value`. -/
def deref (it : Iterator) (buf : List UInt8) : V.Val :=
  read native V it.fmt (slice buf it.iter.toNat it.numBytes)

/-- `proxy::operator=`. -/
def assign (it : Iterator) (v : V.Val) (buf : List UInt8) : List UInt8 :=
  overwrite buf it.iter.toNat (write native V it.fmt v)

end Iterator

section
variable (native : EndianType) (V : IntType)

/-- Copying `k` samples out of a buffer, one by one. -/
def copyIn (buf : List UInt8) : ℕ → Iterator → List V.Val
  | 0, _ => []
  | k + 1, it => it.deref native V buf :: copyIn buf k it.increment

/-- Copying samples into a buffer, one by one. -/
def copyOut : List V.Val → Iterator → List UInt8 → List UInt8
  | [], _, buf => buf
  | v :: vs, it, buf => copyOut vs it.increment (it.assign native V v buf)

end

/-! ## What the copies do -/

section
variable {native : EndianType} {V : IntType}

@[simp] theorem length_write (f : IntFormat) (v : V.Val) :
    (write native V f v).length = f.1.bitwidth.numBytes := length_writeImpl v

variable (native V) in
theorem copyIn_eq (buf : List UInt8) (f : IntFormat) : ∀ (k p : ℕ),
    copyIn native V buf k ⟨f, p⟩ = (List.range k).map fun i =>
      read native V f (slice buf (p + i * f.1.bitwidth.numBytes) f.1.bitwidth.numBytes)
  | 0, _ => rfl
  | k + 1, p => by
    have hinc : (⟨f, (p : ℤ)⟩ : Iterator).increment = ⟨f, (p + f.1.bitwidth.numBytes : ℕ)⟩ := by
      simp [Iterator.increment, Iterator.step, Iterator.numBytes]
    rw [copyIn, hinc, copyIn_eq buf f k, List.range_succ_eq_map, List.map_cons, List.map_map]
    congr 1
    · simp [Iterator.deref, Iterator.numBytes]
    · refine List.map_congr_left fun i _ => ?_
      simp only [Function.comp, Nat.succ_mul]
      rw [show p + f.1.bitwidth.numBytes + i * f.1.bitwidth.numBytes =
        p + (i * f.1.bitwidth.numBytes + f.1.bitwidth.numBytes) by omega]

theorem length_copyIn (buf : List UInt8) (f : IntFormat) (k p : ℕ) :
    (copyIn native V buf k ⟨f, p⟩).length = k := by
  rw [copyIn_eq, List.length_map, List.length_range]

variable (native) in
theorem copyOut_append (f : IntFormat) : ∀ (vs : List V.Val) (pre mid post : List UInt8),
    mid.length = vs.length * f.1.bitwidth.numBytes →
    copyOut native V vs ⟨f, (pre.length : ℕ)⟩ (pre ++ (mid ++ post)) =
      pre ++ (vs.flatMap (write native V f) ++ post)
  | [], pre, mid, post, h => by
    rw [List.length_nil, Nat.zero_mul, List.length_eq_zero_iff] at h
    rw [h]; rfl
  | v :: vs, pre, mid, post, h => by
    rw [List.length_cons, Nat.succ_mul] at h
    -- the first sample of `mid` is overwritten, the others are left to the rest
    obtain ⟨m, mid, rfl, hm⟩ := exists_append_of_le (n := f.1.bitwidth.numBytes) (l := mid)
      (by omega)
    rw [List.length_append] at h
    have hover : (⟨f, (pre.length : ℕ)⟩ : Iterator).assign native V v
        (pre ++ (m ++ mid ++ post)) = pre ++ (write native V f v ++ (mid ++ post)) := by
      refine overwrite_of_eq (x := m) ?_ (by simp) ((length_write f v).trans hm.symm)
      rw [List.append_assoc m]
    have hinc : (⟨f, (pre.length : ℕ)⟩ : Iterator).increment =
        ⟨f, ((pre ++ write native V f v).length : ℕ)⟩ := by
      simp [Iterator.increment, Iterator.step, Iterator.numBytes]
    have ih := copyOut_append f vs (pre ++ write native V f v) mid post (by omega)
    rw [copyOut, hover, hinc, List.flatMap_cons]
    simp only [List.append_assoc] at ih ⊢
    exact ih

/-- Copying as many samples as a buffer holds replaces its contents. -/
theorem copyOut_eq (f : IntFormat) (vs : List V.Val) (dst : List UInt8)
    (h : dst.length = vs.length * f.1.bitwidth.numBytes) :
    copyOut native V vs (.begin f) dst = vs.flatMap (write native V f) := by
  simpa [Iterator.begin] using copyOut_append native f vs [] dst [] h

theorem copyIn_begin (f : IntFormat) (buf : List UInt8) (k : ℕ) :
    copyIn native V buf k (.begin f) = (List.range k).map fun i =>
      read native V f (slice buf (i * f.1.bitwidth.numBytes) f.1.bitwidth.numBytes) := by
  simpa [Iterator.begin] using copyIn_eq native V buf f k 0

theorem length_sampleBytes {f : IntFormat} {buf : List UInt8} {k i : ℕ}
    (h : buf.length = k * f.1.bitwidth.numBytes) (hi : i < k) :
    (slice buf (i * f.1.bitwidth.numBytes) f.1.bitwidth.numBytes).length =
      f.1.bitwidth.numBytes := by
  apply length_slice
  have := Nat.mul_le_mul_right f.1.bitwidth.numBytes (show i + 1 ≤ k from hi)
  rw [Nat.succ_mul] at this
  omega

end

/-! ## The arithmetic definition of decoding -/

/-- The integer that the bytes of one sample denote: unsigned or two's
    complement, in the byte order of the format. -/
def RuntimeFormat.denote (f : RuntimeFormat) (bs : List UInt8) : ℤ :=
  let n := f.endian.ofBytes bs
  if f.number = .signedInteger ∧ 2 ^ (f.bitwidth.bits - 1) ≤ n then (n : ℤ) - 2 ^ f.bitwidth.bits
  else n

/-- The least sample of the format. -/
def RuntimeFormat.minSample (f : RuntimeFormat) : ℤ :=
  if f.number = .signedInteger then -2 ^ (f.bitwidth.bits - 1) else 0

theorem denote_sub_min (f : IntFormat) {bs : List UInt8} (h : bs.length = f.1.bitwidth.numBytes) :
    f.1.denote bs - f.1.minSample = (level f.tag.signed (f.tag.sample bs) : ℤ) := by
  have hs : (f.tag.sample bs).toNat = f.1.endian.ofBytes bs := IntTag.toNat_sample h
  have hb : f.tag.bits = f.1.bitwidth.bits := rfl
  by_cases hn : f.1.number = .signedInteger
  · have hsg : f.tag.signed = true := decide_eq_true hn
    have h2 : (2 : ℤ) ^ f.1.bitwidth.bits = 2 * ((2 ^ (f.1.bitwidth.bits - 1) : ℕ) : ℤ) := by
      have hp := hb ▸ f.tag.bits_pos
      push_cast
      rw [← pow_succ', Nat.sub_add_cancel hp]
    have h3 : (2 : ℤ) ^ (f.1.bitwidth.bits - 1) = ((2 ^ (f.1.bitwidth.bits - 1) : ℕ) : ℤ) := by
      push_cast; rfl
    simp only [RuntimeFormat.denote, RuntimeFormat.minSample, hn, true_and, if_true, level, hsg]
    rw [toNat_flipTop f.tag.bits_pos, hs, hb, h2, h3]
    generalize 2 ^ (f.1.bitwidth.bits - 1) = M
    split_ifs <;> omega
  · have hsg : f.tag.signed = false := decide_eq_false hn
    simp [RuntimeFormat.denote, RuntimeFormat.minSample, hn, level, hsg, hs]

theorem scale_eq_floor (w w' n : ℕ) :
    (scale w w' n : ℤ) = ⌊(n : ℚ) * 2 ^ ((w' : ℤ) - w)⌋ := by
  unfold scale
  split_ifs with h
  · have e : (w' : ℤ) - w = -((w - w' : ℕ) : ℤ) := by omega
    rw [e, zpow_neg, zpow_natCast, ← div_eq_mul_inv]
    have := Rat.floor_intCast_div_natCast (n : ℤ) (2 ^ (w - w'))
    push_cast at this ⊢
    exact this.symm
  · have e : (w' : ℤ) - w = ((w' - w : ℕ) : ℤ) := by omega
    rw [e, zpow_natCast]
    have hc : (n : ℚ) * 2 ^ (w' - w) = ((n * 2 ^ (w' - w) : ℕ) : ℚ) := by push_cast; rfl
    rw [hc, Int.floor_natCast]

/-! ## Main results -/

section
variable {native : EndianType} {V : IntType}

theorem deref_advance (f : IntFormat) (buf : List UInt8) (i : ℕ) :
    ((Iterator.begin f).advance i).deref native V buf =
      read native V f (slice buf (i * f.1.bitwidth.numBytes) f.1.bitwidth.numBytes) := by
  have hpos : ((Iterator.begin f).advance i).iter.toNat = i * f.1.bitwidth.numBytes := by
    simp only [Iterator.advance, Iterator.begin, Iterator.step, Iterator.numBytes, zero_add]
    rw [← Int.natCast_mul, Int.toNat_natCast]
  rw [Iterator.deref, hpos]; rfl

/-- Writing a value and reading it back cuts it to the width of the format. -/
theorem read_write (f : IntFormat) (v : V.Val) :
    read native V f (write native V f v) =
      if f.1.bitwidth.bits < V.bits
      then v &&& (BitVec.allOnes V.bits <<< (V.bits - f.1.bitwidth.bits)) else v := by
  have hb : f.tag.bits = f.1.bitwidth.bits := rfl
  apply level_injective V.signed
  have hrw : level V.signed (read native V f (write native V f v)) = _ :=
    level_readImpl_writeImpl native f.tag v
  rw [hrw, hb]
  split_ifs with hlt
  · -- the mask is what a shift down and back up leaves
    have hmask : v &&& (BitVec.allOnes V.bits <<< (V.bits - f.1.bitwidth.bits)) =
        shiftCast V.signed V.bits (shiftCast V.signed f.1.bitwidth.bits v) := by
      refine BitVec.eq_of_getLsbD_eq fun j hj => ?_
      rw [getLsbD_shiftCast, getLsbD_shiftCast, BitVec.getLsbD_and, BitVec.getLsbD_shiftLeft]
      by_cases hc : V.bits ≤ j + f.1.bitwidth.bits
      · rw [show j + f.1.bitwidth.bits - V.bits + V.bits - f.1.bitwidth.bits = j by omega]
        have h1 : ¬ j < V.bits - f.1.bitwidth.bits := by omega
        have h2 : j - (V.bits - f.1.bitwidth.bits) < V.bits := by omega
        have h3 : j + f.1.bitwidth.bits - V.bits < f.1.bitwidth.bits := by omega
        simp [hj, hc, h1, h2, h3]
      · have h1 : j < V.bits - f.1.bitwidth.bits := by omega
        simp [hc, h1]
    have hpos : 0 < f.1.bitwidth.bits := f.tag.bits_pos
    rw [hmask, level_shiftCast hpos, level_shiftCast V.bits_pos]
  · rw [scale_scale (Or.inl (by omega)), scale_self]

end

/-- **Decoding.**  The `i`-th sample of a buffer of `k` samples, read as a value
    of type `V`, is the integer its bytes denote, scaled to the width of `V` and
    rounded down (both relative to the least value). -/
theorem read_exact (native : EndianType) (f : IntFormat) (V : IntType) (buf : List UInt8)
    (k i : ℕ) (h : buf.length = k * f.1.bitwidth.numBytes) (hi : i < k) :
    V.toInt (((Iterator.begin f).advance i).deref native V buf) - V.min =
      ⌊((f.1.denote (slice buf (i * f.1.bitwidth.numBytes) f.1.bitwidth.numBytes) -
          f.1.minSample : ℤ) : ℚ) * 2 ^ ((V.bits : ℤ) - f.1.bitwidth.bits)⌋ := by
  have hl := length_sampleBytes h hi
  rw [V.toInt_sub_min, deref_advance, denote_sub_min f hl]
  have hr : level V.signed (read native V f (slice buf _ _)) = _ :=
    level_readImpl native V f.tag hl
  rw [hr, scale_eq_floor]
  rfl

theorem mem_s24be : ⟨.signedInteger, ._24bit, .bigEndian⟩ ∈ compiletimeFormats := by decide

/-- A format of the table, for concrete runs. -/
def s24be : IntFormat :=
  ⟨.ofTag ⟨.signedInteger, ._24bit, .bigEndian⟩ mem_s24be, NumberType.noConfusion⟩

theorem read_exact_s24be :
    IntType.toInt ⟨true, .w16⟩ (((Iterator.begin s24be).advance (1 : ℕ)).deref .littleEndian
      ⟨true, .w16⟩ [0, 0, 0, 0xFF, 0xFE, 0xFF]) - IntType.min ⟨true, .w16⟩ =
      ⌊((-257 - -2 ^ 23 : ℤ) : ℚ) * 2 ^ ((16 : ℤ) - 24)⌋ :=
  read_exact .littleEndian s24be ⟨true, .w16⟩ [0, 0, 0, 0xFF, 0xFE, 0xFF] 2 1 rfl (by decide)

/-- **Copying round trips.**  (1) Copying all samples of a buffer out as a type at
    least as wide as the format, and back into a buffer, reproduces it.  (2)
    Copying values into a buffer and out again returns them, with the low bits
    cleared that the format has no room for. -/
theorem copy_roundtrip (native : EndianType) (f : IntFormat) (V : IntType) :
    (f.1.bitwidth.bits ≤ V.bits → ∀ (k : ℕ) (buf dst : List UInt8),
      buf.length = k * f.1.bitwidth.numBytes → dst.length = buf.length →
      copyOut native V (copyIn native V buf k (.begin f)) (.begin f) dst = buf) ∧
    (∀ (vs : List V.Val) (dst : List UInt8), dst.length = vs.length * f.1.bitwidth.numBytes →
      copyIn native V (copyOut native V vs (.begin f) dst) vs.length (.begin f) =
        if f.1.bitwidth.bits < V.bits
        then vs.map fun v => v &&& (BitVec.allOnes V.bits <<< (V.bits - f.1.bitwidth.bits))
        else vs) := by
  constructor
  · intro hw k buf dst hbuf hdst
    have hlen : (copyIn native V buf k (.begin f)).length = k := length_copyIn buf f k 0
    rw [copyOut_eq f _ dst (by rw [hdst, hbuf, hlen]), copyIn_begin, List.flatMap_map]
    have hback : ∀ i ∈ List.range k, write native V f (read native V f
        (slice buf (i * f.1.bitwidth.numBytes) f.1.bitwidth.numBytes)) =
        slice buf (i * f.1.bitwidth.numBytes) f.1.bitwidth.numBytes := fun i hi =>
      writeImpl_readImpl (t := f.tag) (length_sampleBytes hbuf (List.mem_range.1 hi)) hw
    rw [List.flatMap_congr hback, flatMap_slice k buf hbuf]
  · intro vs dst hdst
    have hread : copyIn native V (copyOut native V vs (.begin f) dst) vs.length (.begin f) =
        vs.map fun v => read native V f (write native V f v) := by
      rw [copyOut_eq f vs dst hdst, copyIn_begin]
      refine List.ext_getElem (by simp) fun i h1 h2 => ?_
      have hi : i < vs.length := by simpa using h2
      simp only [List.getElem_map, List.getElem_range]
      rw [slice_flatMap (length_write f) vs i hi]
    rw [hread]
    simp only [read_write]
    split_ifs <;> simp

theorem copy_roundtrip_s24be :
    copyOut .littleEndian ⟨true, .w32⟩ (copyIn .littleEndian ⟨true, .w32⟩
      [1, 2, 3, 0xFF, 0xFE, 0xFF] 2 (.begin s24be)) (.begin s24be) [0, 0, 0, 0, 0, 0] =
      [1, 2, 3, 0xFF, 0xFE, 0xFF] ∧
    copyIn .littleEndian ⟨true, .w32⟩ (copyOut .littleEndian ⟨true, .w32⟩
      [(0x01020304#32 : BitVec 32)] (.begin s24be) [0, 0, 0]) 1 (.begin s24be) =
      [(0x01020300#32 : BitVec 32)] :=
  ⟨(copy_roundtrip .littleEndian s24be ⟨true, .w32⟩).1 (by decide) 2 _ _ rfl rfl,
    (copy_roundtrip .littleEndian s24be ⟨true, .w32⟩).2 [(0x01020304#32 : BitVec 32)] _ rfl⟩

/-- **Transcoding** does not depend on the type in between: the bytes that result
    from reading with `f` and writing with `g` are the same for any two types of
    at least the smaller width, and so is a conversion through a third type. -/
theorem transcode_independent :
    (∀ (native : EndianType) (f g : IntFormat) (V₁ V₂ : IntType),
      min f.1.bitwidth.bits g.1.bitwidth.bits ≤ V₁.bits →
      min f.1.bitwidth.bits g.1.bitwidth.bits ≤ V₂.bits →
      ∀ (k : ℕ) (buf dst : List UInt8), buf.length = k * f.1.bitwidth.numBytes →
        dst.length = k * g.1.bitwidth.numBytes →
        copyOut native V₁ (copyIn native V₁ buf k (.begin f)) (.begin g) dst =
          copyOut native V₂ (copyIn native V₂ buf k (.begin f)) (.begin g) dst) ∧
    (∀ (A B C : IntType) (a : A.Val), min A.bits C.bits ≤ B.bits →
      convertTo C B (convertTo B A a) = convertTo C A a) := by
  constructor
  · intro native f g V₁ V₂ h₁ h₂ k buf dst hbuf hdst
    have hlen : ∀ V : IntType, dst.length =
        (copyIn native V buf k (.begin f)).length * g.1.bitwidth.numBytes := by
      intro V
      rw [hdst]; exact congrArg (· * _) (length_copyIn buf f k 0).symm
    rw [copyOut_eq g _ dst (hlen V₁), copyOut_eq g _ dst (hlen V₂), copyIn_begin, copyIn_begin,
      List.flatMap_map, List.flatMap_map]
    refine List.flatMap_congr fun i hi => ?_
    have hl := length_sampleBytes hbuf (List.mem_range.1 hi)
    -- either way the level of the sample is scaled from the one format to the other
    refine IntTag.sample_injective (t := g.tag) (length_write g _) (length_write g _) ?_
    apply level_injective g.tag.signed
    have hs₁ := sample_writeImpl native V₁ g.tag
    have hs₂ := sample_writeImpl native V₂ g.tag
    simp only [write, read, hs₁, hs₂]
    rw [level_quantize_readImpl (t := f.tag) (g := g.tag) hl (min_le_iff.1 h₁),
      level_quantize_readImpl (t := f.tag) (g := g.tag) hl (min_le_iff.1 h₂)]
  · exact fun A B C a h => convertTo_convertTo A B C (min_le_iff.1 h) a

theorem transcode_independent_s24be :
    copyOut .littleEndian ⟨true, .w32⟩ (copyIn .littleEndian ⟨true, .w32⟩ [1, 2, 3] 1
      (.begin s24be)) (.begin s24be) [0, 0, 0] =
    copyOut .littleEndian ⟨false, .w64⟩ (copyIn .littleEndian ⟨false, .w64⟩ [1, 2, 3] 1
      (.begin s24be)) (.begin s24be) [0, 0, 0] :=
  transcode_independent.1 .littleEndian s24be s24be ⟨true, .w32⟩ ⟨false, .w64⟩ (by decide)
    (by decide) 1 [1, 2, 3] [0, 0, 0] rfl rfl

end NiMedia
