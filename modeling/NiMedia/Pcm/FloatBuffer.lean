/-
  Samples in floating-point buffers, and floating-point samples as integers
  (`pcm/converter.h`: `read_impl`, `write_impl`; `pcm/iterator.h`).

  * `floatBuffer_roundtrip`: reading the samples of an integer format as floating
    values and writing them back reproduces their bytes.
  * `readFixed_inRange_iff`: reading a floating-point sample as an integer casts
    within the range of the type, unless the sample is a NaN.
-/
import NiMedia.Pcm.Floating
import NiMedia.Pcm.Iterator

namespace NiMedia

open Bytes Words Rounding

/-! ## Integer samples as floating values -/

section
variable (native : EndianType) (V : RealType)

/-- The object of the storage type, loaded from the bytes of a sample. -/
def IntTag.word (t : IntTag) (bs : List UInt8) : t.storage.Val :=
  BitVec.ofNat _ (native.ofBytes (Intermediate.load native t.1 bs))

/-- `read_impl` with a floating value type. -/
def readReal (t : IntTag) (bs : List UInt8) : Number :=
  convertToFloating V t.storage (t.word native bs)

/-- `write_impl` with a floating value type; defined where its conversion is. -/
def writeReal (t : IntTag) (v : Number) : Option (List UInt8) :=
  (convertToFixed t.storage V v).map fun word =>
    Intermediate.store native t.1 (native.toBytes t.1.bitwidth.storage.bytes word.toNat)

/-- `proxy::operator Value`. -/
def Iterator.derefReal (it : Iterator) (buf : List UInt8) : Number :=
  readReal native V it.fmt.tag (slice buf it.iter.toNat it.numBytes)

/-- `proxy::operator=`. -/
def Iterator.assignReal (it : Iterator) (v : Number) (buf : List UInt8) : Option (List UInt8) :=
  (writeReal native V it.fmt.tag v).map fun bs => overwrite buf it.iter.toNat bs

/-- Copying `k` samples out of a buffer, one by one. -/
def copyInReal (buf : List UInt8) : ℕ → Iterator → List Number
  | 0, _ => []
  | k + 1, it => it.derefReal native V buf :: copyInReal buf k it.increment

/-- Copying values into a buffer, one by one. -/
def copyOutReal : List Number → Iterator → List UInt8 → Option (List UInt8)
  | [], _, buf => some buf
  | v :: vs, it, buf => (it.assignReal native V v buf).bind (copyOutReal vs it.increment)

end

section
variable {native : EndianType} {V : RealType} {t : IntTag}

/-- The object holds the sample, and gives its bytes back. -/
theorem store_word {bs : List UInt8} (h : bs.length = t.1.bitwidth.numBytes) :
    Intermediate.store native t.1
      (native.toBytes t.1.bitwidth.storage.bytes (t.word native bs).toNat) = bs := by
  have hback : writeImpl native t.storage t (readImpl native t.storage t bs) = bs :=
    writeImpl_readImpl h t.bits_le_storage
  rwa [writeImpl, readImpl, convertTo_self, convertTo_self] at hback

variable (native) in
/-- The signed value of the object is that of the sample, shifted to the top. -/
theorem toInt_word {bs : List UInt8} (h : bs.length = t.1.bitwidth.numBytes) :
    ∃ m : ℤ, -2 ^ (t.bits - 1) ≤ m ∧ m < 2 ^ (t.bits - 1) ∧
      (signCast t.storage.signed true (t.word native bs)).toInt =
        m * 2 ^ (t.storage.bits - t.bits) := by
  have hle := t.bits_le_storage
  have hpos := t.bits_pos
  have hw : level t.signed (t.word native bs) =
      level t.signed (t.sample bs) * 2 ^ (t.storage.bits - t.bits) := by
    have hload : t.word native bs = _ := load_sample h
    rw [hload, level_shiftCast hpos, scale, if_neg (by omega)]
  have hsum := toInt_add_two_pow t.storage.bits_pos
    (signCast t.storage.signed true (t.word native bs))
  have hlevel := level_signCast t.storage.bits_pos t.storage.signed true (t.word native bs)
  simp only [level, if_true] at hlevel
  have hs : t.storage.signed = t.signed := rfl
  rw [hlevel] at hsum
  have hstorage : (if t.storage.signed = true then (flipTop (t.word native bs)).toNat
      else (t.word native bs).toNat) = level t.signed (t.word native bs) := rfl
  rw [hstorage, hw] at hsum
  have hlt : level t.signed (t.sample bs) < 2 ^ t.bits := by
    unfold level
    split_ifs
    · exact BitVec.isLt _
    · exact BitVec.isLt _
  have hsplit : (2 : ℤ) ^ (t.storage.bits - 1) =
      2 ^ (t.bits - 1) * 2 ^ (t.storage.bits - t.bits) := by
    rw [← pow_add]; congr 1; omega
  have htwo : (2 : ℤ) ^ t.bits = 2 * 2 ^ (t.bits - 1) := by
    rw [← pow_succ', Nat.sub_add_cancel hpos]
  have hltZ : (level t.signed (t.sample bs) : ℤ) < 2 ^ t.bits := by exact_mod_cast hlt
  refine ⟨level t.signed (t.sample bs) - 2 ^ (t.bits - 1), by omega, by omega, ?_⟩
  rw [sub_mul, ← hsplit]
  push_cast at hsum
  linarith

/-- **A sample** of at most the digits of the floating type comes back from
    there. -/
theorem writeReal_readReal {bs : List UInt8} (h : bs.length = t.1.bitwidth.numBytes)
    (hb : t.bits ≤ V.digits) : writeReal native V t (readReal native V t bs) = some bs := by
  obtain ⟨m, h1, h2, hm⟩ := toInt_word native h
  have hpos := t.bits_pos
  have hle := t.bits_le_storage
  have hbits : (2 : ℤ) ^ (t.bits - 1) ≤ 2 ^ (V.digits - 1) :=
    pow_le_pow_right₀ (by norm_num) (by omega)
  have hdigits : (2 : ℤ) ^ V.digits = 2 * 2 ^ (V.digits - 1) := by
    rw [← pow_succ', Nat.sub_add_cancel V.digits_pos]
  have habs : |m| ≤ 2 ^ (t.bits - 1) := abs_le.2 ⟨h1, h2.le⟩
  have hrep : Representable V.digits
      (signCast t.storage.signed true (t.word native bs)).toInt := by
    refine ⟨m, (t.storage.bits - t.bits : ℕ), ?_, by rw [hm, zpow_natCast]; push_cast; rfl⟩
    have : (0 : ℤ) < 2 ^ (V.digits - 1) := by positivity
    omega
  have htop : (signCast t.storage.signed true (t.word native bs)).toInt ≤
      top V.digits t.storage.bits := by
    have hone : m + 1 ≤ 2 ^ (t.bits - 1) := h2
    have hstep : (2 : ℤ) ^ (t.storage.bits - V.digits) ≤ 2 ^ (t.storage.bits - t.bits) :=
      pow_le_pow_right₀ (by norm_num) (by omega)
    have hsplit : (2 : ℤ) ^ (t.storage.bits - 1) =
        2 ^ (t.bits - 1) * 2 ^ (t.storage.bits - t.bits) := by
      rw [← pow_add]; congr 1; omega
    have hmul := mul_le_mul_of_nonneg_right hone
      (show (0 : ℤ) ≤ 2 ^ (t.storage.bits - t.bits) by positivity)
    rw [hm, top, hsplit]
    linarith [add_mul m 1 ((2 : ℤ) ^ (t.storage.bits - t.bits))]
  have hsmall : |(signCast t.storage.signed true (t.word native bs)).toInt| < 2 ^ (V.digits - 1) ∨
      Even (signCast t.storage.signed true (t.word native bs)).toInt := by
    rw [hm]
    rcases Nat.eq_zero_or_pos (t.storage.bits - t.bits) with hz | hz
    · -- a sample that fills its object is small, or the least one of its type
      rw [hz, pow_zero, mul_one]
      rcases (habs.trans hbits).lt_or_eq with hlt | heq
      · exact Or.inl hlt
      · right
        rw [← even_abs, heq]
        exact even_two.pow_of_ne_zero (by cases V <;> decide)
    · exact Or.inr ((even_two.pow_of_ne_zero hz.ne').mul_left m)
  have hback := (convertToFixed_convertToFloating hrep htop).2 hsmall
  rw [writeReal, readReal, hback, Option.map_some, store_word h]

end

section
variable (native : EndianType) {V : RealType} {f : IntFormat}

/-- A copy out of one buffer and into another of the same length, from a sample
    on. -/
theorem copyReal_append (hb : f.1.bitwidth.bits ≤ V.digits) :
    ∀ (k : ℕ) (pre post mid : List UInt8), post.length = k * f.1.bitwidth.numBytes →
      mid.length = post.length →
      copyOutReal native V (copyInReal native V (pre ++ post) k ⟨f, (pre.length : ℕ)⟩)
        ⟨f, (pre.length : ℕ)⟩ (pre ++ mid) = some (pre ++ post)
  | 0, pre, post, mid, hpost, hmid => by
    rw [Nat.zero_mul] at hpost
    rw [List.length_eq_zero_iff.1 hpost, List.length_eq_zero_iff.1 (hmid.trans hpost)]
    rfl
  | k + 1, pre, post, mid, hpost, hmid => by
    rw [Nat.succ_mul] at hpost
    -- the first sample of `post` is read, and written over the first of `mid`
    obtain ⟨s, post, rfl, hs⟩ := exists_append_of_le (n := f.1.bitwidth.numBytes) (l := post)
      (by omega)
    obtain ⟨m, mid, rfl, hm⟩ := exists_append_of_le (n := f.1.bitwidth.numBytes) (l := mid)
      (by omega)
    rw [List.length_append] at hpost hmid
    rw [List.length_append] at hmid
    have hread : (⟨f, (pre.length : ℕ)⟩ : Iterator).derefReal native V (pre ++ (s ++ post)) =
        readReal native V f.tag s := by
      have hslice : slice (pre ++ (s ++ post)) pre.length f.1.bitwidth.numBytes = s := by
        rw [slice, List.drop_left, ← hs, List.take_left]
      rw [Iterator.derefReal, Int.toNat_natCast]
      exact congrArg _ hslice
    have hwrite : (⟨f, (pre.length : ℕ)⟩ : Iterator).assignReal native V
        (readReal native V f.tag s) (pre ++ (m ++ mid)) = some (pre ++ (s ++ mid)) := by
      have hback : writeReal native V f.tag (readReal native V f.tag s) = some s :=
        writeReal_readReal hs hb
      rw [Iterator.assignReal, hback, Option.map_some, Int.toNat_natCast,
        overwrite_of_eq rfl rfl (hs.trans hm.symm)]
    have hinc : (⟨f, (pre.length : ℕ)⟩ : Iterator).increment = ⟨f, ((pre ++ s).length : ℕ)⟩ := by
      simp [Iterator.increment, Iterator.step, Iterator.numBytes, hs]
    have ih := copyReal_append hb k (pre ++ s) post mid (by omega) (by omega)
    rw [copyInReal, copyOutReal, hread, hwrite, hinc, Option.bind_some]
    simp only [List.append_assoc] at ih
    exact ih

end

/-- **Floating-point buffers** keep integer samples: reading all samples of a
    format as floating values that have as many digits, and writing them back with
    the same format, reproduces the bytes. -/
theorem floatBuffer_roundtrip (native : EndianType) (f : IntFormat) (V : RealType)
    (hb : (V = .float ∧ f.1.bitwidth.bits ≤ 24) ∨ (V = .double ∧ f.1.bitwidth.bits ≤ 32))
    (k : ℕ) (buf dst : List UInt8) (hbuf : buf.length = k * f.1.bitwidth.numBytes)
    (hdst : dst.length = buf.length) :
    copyOutReal native V (copyInReal native V buf k (.begin f)) (.begin f) dst = some buf := by
  have hdigits : f.1.bitwidth.bits ≤ V.digits := by
    rcases hb with ⟨rfl, hle⟩ | ⟨rfl, hle⟩
    · exact hle
    · exact hle.trans (by decide)
  exact copyReal_append native hdigits k [] buf dst hbuf hdst

theorem floatBuffer_roundtrip_s24be :
    copyOutReal .littleEndian .float
      (copyInReal .littleEndian .float [0x80, 0, 0, 0x7F, 0xFF, 0xFF] 2 (.begin s24be))
      (.begin s24be) [0, 0, 0, 0, 0, 0] = some [0x80, 0, 0, 0x7F, 0xFF, 0xFF] :=
  floatBuffer_roundtrip .littleEndian s24be .float (.inl ⟨rfl, by decide⟩) 2 _ _ rfl rfl

/-! ## Floating-point samples as integers -/

/-- The interchange format of a floating type. -/
def RealType.format : RealType → Float.Model.Format
  | float => .binary32
  | double => .binary64

/-- The runtime formats with floating storage. -/
abbrev RealFormat := {f : RuntimeFormat // f.number = .floatingPoint}

/-- `storage<Format>::type`. -/
def RealFormat.storage (f : RealFormat) : RealType :=
  if f.1.bitwidth = ._32bit then .float else .double

section
variable (native : EndianType) (V : IntType) (f : RealFormat) (bs : List UInt8)

/-- The number that the object of the storage type stands for, loaded from the
    bytes of a sample. -/
def RealFormat.value : Number :=
  .ofFloat (Float.Model.UnpackedFloat.unpack f.storage.format
    (BitVec.ofNat _ (native.ofBytes (Intermediate.load native f.1.tag bs))))

/-- `pcm::read` with an integer value type, from a floating-point format. -/
def readFixed : Option V.Val := convertToFixed V f.storage (f.value native bs)

/-- The operand of the cast in `pcm::read`. -/
def readCastArgument : Number := castArgument f.storage.digits V.bits (f.value native bs)

end

theorem IntType.two_le_bits (t : IntType) : 2 ≤ t.bits := by
  obtain ⟨s, _ | _ | _ | _⟩ := t <;> exact Nat.le_add_left 2 _

/-- **Casts.**  The operand of the cast truncates to an integer of the target's
    range for every sample that is not a NaN, and for no other. -/
theorem readFixed_inRange_iff (native : EndianType) (V : IntType) (f : RealFormat)
    (bs : List UInt8) :
    (∃ n, (readCastArgument native V f bs).truncate = some n ∧ InRange V.bits n) ↔
      f.value native bs ≠ .notANumber :=
  castArgument_inRange_iff f.storage.digits_pos V.two_le_bits _

theorem mem_f32le : ⟨.floatingPoint, ._32bit, .littleEndian⟩ ∈ compiletimeFormats := by decide

/-- A floating-point format of the table, for a concrete sample. -/
def f32le : RealFormat := ⟨.ofTag ⟨.floatingPoint, ._32bit, .littleEndian⟩ mem_f32le, rfl⟩

/-- A NaN passes the clamp and reaches the cast. -/
theorem readFixed_nan :
    ¬ ∀ (native : EndianType) (V : IntType) (f : RealFormat) (bs : List UInt8),
      bs.length = f.1.bitwidth.numBytes →
      ∃ n, (readCastArgument native V f bs).truncate = some n ∧ InRange V.bits n := by
  intro h
  obtain ⟨n, hn, -⟩ := h .littleEndian ⟨true, .w16⟩ f32le [0, 0, 0xC0, 0x7F] rfl
  have hvalue : f32le.value .littleEndian [0, 0, 0xC0, 0x7F] = .notANumber := by rfl
  rw [readCastArgument, hvalue] at hn
  cases hn

end NiMedia
