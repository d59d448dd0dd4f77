/-
  The values of samples.

  Samples of integer formats are read as `int64_t`, into which all of them embed
  (`pcm::read`); floating samples are the numbers of the IEEE interchange
  formats, with one NaN.

  * `readSample_eq_iff`: when two formats of one width read bytes as the same
    sample.
-/
import NiMedia.Lib.Floats
import NiMedia.Pcm.Iterator

namespace NiMedia

open Bytes Words Float.Model

/-! ## Reading samples -/

def int64 : IntType := ⟨true, .w64⟩

/-- The value of a sample. -/
inductive Sample where
  | fixed : int64.Val → Sample
  | floating : UnpackedFloat → Sample

/-- The interchange format of `float` or `double`. -/
def BitwidthType.floatFormat : BitwidthType → Float.Model.Format
  | _32bit => .binary32
  | _ => .binary64

/-- The number that the object representation of a `float` or `double` stands
    for. -/
def floatOf (b : BitwidthType) (e : EndianType) (bs : List UInt8) : UnpackedFloat :=
  UnpackedFloat.unpack b.floatFormat (BitVec.ofNat _ (e.ofBytes bs))

/-- `read_impl` for floating formats, where nothing is converted. -/
def readFloat (native : EndianType) (t : CompiletimeFormat) (bs : List UInt8) : UnpackedFloat :=
  floatOf t.bitwidth native (Intermediate.load native t bs)

/-- `pcm::read`. -/
def readSample (native : EndianType) (f : RuntimeFormat) (bs : List UInt8) : Sample :=
  if h : f.number = .floatingPoint then .floating (readFloat native f.tag bs)
  else .fixed (read native int64 ⟨f, h⟩ bs)

/-- The bytes of the `i`-th sample. -/
def sampleBytes (b : BitwidthType) (D : List UInt8) (i : ℕ) : List UInt8 :=
  slice D (i * b.numBytes) b.numBytes

/-- The samples that the bytes `D` hold. -/
def decode (native : EndianType) (f : RuntimeFormat) (D : List UInt8) : List Sample :=
  (List.range (D.length / f.bitwidth.numBytes)).map fun i =>
    readSample native f (sampleBytes f.bitwidth D i)

/-! ## The same sample in two formats -/

section
variable {native : EndianType} {f g : RuntimeFormat} {bs : List UInt8}

theorem ofBytes_eq_iff (e e' : EndianType) (bs : List UInt8) :
    e.ofBytes bs = e'.ofBytes bs ↔ e = e' ∨ bs.reverse = bs := by
  have h := beNat_eq_leNat_iff bs
  cases e <;> cases e' <;> simp only [EndianType.ofBytes, true_or, reduceCtorEq, false_or, h]
  rw [eq_comm, h]

theorem reverse_of_8bit {bs : List UInt8} (h : bs.length = BitwidthType._8bit.numBytes) :
    bs.reverse = bs := by
  obtain ⟨b, rfl⟩ := List.length_eq_one_iff.1 h
  rfl

/-- Signed and unsigned samples of the same bytes are never at the same level:
    the levels differ by half the range, and that is 128 modulo 255. -/
theorem flipTop_ne (e e' : EndianType) {b : BitwidthType} (hl : bs.length = b.numBytes) :
    (flipTop (BitVec.ofNat b.bits (e.ofBytes bs))).toNat ≠ e'.ofBytes bs := by
  have hpos : 0 < b.bits := by cases b <;> decide
  have hlt := e.ofBytes_lt bs
  rw [hl, ← two_pow_bits] at hlt
  have hmod : ∀ e : EndianType, e.ofBytes bs % 255 = (bs.map UInt8.toNat).sum % 255 := by
    intro e
    cases e
    · exact beNat_mod bs
    · exact leNat_mod bs
  have he := hmod e
  have he' := hmod e'
  have hhalf : 2 ^ (b.bits - 1) % 255 = 128 := by cases b <;> decide
  rw [toNat_flipTop hpos, BitVec.toNat_ofNat, Nat.mod_eq_of_lt hlt]
  generalize 2 ^ (b.bits - 1) = half at *
  split_ifs <;> omega

theorem scale_injective {w w' m n : ℕ} (h : w ≤ w') (he : scale w w' m = scale w w' n) : m = n := by
  rw [scale, scale, if_neg (by omega), if_neg (by omega)] at he
  exact Nat.eq_of_mul_eq_mul_right (Nat.two_pow_pos _) he

/-- The bytes are read as the same sample by both formats. -/
def sameSample (f g : RuntimeFormat) (bs : List UInt8) : Prop :=
  f.number = g.number ∧ (f.endian = g.endian ∨ bs.reverse = bs ∨
    f.number = .floatingPoint ∧ ∀ e, floatOf f.bitwidth e bs = .notANumber)

/-- The level of the integer sample that the bytes stand for. -/
def sampleLevel (signed : Bool) (b : BitwidthType) (e : EndianType) (bs : List UInt8) : ℕ :=
  level signed (BitVec.ofNat b.bits (e.ofBytes bs))

variable (native) in
theorem level_read (f : IntFormat) (hl : bs.length = f.1.bitwidth.numBytes) :
    level true (read native int64 f bs) = scale f.1.bitwidth.bits 64
      (sampleLevel f.tag.signed f.1.bitwidth f.1.endian bs) :=
  level_readImpl native int64 f.tag hl

/-- Integer formats are told apart by their signedness. -/
theorem NumberType.signed_eq_iff {m n : NumberType} (hm : m ≠ .floatingPoint)
    (hn : n ≠ .floatingPoint) :
    decide (m = .signedInteger) = decide (n = .signedInteger) ↔ m = n := by
  revert hm hn
  cases m <;> cases n <;> decide

variable (native) in
/-- Integer samples are the same iff their levels are. -/
theorem read_eq_iff {f g : IntFormat} (hl : bs.length = f.1.bitwidth.numBytes)
    (hw : g.1.bitwidth = f.1.bitwidth) :
    read native int64 f bs = read native int64 g bs ↔
      sampleLevel f.tag.signed f.1.bitwidth f.1.endian bs =
        sampleLevel g.tag.signed f.1.bitwidth g.1.endian bs := by
  have hle : f.1.bitwidth.bits ≤ 64 := by cases f.1.bitwidth <;> decide
  have hF := level_read native f hl
  have hG := level_read native g (hl.trans (by rw [hw]))
  rw [hw] at hG
  constructor
  · intro h
    rw [h, hG] at hF
    exact (scale_injective hle hF).symm
  · intro h
    apply level_injective true
    rw [hF, hG, h]

theorem sampleLevel_eq_iff (e e' : EndianType) (s s' : Bool) {b : BitwidthType}
    (hl : bs.length = b.numBytes) :
    sampleLevel s b e bs = sampleLevel s' b e' bs ↔ s = s' ∧ (e = e' ∨ bs.reverse = bs) := by
  have htoNat : ∀ e : EndianType, (BitVec.ofNat b.bits (e.ofBytes bs)).toNat = e.ofBytes bs := by
    intro e
    have hlt := e.ofBytes_lt bs
    rw [hl, ← two_pow_bits] at hlt
    rw [BitVec.toNat_ofNat, Nat.mod_eq_of_lt hlt]
  have hsame : ∀ s, sampleLevel s b e bs = sampleLevel s b e' bs ↔
      (e = e' ∨ bs.reverse = bs) := by
    intro s
    rw [← ofBytes_eq_iff]
    constructor
    · intro h
      have heq := congrArg BitVec.toNat (level_injective s h)
      rwa [htoNat, htoNat] at heq
    · intro h
      rw [sampleLevel, h, sampleLevel]
  cases s <;> cases s'
  · simpa using hsame false
  · simp only [sampleLevel, level, Bool.false_eq_true, false_and, iff_false]
    intro h
    exact flipTop_ne e' e hl (by simpa [htoNat] using h.symm)
  · simp only [sampleLevel, level, Bool.true_eq_false, false_and, iff_false]
    intro h
    exact flipTop_ne e e' hl (by simpa [htoNat] using h)
  · simpa using hsame true

/-- Floating samples are the same iff they have the same bytes in both byte
    orders, or are NaNs in both. -/
theorem floatOf_eq_iff (e e' : EndianType) {b : BitwidthType} (hb : b = ._32bit ∨ b = ._64bit)
    (hl : bs.length = b.numBytes) :
    floatOf b e bs = floatOf b e' bs ↔
      e = e' ∨ bs.reverse = bs ∨ ∀ e, floatOf b e bs = .notANumber := by
  have hexp : 1 < b.floatFormat.exponentBits := by rcases hb with rfl | rfl <;> decide
  have hbits : 2 ^ b.floatFormat.numBits = 256 ^ b.numBytes := by rcases hb with rfl | rfl <;> rfl
  constructor
  · intro h
    rcases Floats.unpack_inj hexp h with heq | hnan
    · have := congrArg BitVec.toNat heq
      have hlt := e.ofBytes_lt bs
      have hlt' := e'.ofBytes_lt bs
      rw [hl, ← hbits] at hlt hlt'
      rw [BitVec.toNat_ofNat, BitVec.toNat_ofNat, Nat.mod_eq_of_lt hlt, Nat.mod_eq_of_lt hlt',
        ofBytes_eq_iff] at this
      exact this.imp_right .inl
    · by_cases he : e = e'
      · exact .inl he
      · right; right
        intro e''
        have he'' : e'' = e ∨ e'' = e' := by
          revert he; cases e <;> cases e' <;> cases e'' <;> decide
        rcases he'' with rfl | rfl
        · exact hnan
        · exact h.symm.trans hnan
  · rintro (rfl | hrev | hnan)
    · rfl
    · rw [floatOf, floatOf, (ofBytes_eq_iff e e' bs).2 (.inr hrev)]
    · rw [hnan e, hnan e']

theorem readFloat_eq {t : CompiletimeFormat} (ht : t.bitwidth = ._32bit ∨ t.bitwidth = ._64bit)
    (hl : bs.length = t.bitwidth.numBytes) :
    readFloat native t bs = floatOf t.bitwidth t.endian bs := by
  have hpad : t.bitwidth.storage.bytes - t.bitwidth.numBytes = 0 := by
    rcases ht with h | h <;> rw [h] <;> rfl
  rw [readFloat, floatOf, Intermediate.load_eq native t hl, hpad, pow_zero, Nat.mul_one, floatOf]

theorem RuntimeFormat.floating_bitwidth (h : f.number = .floatingPoint) :
    f.bitwidth = ._32bit ∨ f.bitwidth = ._64bit :=
  ((mem_compiletimeFormats _).1 f.tag_mem).resolve_left (absurd h)

/-- **When two formats agree** on a sample. -/
theorem readSample_eq_iff (hw : g.bitwidth = f.bitwidth) (hl : bs.length = f.bitwidth.numBytes) :
    readSample native f bs = readSample native g bs ↔ sameSample f g bs := by
  unfold readSample sameSample
  by_cases hf : f.number = .floatingPoint
  · rw [dif_pos hf]
    by_cases hg : g.number = .floatingPoint
    · have hb := RuntimeFormat.floating_bitwidth hf
      have hlg : bs.length = g.tag.bitwidth.numBytes := hl.trans (congrArg _ hw.symm)
      have hbg : g.tag.bitwidth = ._32bit ∨ g.tag.bitwidth = ._64bit :=
        RuntimeFormat.floating_bitwidth hg
      rw [dif_pos hg, readFloat_eq (t := f.tag) hb hl, readFloat_eq hbg hlg]
      have := floatOf_eq_iff f.endian g.endian hb hl
      simp only [RuntimeFormat.tag, hw, Sample.floating.injEq, this, hf, hg, true_and]
    · rw [dif_neg hg]
      exact iff_of_false (by simp) (fun h => hg (h.1.symm.trans hf))
  · rw [dif_neg hf]
    by_cases hg : g.number = .floatingPoint
    · rw [dif_pos hg]
      exact iff_of_false (by simp) (fun h => hf (h.1.trans hg))
    · have hs : IntTag.signed (IntFormat.tag ⟨f, hf⟩) = IntTag.signed (IntFormat.tag ⟨g, hg⟩) ↔
          f.number = g.number := NumberType.signed_eq_iff hf hg
      have hread := read_eq_iff native (f := ⟨f, hf⟩) (g := ⟨g, hg⟩) hl hw
      rw [sampleLevel_eq_iff _ _ _ _ hl, hs] at hread
      rw [dif_neg hg, Sample.fixed.injEq, hread]
      simp only [hf, false_and, or_false]

/-- All samples of `D` are so. -/
def eachSample (b : BitwidthType) (D : List UInt8) (P : List UInt8 → Prop) : Prop :=
  ∀ i < D.length / b.numBytes, P (sampleBytes b D i)

theorem length_sampleBytes_of_lt {b : BitwidthType} {D : List UInt8} {i : ℕ}
    (hi : i < D.length / b.numBytes) : (sampleBytes b D i).length = b.numBytes := by
  refine length_slice ?_
  have h1 := Nat.mul_le_mul_right b.numBytes hi
  have h2 := Nat.div_mul_le_self D.length b.numBytes
  rw [Nat.succ_mul] at h1
  omega

/-- Two formats of one width agree on all the bytes iff they agree on every
    sample. -/
theorem decode_eq_iff (hw : g.bitwidth = f.bitwidth) (D : List UInt8) :
    decode native f D = decode native g D ↔ eachSample f.bitwidth D (sameSample f g) := by
  rw [decode, decode, hw, List.map_inj_left]
  constructor
  · intro h i hi
    exact (readSample_eq_iff hw (length_sampleBytes_of_lt hi)).1 (h i (List.mem_range.2 hi))
  · intro h i hi
    have hi := List.mem_range.1 hi
    exact (readSample_eq_iff hw (length_sampleBytes_of_lt hi)).2 (h i hi)

theorem eachSample_congr {b : BitwidthType} {D : List UInt8} {P Q : List UInt8 → Prop}
    (h : ∀ bs : List UInt8, bs.length = b.numBytes → (P bs ↔ Q bs)) :
    eachSample b D P ↔ eachSample b D Q :=
  forall₂_congr fun _ hi => h _ (length_sampleBytes_of_lt hi)

theorem eachSample_const {b : BitwidthType} {D : List UInt8} {p : Prop}
    (hD : b.numBytes ≤ D.length) : (eachSample b D fun _ => p) ↔ p :=
  ⟨fun h => h 0 (Nat.div_pos hD b.numBytes_pos), fun h _ _ => h⟩

theorem eachSample_and {b : BitwidthType} {D : List UInt8} {p : Prop} {P : List UInt8 → Prop}
    (hD : b.numBytes ≤ D.length) :
    eachSample b D (fun bs => p ∧ P bs) ↔ p ∧ eachSample b D P := by
  constructor
  · intro h
    exact ⟨(h 0 (Nat.div_pos hD b.numBytes_pos)).1, fun i hi => (h i hi).2⟩
  · rintro ⟨hp, h⟩ i hi
    exact ⟨hp, h i hi⟩

theorem eachSample_or {b : BitwidthType} {D : List UInt8} {p : Prop} {P : List UInt8 → Prop} :
    eachSample b D (fun bs => p ∨ P bs) ↔ p ∨ eachSample b D P := by
  by_cases hp : p
  · exact ⟨fun _ => .inl hp, fun _ _ _ => .inl hp⟩
  · simp only [hp, false_or]

end

end NiMedia
