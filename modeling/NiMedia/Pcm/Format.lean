/-
  PCM formats (`pcm/description.h`, `compiletime_format.h`,
  `runtime_format.h`).

  A compile-time format is a number type, a bit width and a byte order; 24 of
  them are supported (`compiletimeFormats`).  A runtime format carries, besides
  the three, its index in that table, by which `pcm::read` and `pcm::write`
  dispatch; the field `index_eq` says that the index is the right one, so a
  runtime format outside the table cannot be built.

  The byte order of the host, a constant of the preprocessor in the source
  (`native_endian`), is a parameter `native` throughout.
-/
import NiMedia.Lib.Bytes

namespace NiMedia

/-- `std::runtime_error`: the text of `what()`. -/
structure RuntimeError where
  what : String
  deriving DecidableEq, Repr

/-! ## Descriptions -/

inductive NumberType where
  | signedInteger
  | unsignedInteger
  | floatingPoint
  deriving DecidableEq, Repr

inductive BitwidthType where
  | _8bit
  | _16bit
  | _24bit
  | _32bit
  | _64bit
  deriving DecidableEq, Repr

inductive EndianType where
  | bigEndian
  | littleEndian
  deriving DecidableEq, Repr

/-- The value of the enumerator. -/
def BitwidthType.bits : BitwidthType → ℕ
  | _8bit => 8
  | _16bit => 16
  | _24bit => 24
  | _32bit => 32
  | _64bit => 64

/-- `bitwidth() / 8`. -/
def BitwidthType.numBytes (b : BitwidthType) : ℕ := b.bits / 8

theorem BitwidthType.numBytes_pos (b : BitwidthType) : 0 < b.numBytes := by cases b <;> decide

theorem BitwidthType.numBytes_le (b : BitwidthType) : b.numBytes ≤ 8 := by cases b <;> decide

theorem BitwidthType.bits_eq (b : BitwidthType) : b.bits = 8 * b.numBytes := by cases b <;> rfl

namespace EndianType

/-- The unsigned number that the object representation `bs` denotes. -/
def ofBytes : EndianType → List UInt8 → ℕ
  | bigEndian => Bytes.beNat
  | littleEndian => Bytes.leNat

/-- The object representation of `n` on `k` bytes. -/
def toBytes : EndianType → ℕ → ℕ → List UInt8
  | bigEndian => Bytes.beBytes
  | littleEndian => Bytes.leBytes

variable (e : EndianType)

@[simp] theorem length_toBytes (k n : ℕ) : (e.toBytes k n).length = k := by
  cases e <;> simp [toBytes]

theorem ofBytes_lt (bs : List UInt8) : e.ofBytes bs < 256 ^ bs.length := by
  cases e
  · exact Bytes.beNat_lt bs
  · exact Bytes.leNat_lt bs

@[simp] theorem ofBytes_toBytes (k n : ℕ) : e.ofBytes (e.toBytes k n) = n % 256 ^ k := by
  cases e <;> simp [toBytes, ofBytes]

theorem toBytes_ofBytes (bs : List UInt8) : e.toBytes bs.length (e.ofBytes bs) = bs := by
  cases e
  · exact Bytes.beBytes_beNat bs
  · exact Bytes.leBytes_leNat bs

theorem ofBytes_inj {xs ys : List UInt8} (hl : xs.length = ys.length)
    (h : e.ofBytes xs = e.ofBytes ys) : xs = ys := by
  rw [← e.toBytes_ofBytes xs, ← e.toBytes_ofBytes ys, hl, h]

end EndianType

/-! ## Compile-time formats -/

structure CompiletimeFormat where
  number : NumberType
  bitwidth : BitwidthType
  endian : EndianType
  deriving DecidableEq, Repr

open NumberType BitwidthType EndianType in
/-- The supported formats, in the order of the dispatch tables. -/
def compiletimeFormats : List CompiletimeFormat :=
  [⟨signedInteger, _8bit, bigEndian⟩,
   ⟨signedInteger, _8bit, littleEndian⟩,
   ⟨signedInteger, _16bit, bigEndian⟩,
   ⟨signedInteger, _16bit, littleEndian⟩,
   ⟨signedInteger, _24bit, bigEndian⟩,
   ⟨signedInteger, _24bit, littleEndian⟩,
   ⟨signedInteger, _32bit, bigEndian⟩,
   ⟨signedInteger, _32bit, littleEndian⟩,
   ⟨signedInteger, _64bit, bigEndian⟩,
   ⟨signedInteger, _64bit, littleEndian⟩,
   ⟨unsignedInteger, _8bit, bigEndian⟩,
   ⟨unsignedInteger, _8bit, littleEndian⟩,
   ⟨unsignedInteger, _16bit, bigEndian⟩,
   ⟨unsignedInteger, _16bit, littleEndian⟩,
   ⟨unsignedInteger, _24bit, bigEndian⟩,
   ⟨unsignedInteger, _24bit, littleEndian⟩,
   ⟨unsignedInteger, _32bit, bigEndian⟩,
   ⟨unsignedInteger, _32bit, littleEndian⟩,
   ⟨unsignedInteger, _64bit, bigEndian⟩,
   ⟨unsignedInteger, _64bit, littleEndian⟩,
   ⟨floatingPoint, _32bit, bigEndian⟩,
   ⟨floatingPoint, _32bit, littleEndian⟩,
   ⟨floatingPoint, _64bit, bigEndian⟩,
   ⟨floatingPoint, _64bit, littleEndian⟩]

theorem compiletimeFormats_nodup : compiletimeFormats.Nodup := by decide

/-- Every integer format is supported, and the floating formats of 32 and 64
    bits. -/
theorem mem_compiletimeFormats (f : CompiletimeFormat) :
    f ∈ compiletimeFormats ↔
      f.number ≠ .floatingPoint ∨ f.bitwidth = ._32bit ∨ f.bitwidth = ._64bit := by
  obtain ⟨n, b, e⟩ := f
  cases n <;> cases b <;> cases e <;> decide

/-! ## Runtime formats -/

/-- `pcm::runtime_format`, with `m_index` the place of the format in
    `compiletime_formats()`. -/
structure RuntimeFormat where
  number : NumberType
  bitwidth : BitwidthType
  endian : EndianType
  index : ℕ
  index_eq : compiletimeFormats[index]? = some ⟨number, bitwidth, endian⟩
  deriving DecidableEq

namespace RuntimeFormat

/-- The compile-time format to which a runtime format dispatches
    (`impls.at( fmt.index() )`). -/
def tag (f : RuntimeFormat) : CompiletimeFormat := ⟨f.number, f.bitwidth, f.endian⟩

theorem getElem?_index (f : RuntimeFormat) : compiletimeFormats[f.index]? = some f.tag := f.index_eq

theorem tag_mem (f : RuntimeFormat) : f.tag ∈ compiletimeFormats :=
  List.mem_of_getElem? f.index_eq

theorem tag_injective {f g : RuntimeFormat} (h : f.tag = g.tag) : f = g := by
  have hi : f.index = g.index := by
    have hf := f.getElem?_index
    have hg := g.getElem?_index
    rw [h] at hf
    have hlt := (List.getElem?_eq_some_iff.1 hf).1
    exact (List.getElem?_inj hlt compiletimeFormats_nodup).1 (hf.trans hg.symm)
  obtain ⟨n, b, e, i, hf⟩ := f
  obtain ⟨n', b', e', i', hg⟩ := g
  simp only [tag, CompiletimeFormat.mk.injEq] at h hi
  obtain ⟨rfl, rfl, rfl⟩ := h
  subst hi; rfl

/-- The converting constructor from a compile-time format (`tuple_find`). -/
def ofTag (t : CompiletimeFormat) (h : t ∈ compiletimeFormats) : RuntimeFormat where
  number := t.number
  bitwidth := t.bitwidth
  endian := t.endian
  index := compiletimeFormats.idxOf t
  index_eq := List.getElem?_idxOf h

/-- `runtime_format( number_type n, bitwidth_type b, endian_type e )`. -/
def ofParts (n : NumberType) (b : BitwidthType) (e : EndianType) :
    Except RuntimeError RuntimeFormat :=
  if h : ⟨n, b, e⟩ ∈ compiletimeFormats then .ok (ofTag ⟨n, b, e⟩ h)
  else .error ⟨"Invalid format"⟩

/-- `runtime_format( number_type n, size_t bits, endian_type e )`. -/
def ofBits (n : NumberType) (bits : ℕ) (e : EndianType) : Except RuntimeError RuntimeFormat :=
  match bits with
  | 8 => ofParts n ._8bit e
  | 16 => ofParts n ._16bit e
  | 24 => ofParts n ._24bit e
  | 32 => ofParts n ._32bit e
  | 64 => ofParts n ._64bit e
  | _ => .error ⟨"Invalid bitwidth: 0"⟩

/-- `runtime_format()`: the default compile-time format, signed 8 bit. -/
def default (native : EndianType) : RuntimeFormat :=
  ofTag ⟨.signedInteger, ._8bit, native⟩ ((mem_compiletimeFormats _).2 (Or.inl nofun))

theorem ofParts_ok {n : NumberType} {b : BitwidthType} {e : EndianType} {f : RuntimeFormat}
    (h : ofParts n b e = .ok f) : f.tag = ⟨n, b, e⟩ := by
  unfold ofParts at h
  split at h
  · cases h; rfl
  · cases h

theorem ofParts_tag (f : RuntimeFormat) : ofParts f.number f.bitwidth f.endian = .ok f := by
  have hm : (⟨f.number, f.bitwidth, f.endian⟩ : CompiletimeFormat) ∈ compiletimeFormats := f.tag_mem
  rw [ofParts, dif_pos hm]
  exact congrArg _ (tag_injective rfl)

/-- The constructor from a bit count gives a format of that bit count. -/
theorem ofBits_ok {n : NumberType} {bits : ℕ} {e : EndianType} {f : RuntimeFormat}
    (h : ofBits n bits e = .ok f) :
    f.number = n ∧ f.bitwidth.bits = bits ∧ f.endian = e := by
  unfold ofBits at h
  split at h
  case h_6 => cases h
  all_goals
    have ht := ofParts_ok h
    simp only [tag, CompiletimeFormat.mk.injEq] at ht
    obtain ⟨rfl, hb, rfl⟩ := ht
    exact ⟨rfl, by rw [hb]; rfl, rfl⟩

/-- The bit count of a format gives the format back. -/
theorem ofBits_tag (f : RuntimeFormat) : ofBits f.number f.bitwidth.bits f.endian = .ok f := by
  have h := ofParts_tag f
  cases hb : f.bitwidth <;> rw [hb] at h <;> exact h

theorem ofBits_ofTag (t : CompiletimeFormat) (h : t ∈ compiletimeFormats) :
    ofBits t.number t.bitwidth.bits t.endian = .ok (ofTag t h) := ofBits_tag (ofTag t h)

end RuntimeFormat

/-! ## Some formats -/

theorem signedInteger_mem (b : BitwidthType) (e : EndianType) :
    (⟨.signedInteger, b, e⟩ : CompiletimeFormat) ∈ compiletimeFormats :=
  (mem_compiletimeFormats _).2 (Or.inl nofun)

def s8 : RuntimeFormat :=
  .ofTag ⟨.signedInteger, ._8bit, .littleEndian⟩ (signedInteger_mem ._8bit .littleEndian)

def s16le : RuntimeFormat :=
  .ofTag ⟨.signedInteger, ._16bit, .littleEndian⟩ (signedInteger_mem ._16bit .littleEndian)

def s24le : RuntimeFormat :=
  .ofTag ⟨.signedInteger, ._24bit, .littleEndian⟩ (signedInteger_mem ._24bit .littleEndian)

end NiMedia
