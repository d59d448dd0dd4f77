/-
  Reading and writing one sample in any supported format (`pcm/converter.h`:
  `convert_to`, `storage`, `read_impl`, `write_impl`, `read`, `write`).

  The values are those of the arithmetic types, floating types included; what
  the host computes with floating values is a parameter.  With a runtime format
  `pcm::read` and `pcm::write` look up one of 24 functions by the index of the
  format.

  * `read_eq`, `write_eq`: the function found is the one of the compile-time
    format.
  * `read_integer`, `write_integer`: for integers these are the `read` and
    `write` of the integer formats.
-/
import NiMedia.Pcm.Intermediate

namespace NiMedia

/-! ## Arithmetic types -/

inductive ArithType where
  | integer : IntType → ArithType
  | float
  | double
  deriving DecidableEq

namespace ArithType

/-- `8 * sizeof( T )`. -/
def bits : ArithType → ℕ
  | integer t => t.bits
  | float => 32
  | double => 64

/-- The values of a type, as the words that represent them. -/
abbrev Val (t : ArithType) := BitVec t.bits

end ArithType

/-- `storage<Format>::type`. -/
def CompiletimeFormat.storage : CompiletimeFormat → ArithType
  | ⟨.floatingPoint, ._32bit, _⟩ => .float
  | ⟨.floatingPoint, _, _⟩ => .double
  | ⟨n, b, _⟩ => .integer ⟨decide (n = .signedInteger), b.storage⟩

/-- What the host does: its byte order, and its arithmetic where a floating type
    is involved (in `convert_to`, and in the conversion of an assignment). -/
structure Host where
  native : EndianType
  convertReal : (target source : ArithType) → source.Val → target.Val
  castReal : (target source : ArithType) → source.Val → target.Val

namespace Host
variable (h : Host)

/-- `convert_to<Target>( Source )`. -/
def convertTo : (target source : ArithType) → source.Val → target.Val
  | .integer T, .integer S, v => NiMedia.convertTo T S v
  | T, S, v => h.convertReal T S v

/-- The conversion of the language from one arithmetic type to another. -/
def castOther : (target source : ArithType) → source.Val → target.Val
  | .integer T, .integer S, v => if S.signed then v.signExtend T.bits else v.setWidth T.bits
  | T, S, v => h.castReal T S v

/-- The conversion of an assignment, of which there is none within a type. -/
def cast (target source : ArithType) (v : source.Val) : target.Val :=
  if e : source = target then e ▸ v else h.castOther target source v

@[simp] theorem cast_self (t : ArithType) (v : t.Val) : h.cast t t v = v := dif_pos rfl

/-- `read_impl`, on the bytes that the iterator delivers. -/
def readImpl (V : ArithType) (t : CompiletimeFormat) (bs : List UInt8) : V.Val :=
  h.convertTo V t.storage (BitVec.ofNat _ (h.native.ofBytes (Intermediate.load h.native t bs)))

/-- `write_impl`: the bytes that are copied to the iterator. -/
def writeImpl (V : ArithType) (t : CompiletimeFormat) (v : V.Val) : List UInt8 :=
  Intermediate.store h.native t
    (h.native.toBytes t.bitwidth.storage.bytes (h.convertTo t.storage V v).toNat)

/-- `make_read_impls`. -/
def readImpls (V : ArithType) : List (List UInt8 → V.Val) := compiletimeFormats.map (h.readImpl V)

/-- `make_write_impls`. -/
def writeImpls (V : ArithType) : List (V.Val → List UInt8) :=
  compiletimeFormats.map (h.writeImpl V)

end Host

theorem RuntimeFormat.index_lt (f : RuntimeFormat) : f.index < compiletimeFormats.length :=
  (List.getElem?_eq_some_iff.1 f.index_eq).1

/-- What a table of functions has at the index of a format. -/
theorem RuntimeFormat.get_map {α : Type} (g : CompiletimeFormat → α) (f : RuntimeFormat)
    (hlt : f.index < (compiletimeFormats.map g).length) :
    (compiletimeFormats.map g).get ⟨f.index, hlt⟩ = g f.tag := by
  have hget := (List.getElem?_eq_some_iff.1 f.getElem?_index).2
  rw [List.get_eq_getElem, List.getElem_map, hget]

namespace Host
variable (h : Host)

/-- `pcm::read` with a runtime format: `impls.at( fmt.index() )`. -/
def read (V : ArithType) (f : RuntimeFormat) (bs : List UInt8) : V.Val :=
  (h.readImpls V).get ⟨f.index, f.index_lt.trans_eq (List.length_map _).symm⟩ bs

/-- `pcm::write` with a runtime format. -/
def write (V : ArithType) (f : RuntimeFormat) (v : V.Val) : List UInt8 :=
  (h.writeImpls V).get ⟨f.index, f.index_lt.trans_eq (List.length_map _).symm⟩ v

theorem read_eq (V : ArithType) (f : RuntimeFormat) : h.read V f = h.readImpl V f.tag :=
  funext fun bs => congrFun (f.get_map (h.readImpl V) _) bs

theorem write_eq (V : ArithType) (f : RuntimeFormat) : h.write V f = h.writeImpl V f.tag :=
  funext fun v => congrFun (f.get_map (h.writeImpl V) _) v

@[simp] theorem length_writeImpl (V : ArithType) (t : CompiletimeFormat) (v : V.Val) :
    (h.writeImpl V t v).length = t.bitwidth.numBytes := by
  simp [writeImpl, Intermediate.store]

/-! ## Integer formats -/

/-- The host on which no floating values are used. -/
def ofNative (native : EndianType) : Host := ⟨native, fun _ _ _ => 0, fun _ _ _ => 0⟩

theorem readImpl_integer (V : IntType) (t : IntTag) (bs : List UInt8) :
    h.readImpl (.integer V) t.1 bs = NiMedia.readImpl h.native V t bs := by
  obtain ⟨⟨n, b, e⟩, ht⟩ := t
  cases n
  · rfl
  · rfl
  · exact absurd rfl ht

theorem writeImpl_integer (V : IntType) (t : IntTag) (v : V.Val) :
    h.writeImpl (.integer V) t.1 v = NiMedia.writeImpl h.native V t v := by
  obtain ⟨⟨n, b, e⟩, ht⟩ := t
  cases n
  · rfl
  · rfl
  · exact absurd rfl ht

/-- Samples of integer formats are read as before. -/
theorem read_integer (V : IntType) (f : IntFormat) (bs : List UInt8) :
    h.read (.integer V) f.1 bs = NiMedia.read h.native V f bs := by
  rw [read_eq]
  exact h.readImpl_integer V f.tag bs

theorem write_integer (V : IntType) (f : IntFormat) (v : V.Val) :
    h.write (.integer V) f.1 v = NiMedia.write h.native V f v := by
  rw [write_eq]
  exact h.writeImpl_integer V f.tag v

end Host

end NiMedia
