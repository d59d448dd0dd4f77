/-
  Calling a function with compile-time formats in place of runtime formats
  (`pcm/dispatch.h`, `pcm/iterator.h`).

  The arguments of a call are iterators, plain ones or `pcm::iterator`s, and
  sizes.  `dispatch` goes through them; a `pcm::iterator` with a runtime format
  is compared with each of the 24 compile-time formats, and the arguments that
  remain are dispatched with the one that it equals.  A call that no overload
  accepts, for the types that its arguments then have, throws.

  * `dispatch_eq`: whatever the number and the places of the iterators, and
    whatever the order in which the formats are tried, the call is made once,
    with the arguments in their order and each format resolved (`Arg.resolve`).
  * `Iter.load_resolve`, `Iter.store_resolve`: a resolved iterator reads and
    writes the same.
-/
import Mathlib.Data.List.Nodup
import Mathlib.Logic.Function.Basic
import NiMedia.Pcm.Arithmetic

namespace NiMedia

open Bytes

/-! ## Iterators -/

/-- A compile-time format for which there are `read_impl` and `write_impl`. -/
abbrev SupportedFormat := {t : CompiletimeFormat // t ∈ compiletimeFormats}

/-- The converting constructor. -/
def SupportedFormat.toRuntime (t : SupportedFormat) : RuntimeFormat := .ofTag t.1 t.2

/-- The compile-time format that a runtime format equals. -/
def RuntimeFormat.resolve (f : RuntimeFormat) : SupportedFormat := ⟨f.tag, f.tag_mem⟩

/-- What an iterator goes over: values of its value type, or samples in a format
    that is known at run time or belongs to the type of the iterator. -/
inductive Kind where
  | plain
  | runtime : RuntimeFormat → Kind
  | compiletime : SupportedFormat → Kind
  deriving DecidableEq

/-- What the type of an iterator says of that. -/
inductive KindType where
  | plain
  | runtime
  | compiletime : SupportedFormat → KindType
  deriving DecidableEq

def Kind.type : Kind → KindType
  | plain => .plain
  | runtime _ => .runtime
  | compiletime t => .compiletime t

/-- The type of a base iterator, and whether it refers to constant elements
    (`is_const_iterator`). -/
structure BaseType where
  name : ℕ
  isConst : Bool
  deriving DecidableEq

/-- A plain iterator or a `pcm::iterator`, at place `off` of the object `obj`. -/
structure Iter where
  value : ArithType
  base : BaseType
  kind : Kind
  obj : ℕ
  off : ℤ

structure IterType where
  value : ArithType
  base : BaseType
  kind : KindType
  deriving DecidableEq

/-- The objects: buffers of bytes, and arrays of values of each type. -/
structure Memory where
  bytes : ℕ → List UInt8
  values : (t : ArithType) → ℕ → List t.Val

namespace Memory

def setBytes (m : Memory) (o : ℕ) (bs : List UInt8) : Memory :=
  { m with bytes := Function.update m.bytes o bs }

def setValues (m : Memory) (t : ArithType) (o : ℕ) (vs : List t.Val) : Memory :=
  { m with values := Function.update m.values t (Function.update (m.values t) o vs) }

@[simp] theorem setBytes_bytes (m : Memory) (o : ℕ) (bs : List UInt8) :
    (m.setBytes o bs).bytes o = bs := Function.update_self ..

@[simp] theorem setBytes_self (m : Memory) (o : ℕ) : m.setBytes o (m.bytes o) = m := by
  rw [setBytes, Function.update_eq_self]

end Memory

namespace Iter

def type (it : Iter) : IterType := ⟨it.value, it.base, it.kind.type⟩

/-- `proxy::step`. -/
def step (it : Iter) : ℕ :=
  match it.kind with
  | .plain => 1
  | .runtime f => f.bitwidth.numBytes
  | .compiletime t => t.1.bitwidth.numBytes

def advance (it : Iter) (n : ℤ) : Iter := { it with off := it.off + n * it.step }

def next (it : Iter) : Iter := it.advance 1

/-- `iterator::equal`, which does not look at the formats. -/
def equal (it other : Iter) : Bool := decide (it.obj = other.obj ∧ it.off = other.off)

variable (h : Host)

/-- `*it` as a value, through `proxy::operator Value`. -/
def load (it : Iter) (m : Memory) : it.value.Val :=
  match it.kind with
  | .plain => (m.values it.value it.obj).getD it.off.toNat 0
  | .runtime f => h.read it.value f (slice (m.bytes it.obj) it.off.toNat f.bitwidth.numBytes)
  | .compiletime t =>
    h.readImpl it.value t.1 (slice (m.bytes it.obj) it.off.toNat t.1.bitwidth.numBytes)

/-- `*it = v`, through `proxy::operator=( Value )`. -/
def store (it : Iter) (v : it.value.Val) (m : Memory) : Memory :=
  match it.kind with
  | .plain => m.setValues it.value it.obj ((m.values it.value it.obj).set it.off.toNat v)
  | .runtime f => m.setBytes it.obj (overwrite (m.bytes it.obj) it.off.toNat (h.write it.value f v))
  | .compiletime t =>
    m.setBytes it.obj (overwrite (m.bytes it.obj) it.off.toNat (h.writeImpl it.value t.1 v))

/-- The two iterators give proxies of one type. -/
def sameProxy (src dst : Iter) : Prop :=
  src.kind ≠ .plain ∧ src.base.isConst = false ∧ src.type = dst.type

instance (src dst : Iter) : Decidable (sameProxy src dst) := inferInstanceAs (Decidable (_ ∧ _))

/-- `*dst = Value( *src )`, with the conversion that the assignment makes. -/
def transfer (dst src : Iter) (m : Memory) : Memory :=
  dst.store h (h.cast dst.value src.value (src.load h m)) m

/-- `*dst = *src`.  Between proxies of one type this is the assignment that the
    language provides: it sets the base iterator of a temporary, and no sample. -/
def assign (dst src : Iter) (m : Memory) : Memory :=
  if sameProxy src dst then m else dst.transfer h src m

end Iter

/-! ## Arguments -/

inductive Arg where
  | iter : Iter → Arg
  | size : ℤ → Arg

inductive ArgType where
  | iter : IterType → ArgType
  | size
  deriving DecidableEq

namespace Arg

def type : Arg → ArgType
  | iter it => .iter it.type
  | size _ => .size

/-- The implicit conversion of a result to the type that is expected of it. -/
def convert : ArgType → Arg → Arg
  | .iter ⟨_, _, .runtime⟩, iter ⟨v, b, .compiletime t, o, i⟩ =>
    iter ⟨v, b, .runtime t.toRuntime, o, i⟩
  | _, a => a

end Arg

/-- A computation on the memory that may throw, with fuel for its loops. -/
abbrev Run (α : Type) := ℕ → Memory → Option (Except RuntimeError α × Memory)

/-- A function object: the type of a call, unless the call is ill-formed, and
    what the call does. -/
structure Functor where
  result : List ArgType → Option (List ArgType)
  call : List Arg → Run (List Arg)

/-! ## Dispatch -/

/-- `invoke`: the overload for `try_t` is there if the call is well-formed. -/
def invoke (f : Functor) (R : List ArgType) (bs : List Arg) : Run (List Arg) := fun fuel m =>
  match f.result (bs.map Arg.type) with
  | some _ => (f.call bs fuel m).map fun x => (x.1.map (List.zipWith Arg.convert R), x.2)
  | none => some (.error ⟨"runtime argument mismatch"⟩, m)

/-- `( it.format() == Formats{} && ( r = …, false ) )...`, in some order of the
    formats. -/
def tryFormats (fmt : RuntimeFormat) (k : SupportedFormat → Run (List Arg)) :
    List SupportedFormat → List Arg → Run (List Arg)
  | [], r => fun _ m => some (.ok r, m)
  | t :: ts, r => fun fuel m =>
    if fmt.index = t.toRuntime.index then
      match k t fuel m with
      | some (.ok r', m') => tryFormats fmt k ts r' fuel m'
      | x => x
    else tryFormats fmt k ts r fuel m

/-- The order in which the arguments of a call are evaluated, which the language
    leaves open. -/
abbrev EvaluationOrder := {l : List SupportedFormat // l.Perm compiletimeFormats.attach}

/-- `dispatch_impl`: the arguments left, and those that are done. -/
def dispatchImpl (order : EvaluationOrder) (f : Functor) (R : List ArgType) :
    List Arg → List Arg → Run (List Arg)
  | [], bs => invoke f R bs
  | .iter ⟨v, b, .runtime fmt, o, i⟩ :: as, bs => tryFormats fmt (fun t =>
      dispatchImpl order f R as (bs ++ [.iter ⟨v, b, .compiletime t, o, i⟩])) order.1 []
  | a :: as, bs => dispatchImpl order f R as (bs ++ [a])

/-- `dispatch`. -/
def dispatch (order : EvaluationOrder) (f : Functor) (ts : List Arg) : Run (List Arg) :=
  dispatchImpl order f ((f.result (ts.map Arg.type)).getD []) ts []

/-! ## Resolving the formats -/

def Kind.resolve : Kind → Kind
  | runtime f => compiletime f.resolve
  | k => k

/-- The iterator with the corresponding compile-time format. -/
def Iter.resolve (it : Iter) : Iter := { it with kind := it.kind.resolve }

def Arg.resolve : Arg → Arg
  | iter it => iter it.resolve
  | size n => size n

theorem RuntimeFormat.index_eq_iff (f : RuntimeFormat) (t : SupportedFormat) :
    f.index = t.toRuntime.index ↔ t = f.resolve := by
  constructor
  · intro h
    have hf := f.getElem?_index
    have ht := t.toRuntime.getElem?_index
    rw [h, ht] at hf
    exact Subtype.ext (Option.some.inj hf)
  · rintro rfl
    rw [show f.resolve.toRuntime = f from tag_injective rfl]

/-- **One match**: the call is made for the format that is equal, and for no
    other. -/
theorem tryFormats_eq (fmt : RuntimeFormat) (k : SupportedFormat → Run (List Arg))
    (ts : List SupportedFormat) (r : List Arg) (fuel : ℕ) (m : Memory) (hnodup : ts.Nodup) :
    tryFormats fmt k ts r fuel m =
      if fmt.resolve ∈ ts then k fmt.resolve fuel m else some (.ok r, m) := by
  induction ts generalizing r m with
  | nil => rfl
  | cons t ts ih =>
    obtain ⟨hnot, hrest⟩ := List.nodup_cons.1 hnodup
    simp only [tryFormats]
    by_cases ht : t = fmt.resolve
    · subst ht
      rw [if_pos ((fmt.index_eq_iff _).2 rfl), if_pos List.mem_cons_self]
      rcases k fmt.resolve fuel m with _ | ⟨_ | r', m'⟩
      · rfl
      · rfl
      · exact (ih r' m' hrest).trans (if_neg hnot)
    · rw [if_neg (mt (fmt.index_eq_iff t).1 ht), ih r m hrest]
      have hmem : fmt.resolve ∈ t :: ts ↔ fmt.resolve ∈ ts := by
        rw [List.mem_cons, or_iff_right (Ne.symm ht)]
      simp only [hmem]

theorem EvaluationOrder.nodup (order : EvaluationOrder) : order.1.Nodup :=
  order.2.nodup_iff.2 (List.nodup_attach.2 compiletimeFormats_nodup)

theorem EvaluationOrder.mem (order : EvaluationOrder) (t : SupportedFormat) : t ∈ order.1 :=
  order.2.mem_iff.2 (List.mem_attach _ t)

theorem dispatchImpl_eq (order : EvaluationOrder) (f : Functor) (R : List ArgType)
    (as bs : List Arg) :
    dispatchImpl order f R as bs = invoke f R (bs ++ as.map Arg.resolve) := by
  induction as generalizing bs with
  | nil => rw [dispatchImpl, List.map_nil, List.append_nil]
  | cons a as ih =>
    rw [List.map_cons, List.append_cons, ← ih]
    rcases a with ⟨v, b, _ | fmt | t, o, i⟩ | n
    · rfl
    · funext fuel m
      rw [dispatchImpl, tryFormats_eq _ _ _ _ _ _ order.nodup, if_pos (order.mem _)]
      rfl
    · rfl
    · rfl

/-- **What `dispatch` does.** -/
theorem dispatch_eq (order : EvaluationOrder) (f : Functor) (ts : List Arg) :
    dispatch order f ts =
      invoke f ((f.result (ts.map Arg.type)).getD []) (ts.map Arg.resolve) := by
  rw [dispatch, dispatchImpl_eq, List.nil_append]

namespace Iter
variable (h : Host) (it : Iter)

@[simp] theorem step_resolve : it.resolve.step = it.step := by
  obtain ⟨v, b, _ | f | t, o, i⟩ := it <;> rfl

@[simp] theorem resolve_advance (n : ℤ) : (it.advance n).resolve = it.resolve.advance n := by
  simp only [advance, step_resolve]
  rfl

theorem load_resolve (m : Memory) : it.resolve.load h m = it.load h m := by
  obtain ⟨v, b, _ | f | t, o, i⟩ := it
  · rfl
  · simp only [load, h.read_eq]
    rfl
  · rfl

theorem store_resolve (v : it.value.Val) (m : Memory) :
    it.resolve.store h v m = it.store h v m := by
  obtain ⟨V, b, _ | f | t, o, i⟩ := it
  · rfl
  · simp only [store, h.write_eq]
    rfl
  · rfl

theorem transfer_resolve (src : Iter) (m : Memory) :
    it.resolve.transfer h src.resolve m = it.transfer h src m := by
  rw [transfer, load_resolve]
  exact it.store_resolve h _ m

end Iter

end NiMedia
