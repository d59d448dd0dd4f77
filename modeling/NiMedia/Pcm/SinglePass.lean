/-
  Samples from a single-pass input (`pcm/iterator.h`: the specialisation of
  `iterator` for `std::input_iterator_tag`; `increment_n_copy_n`).

  The base iterators share the position of their stream, and are equal if both
  are at its end or none is (`std::istreambuf_iterator`).  The `pcm::iterator`
  holds a sample that it has read ahead.

  * `inputVisits_dropLast`: the loop over the input visits all samples but the
    last one.
  * `inputVisits_iff`: so it visits the samples that the loop over a buffer
    visits only if there are none.
-/
import NiMedia.Lib.Loop
import NiMedia.Pcm.Dispatch

namespace NiMedia

open Bytes

/-! ## Input iterators -/

/-- What is still to come of the stream that the iterators share. -/
abbrev InputStream := List UInt8

/-- `std::istreambuf_iterator<char>`: on the stream, or the value-initialised one
    (`Iterator{}`). -/
structure InputBase where
  attached : Bool
  deriving DecidableEq, Repr

namespace InputBase

def onStream : InputBase := ⟨true⟩

def endOfStream : InputBase := ⟨false⟩

def atEnd (b : InputBase) (s : InputStream) : Bool := !b.attached || s.isEmpty

def equal (a b : InputBase) (s : InputStream) : Bool := a.atEnd s == b.atEnd s

/-- `increment_n_copy_n` of `n` bytes, from a copy of the iterator: the bytes, and
    the stream behind them.  At the end of the stream there is none to copy. -/
def incrementNCopyN : ℕ → InputStream → Option (List UInt8 × InputStream)
  | 0, s => some ([], s)
  | _ + 1, [] => none
  | n + 1, b :: s => (incrementNCopyN n s).map fun (bs, s') => (b :: bs, s')

end InputBase

/-- `iterator<Value, Iterator, Format, std::input_iterator_tag>`; `m_value` has no
    value before the first increment. -/
structure InputIterator (V : ArithType) where
  fmt : RuntimeFormat
  base : InputBase
  value : Option V.Val

section
variable (h : Host) {V : ArithType}

/-- `increment`: the next sample is read. -/
def InputIterator.increment (it : InputIterator V) (s : InputStream) :
    Option (InputIterator V × InputStream) :=
  (InputBase.incrementNCopyN it.fmt.bitwidth.numBytes s).map fun (bs, s') =>
    ({ it with value := some (h.read V it.fmt bs) }, s')

variable (V) in
/-- The constructor from a base iterator and a format. -/
def InputIterator.make (f : RuntimeFormat) (b : InputBase) (s : InputStream) :
    Option (InputIterator V × InputStream) :=
  if b.equal .endOfStream s then some (⟨f, b, none⟩, s)
  else InputIterator.increment h ⟨f, b, none⟩ s

/-- `equal`. -/
def InputIterator.equal (it other : InputIterator V) (s : InputStream) : Bool :=
  it.base.equal other.base s

/-- One pass of `for( …; it != pcm::iterator( Iterator{}, fmt ); ++it ) use( *it )`,
    with the values used so far.  The loop has no result where the language does
    not define what it does. -/
def inputPass :
    InputIterator V × InputStream × List V.Val →
      Loop.Next (InputIterator V × InputStream × List V.Val) (Option (List V.Val))
  | (it, s, used) =>
    match InputIterator.make h V it.fmt .endOfStream s with
    | none => .done none
    | some (fin, s) =>
      if it.equal fin s then .done (some used)
      else
        match it.value, it.increment h s with
        | some v, some (it', s') => .again (it', s', used ++ [v])
        | _, _ => .done none

/-- The loop over the input with these bytes ends, and uses these values. -/
def InputVisits (f : RuntimeFormat) (bytes : List UInt8) (vs : List V.Val) : Prop :=
  ∃ it s, InputIterator.make h V f .onStream bytes = some (it, s) ∧
    Loop.Returns (inputPass h) (it, s, []) (some vs)

/-! ## Iterators over a buffer -/

variable (V) in
/-- The iterator at byte `off` of the buffer. -/
def bufferIter (f : RuntimeFormat) (off : ℤ) : Iter := ⟨V, ⟨0, true⟩, .runtime f, 0, off⟩

/-- The memory that holds the buffer. -/
def bufferMemory (bytes : List UInt8) : Memory := ⟨fun _ => bytes, fun _ _ => []⟩

/-- One pass of the same loop over a buffer. -/
def forwardPass (f : RuntimeFormat) (bytes : List UInt8) :
    ℤ × List V.Val → Loop.Next (ℤ × List V.Val) (List V.Val)
  | (off, used) =>
    let value : V.Val := (bufferIter V f off).load h (bufferMemory bytes)
    if (bufferIter V f off).equal (bufferIter V f bytes.length) then .done used
    else .again ((bufferIter V f off).next.off, used ++ [value])

/-- The loop over a buffer with these bytes ends, and uses these values. -/
def ForwardVisits (f : RuntimeFormat) (bytes : List UInt8) (vs : List V.Val) : Prop :=
  Loop.Returns (forwardPass h f bytes) (0, []) vs

variable (V) in
/-- The first `n` samples of the bytes. -/
def samplesOf (f : RuntimeFormat) : ℕ → List UInt8 → List V.Val
  | 0, _ => []
  | n + 1, s => h.read V f (s.take f.bitwidth.numBytes) ::
      samplesOf f n (s.drop f.bitwidth.numBytes)

end

/-! ## The loop over a buffer -/

section
variable {h : Host} {V : ArithType} {f : RuntimeFormat}

@[simp] theorem length_samplesOf (n : ℕ) (s : List UInt8) : (samplesOf h V f n s).length = n := by
  induction n generalizing s with
  | zero => rfl
  | succ n ih => rw [samplesOf, List.length_cons, ih]

theorem returns_forwardPass {bytes : List UInt8} (n p : ℕ) (used : List V.Val)
    (hlen : bytes.length = p + n * f.bitwidth.numBytes) :
    Loop.Returns (forwardPass h f bytes) (p, used) (used ++ samplesOf h V f n (bytes.drop p)) := by
  induction n generalizing p used with
  | zero =>
    have hend : (p : ℤ) = bytes.length := by rw [hlen, Nat.zero_mul, Nat.add_zero]
    refine .done ?_
    simp [forwardPass, Iter.equal, bufferIter, hend, samplesOf]
  | succ n ih =>
    have hpos := f.bitwidth.numBytes_pos
    rw [Nat.succ_mul] at hlen
    have hne : ¬ (p : ℤ) = bytes.length := by omega
    have hstep : forwardPass h f bytes (p, used) = .again ((p + f.bitwidth.numBytes : ℕ),
        used ++ [h.read V f ((bytes.drop p).take f.bitwidth.numBytes)]) := by
      simp [forwardPass, Iter.equal, bufferIter, hne, Iter.next, Iter.advance, Iter.step, Iter.load,
        bufferMemory, slice]
    have hrest := ih (p + f.bitwidth.numBytes)
      (used ++ [h.read V f ((bytes.drop p).take f.bitwidth.numBytes)]) (by omega)
    rw [samplesOf, List.append_cons, List.drop_drop]
    exact .again hstep hrest

/-- **The loop over a buffer** visits its samples. -/
theorem forwardVisits {bytes : List UInt8} {n : ℕ}
    (hlen : bytes.length = n * f.bitwidth.numBytes) :
    ForwardVisits h f bytes (samplesOf h V f n bytes) := by
  have hret := returns_forwardPass (h := h) (V := V) n 0 [] (by rw [hlen, Nat.zero_add])
  rwa [List.drop_zero, List.nil_append] at hret

/-! ## The loop over the input -/

theorem incrementNCopyN_eq (n : ℕ) (s : InputStream) (hn : n ≤ s.length) :
    InputBase.incrementNCopyN n s = some (s.take n, s.drop n) := by
  induction n generalizing s with
  | zero => rfl
  | succ n ih =>
    cases s with
    | nil => cases hn
    | cons b s =>
      rw [InputBase.incrementNCopyN, ih s (Nat.le_of_succ_le_succ hn)]
      rfl

theorem increment_eq (it : InputIterator V) {s : InputStream}
    (hs : it.fmt.bitwidth.numBytes ≤ s.length) :
    it.increment h s = some ({ it with value := some (h.read V it.fmt
      (s.take it.fmt.bitwidth.numBytes)) }, s.drop it.fmt.bitwidth.numBytes) := by
  rw [InputIterator.increment, incrementNCopyN_eq _ _ hs]
  rfl

/-- The iterator that the loop compares with reads nothing. -/
theorem make_endOfStream (s : InputStream) :
    InputIterator.make h V f .endOfStream s = some (⟨f, .endOfStream, none⟩, s) := by
  rw [InputIterator.make, if_pos (by simp [InputBase.equal])]

theorem equal_endOfStream (v w : Option V.Val) (s : InputStream) :
    (⟨f, .onStream, v⟩ : InputIterator V).equal ⟨f, .endOfStream, w⟩ s = s.isEmpty := by
  simp [InputIterator.equal, InputBase.equal, InputBase.atEnd, InputBase.onStream,
    InputBase.endOfStream]

/-- With a sample `v` read ahead and `n` more to come, the last one of them all is
    not visited. -/
theorem returns_inputPass (n : ℕ) (v : V.Val) (s : InputStream) (used : List V.Val)
    (hlen : s.length = n * f.bitwidth.numBytes) :
    Loop.Returns (inputPass h) (⟨f, .onStream, some v⟩, s, used)
      (some (used ++ (v :: samplesOf h V f n s).dropLast)) := by
  induction n generalizing v s used with
  | zero =>
    rw [Nat.zero_mul, List.length_eq_zero_iff] at hlen
    subst hlen
    refine .done ?_
    simp [inputPass, make_endOfStream, equal_endOfStream, samplesOf]
  | succ n ih =>
    have hpos := f.bitwidth.numBytes_pos
    rw [Nat.succ_mul] at hlen
    have hne : s.isEmpty = false := by
      cases s with
      | nil => rw [List.length_nil] at hlen; omega
      | cons b s => rfl
    have hstep : inputPass h (⟨f, .onStream, some v⟩, s, used) =
        .again (⟨f, .onStream, some (h.read V f (s.take f.bitwidth.numBytes))⟩,
          s.drop f.bitwidth.numBytes, used ++ [v]) := by
      have hinc := increment_eq (h := h) (⟨f, .onStream, some v⟩ : InputIterator V)
        (s := s) (by simp only; omega)
      simp [inputPass, make_endOfStream, equal_endOfStream, hne, hinc]
    have hrest := ih (h.read V f (s.take f.bitwidth.numBytes)) (s.drop f.bitwidth.numBytes)
      (used ++ [v]) (by rw [List.length_drop]; omega)
    rw [samplesOf, List.dropLast_cons_cons, List.append_cons]
    exact .again hstep hrest

/-- **The loop over the input** visits all samples but the last one. -/
theorem inputVisits_dropLast {bytes : List UInt8} {n : ℕ}
    (hlen : bytes.length = n * f.bitwidth.numBytes) :
    InputVisits h f bytes (samplesOf h V f n bytes).dropLast := by
  cases n with
  | zero =>
    rw [Nat.zero_mul, List.length_eq_zero_iff] at hlen
    subst hlen
    refine ⟨⟨f, .onStream, none⟩, [], rfl, .done ?_⟩
    simp [inputPass, make_endOfStream, equal_endOfStream, samplesOf]
  | succ n =>
    have hpos := f.bitwidth.numBytes_pos
    rw [Nat.succ_mul] at hlen
    have hne : bytes ≠ [] := by
      rintro rfl
      rw [List.length_nil] at hlen; omega
    have hmake : InputIterator.make h V f .onStream bytes =
        some (⟨f, .onStream, some (h.read V f (bytes.take f.bitwidth.numBytes))⟩,
          bytes.drop f.bitwidth.numBytes) := by
      have hinc := increment_eq (h := h) (⟨f, .onStream, none⟩ : InputIterator V) (s := bytes)
        (by simp only; omega)
      have hneq : InputBase.onStream.equal .endOfStream bytes = false := by
        simp [InputBase.equal, InputBase.atEnd, InputBase.onStream, InputBase.endOfStream, hne]
      simp only [InputIterator.make, hneq, hinc]
      rfl
    refine ⟨_, _, hmake, ?_⟩
    have hret := returns_inputPass (h := h) (f := f) n (h.read V f (bytes.take f.bitwidth.numBytes))
      (bytes.drop f.bitwidth.numBytes) [] (by rw [List.length_drop]; omega)
    rwa [List.nil_append] at hret

theorem InputVisits.unique {bytes : List UInt8} {vs vs' : List V.Val}
    (h1 : InputVisits h f bytes vs) (h2 : InputVisits h f bytes vs') : vs = vs' := by
  obtain ⟨it, s, hmake, hret⟩ := h1
  obtain ⟨it', s', hmake', hret'⟩ := h2
  cases hmake.symm.trans hmake'
  exact Option.some.inj (hret.unique hret')

end

/-- **Single-pass input.**  The loop over the input visits exactly the samples, as
    the loop over a buffer with the same bytes does, if and only if there are
    none. -/
theorem inputVisits_iff (h : Host) (V : ArithType) (f : RuntimeFormat) (n : ℕ)
    (bytes : List UInt8) (hlen : bytes.length = n * f.bitwidth.numBytes) :
    (ForwardVisits h f bytes (samplesOf h V f n bytes) ∧
      InputVisits h f bytes (samplesOf h V f n bytes)) ↔ n = 0 := by
  have hall := inputVisits_dropLast (h := h) (V := V) hlen
  constructor
  · rintro ⟨-, hin⟩
    have heq := congrArg List.length (hin.unique hall)
    rw [List.length_dropLast, length_samplesOf] at heq
    omega
  · rintro rfl
    exact ⟨forwardVisits hlen, hall⟩

theorem inputVisits_none :
    ForwardVisits (.ofNative .littleEndian) s8 []
        (samplesOf (.ofNative .littleEndian) (.integer ⟨true, .w8⟩) s8 0 []) ∧
      InputVisits (.ofNative .littleEndian) s8 []
        (samplesOf (.ofNative .littleEndian) (.integer ⟨true, .w8⟩) s8 0 []) :=
  (inputVisits_iff (.ofNative .littleEndian) (.integer ⟨true, .w8⟩) s8 0 [] rfl).2 rfl

/-- Of one sample, none is visited. -/
theorem inputVisits_misses :
    ¬ ∀ (h : Host) (V : ArithType) (f : RuntimeFormat) (n : ℕ) (bytes : List UInt8),
      bytes.length = n * f.bitwidth.numBytes → InputVisits h f bytes (samplesOf h V f n bytes) := by
  intro hall
  have hin := hall (.ofNative .littleEndian) (.integer ⟨true, .w8⟩) s8 1 [7] rfl
  have heq := congrArg List.length (hin.unique (inputVisits_dropLast rfl))
  rw [List.length_dropLast, length_samplesOf] at heq
  cases heq

end NiMedia
