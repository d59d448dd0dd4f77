/-
  `pcm::copy` and `pcm::copy_n` (`pcm/algorithm/copy.h`, `copy_n.h`) on runtime
  formats, on compile-time formats, and element by element.

  A range is a number of elements from an iterator on, plain values or samples
  in a runtime format.  `SameEffect` says that a call through `dispatch` ends, writes
  and returns what the same call without it does, and what it does with the
  corresponding compile-time formats.

  * `copy_sameEffect_iff`: the calls are alike unless source and destination give
    proxies of one type with different formats.  Then the element by element
    copy assigns proxies and writes nothing, so the calls are alike only if the
    destination already holds the converted samples.  Iterators of one type
    with different formats make `dispatch` throw.
-/
import NiMedia.Lib.Loop
import NiMedia.Pcm.Dispatch

namespace NiMedia

open Bytes

/-! ## The function objects -/

section
variable (h : Host)

/-- One pass of a copy that goes on until `stop`. -/
def copyPass (stop : Iter → Iter → Bool) :
    Iter × Iter × Memory → Loop.Next (Iter × Iter × Memory) (Iter × Iter × Memory)
  | (i, o, m) => if stop i o then .done (i, o, m) else .again (i.next, o.next, o.assign h i m)

/-- One pass of `std::copy_n`. -/
def copyNPass : ℤ × Iter × Iter × Memory → Loop.Next (ℤ × Iter × Iter × Memory) (Iter × Memory)
  | (n, i, o, m) =>
    if 0 < n then .again (n - 1, i.next, o.next, o.assign h i m) else .done (o, m)

/-- `copy_impl`. -/
def copyImpl : Functor where
  result
    | [.iter beg, .iter fin, .iter out] => if beg = fin then some [.iter out] else none
    | [.iter ibeg, .iter iend, .iter obeg, .iter oend] =>
      if ibeg = iend ∧ obeg = oend then some [.iter ibeg, .iter obeg] else none
    | _ => none
  call
    -- `std::copy`
    | [.iter beg, .iter fin, .iter out], fuel, m =>
      (Loop.iterate (copyPass h fun i _ => i.equal fin) fuel (beg, out, m)).map fun (_, o, m') =>
        (.ok [.iter o], m')
    | [.iter ibeg, .iter iend, .iter obeg, .iter oend], fuel, m =>
      (Loop.iterate (copyPass h fun i o => i.equal iend || o.equal oend) fuel
        (ibeg, obeg, m)).map fun (i, o, m') => (.ok [.iter i, .iter o], m')
    | _, _, _ => none

/-- `copy_n_impl`. -/
def copyNImpl : Functor where
  result
    | [.iter _, .size, .iter result] => some [.iter result]
    | _ => none
  call
    | [.iter first, .size count, .iter result], fuel, m =>
      (Loop.iterate (copyNPass h) fuel (count, first, result, m)).map fun (o, m') =>
        (.ok [.iter o], m')
    | _, _, _ => none

/-- The memory after `n` assignments. -/
def copied : Iter → Iter → ℕ → Memory → Memory
  | _, _, 0, m => m
  | i, o, n + 1, m => copied i.next o.next n (o.assign h i m)

end

/-! ## Statements -/

/-- The number of elements of the object that an iterator goes over. -/
def Iter.room (it : Iter) (m : Memory) : ℕ :=
  if it.kind = .plain then (m.values it.value it.obj).length else (m.bytes it.obj).length

/-- A range of `n` elements. -/
structure Range (m : Memory) (n : ℕ) where
  beg : Iter
  given : ∀ t, beg.kind ≠ .compiletime t
  nonneg : 0 ≤ beg.off
  fits : beg.off + n * beg.step ≤ beg.room m

def Range.fin {m : Memory} {n : ℕ} (r : Range m n) : Iter := r.beg.advance n

/-- The call ends, with or without `dispatch` and with compile-time formats, and
    it writes and returns the same in each case. -/
def SameEffect (order : EvaluationOrder) (f : Functor) (ts : List Arg) (m : Memory) : Prop :=
  ∃ n, ∀ fuel > n, ∃ rs m', dispatch order f ts fuel m = some (.ok rs, m') ∧
    f.call ts fuel m = some (.ok rs, m') ∧
    f.call (ts.map Arg.resolve) fuel m = some (.ok (rs.map Arg.resolve), m')

/-- The call throws and writes nothing. -/
def Throws (order : EvaluationOrder) (f : Functor) (ts : List Arg) (m : Memory) : Prop :=
  ∀ fuel, dispatch order f ts fuel m = some (.error ⟨"runtime argument mismatch"⟩, m)

/-- Iterators of one type with different formats. -/
def Iter.mismatch (i j : Iter) : Prop := i.type = j.type ∧ i.kind ≠ j.kind

/-- The proxies are of one type, and have different formats. -/
def Iter.clash (src dst : Iter) : Prop := sameProxy src dst ∧ src.kind ≠ dst.kind

/-- The first `n` elements of the destination are those of the source,
    converted. -/
def Iter.settled (h : Host) (src dst : Iter) (n : ℕ) (m : Memory) : Prop :=
  ∀ i < n, (dst.advance i).transfer h (src.advance i) m = m

/-! ## Loops -/

namespace Iter
variable (it : Iter)

theorem step_pos : 0 < it.step := by
  obtain ⟨v, b, _ | f | t, o, i⟩ := it
  · exact Nat.one_pos
  · exact f.bitwidth.numBytes_pos
  · exact t.1.bitwidth.numBytes_pos

@[simp] theorem advance_zero : it.advance 0 = it := by
  simp only [advance, zero_mul, add_zero]

theorem next_advance (n : ℕ) : it.next.advance n = it.advance (n + 1 : ℕ) := by
  have hoff : it.off + 1 * it.step + n * it.step = it.off + (n + 1 : ℕ) * it.step := by
    push_cast
    rw [add_mul, add_assoc, add_comm (1 * (it.step : ℤ))]
  simp only [next, advance]
  exact congrArg (fun off => { it with off := off }) hoff

/-- Different elements are at different places. -/
theorem off_inj (j k : ℕ) : it.off + j * it.step = it.off + k * it.step ↔ j = k := by
  have hpos : (it.step : ℤ) ≠ 0 := by exact_mod_cast it.step_pos.ne'
  rw [add_right_inj, mul_left_inj' hpos, Nat.cast_inj]

theorem equal_advance (j k : ℕ) : (it.advance j).equal (it.advance k) = decide (j = k) := by
  simp only [equal, advance, true_and]
  exact decide_eq_decide.2 (it.off_inj j k)

@[simp] theorem step_next : it.next.step = it.step := rfl

@[simp] theorem type_advance (n : ℤ) : (it.advance n).type = it.type := rfl

theorem off_next : it.next.off = it.off + it.step := by simp [next, advance]

theorem resolve_next : it.next.resolve = it.resolve.next := it.resolve_advance 1

end Iter

section
variable {h : Host}

theorem iterate_copyPass (stop : Iter → Iter → Bool) {n : ℕ} {i o : Iter} {m : Memory}
    (hgo : ∀ k < n, stop (i.advance k) (o.advance k) = false)
    (hstop : stop (i.advance n) (o.advance n) = true) {fuel : ℕ} (hf : n < fuel) :
    Loop.iterate (copyPass h stop) fuel (i, o, m) =
      some (i.advance n, o.advance n, copied h i o n m) := by
  obtain ⟨fuel, rfl⟩ : ∃ k, fuel = k + 1 := ⟨fuel - 1, by omega⟩
  induction n generalizing i o m fuel with
  | zero =>
    simp only [Nat.cast_zero, Iter.advance_zero] at hstop
    simp [Loop.iterate, copyPass, hstop, copied]
  | succ n ih =>
    have h0 := hgo 0 (Nat.succ_pos n)
    simp only [Nat.cast_zero, Iter.advance_zero] at h0
    obtain ⟨fuel, rfl⟩ : ∃ k, fuel = k + 1 := ⟨fuel - 1, by omega⟩
    have hstep : Loop.iterate (copyPass h stop) (fuel + 1 + 1) (i, o, m) =
        Loop.iterate (copyPass h stop) (fuel + 1) (i.next, o.next, o.assign h i m) := by
      simp [Loop.iterate, copyPass, h0]
    rw [hstep, ih _ _ _ (by omega), Iter.next_advance, Iter.next_advance, copied]
    · intro k hk
      rw [Iter.next_advance, Iter.next_advance]
      exact hgo (k + 1) (by omega)
    · rw [Iter.next_advance, Iter.next_advance]
      exact hstop

theorem iterate_copyNPass (c : ℤ) {i o : Iter} {m : Memory} {fuel : ℕ} (hf : c.toNat < fuel) :
    Loop.iterate (copyNPass h) fuel (c, i, o, m) =
      some (o.advance c.toNat, copied h i o c.toNat m) := by
  obtain ⟨fuel, rfl⟩ : ∃ k, fuel = k + 1 := ⟨fuel - 1, by omega⟩
  obtain ⟨n, hn⟩ : ∃ n, c.toNat = n := ⟨_, rfl⟩
  rw [hn] at hf ⊢
  induction n generalizing c i o m fuel with
  | zero => simp [Loop.iterate, copyNPass, show ¬ 0 < c by omega, copied]
  | succ n ih =>
    obtain ⟨fuel, rfl⟩ : ∃ k, fuel = k + 1 := ⟨fuel - 1, by omega⟩
    have hstep : Loop.iterate (copyNPass h) (fuel + 1 + 1) (c, i, o, m) =
        Loop.iterate (copyNPass h) (fuel + 1) (c - 1, i.next, o.next, o.assign h i m) := by
      simp [Loop.iterate, copyNPass, show 0 < c by omega]
    rw [hstep, ih (c - 1) _ (by omega) (by omega), Iter.next_advance, copied]

end

/-! ## Proxies of one type -/

section
variable {h : Host} {src dst : Iter}

theorem kind_ne_plain_of_sameProxy (hs : src.sameProxy dst) : dst.kind ≠ .plain := by
  obtain ⟨hsrc, -, htype⟩ := hs
  intro hplain
  have hk : src.kind.type = dst.kind.type := congrArg IterType.kind htype
  rw [hplain] at hk
  cases hkind : src.kind with
  | plain => exact hsrc hkind
  | runtime f => rw [hkind] at hk; cases hk
  | compiletime t => rw [hkind] at hk; cases hk

theorem copied_of_sameProxy (hs : src.sameProxy dst) (n : ℕ) (m : Memory) :
    copied h src dst n m = m := by
  induction n generalizing src dst with
  | zero => rfl
  | succ n ih =>
    have hassign : dst.assign h src m = m := if_pos hs
    rw [copied, hassign]
    exact ih hs

theorem copied_settled {n : ℕ} {m : Memory} (hset : src.settled h dst n m) :
    copied h src dst n m = m := by
  induction n generalizing src dst with
  | zero => rfl
  | succ n ih =>
    have hassign : dst.assign h src m = m := by
      have h0 := hset 0 (Nat.succ_pos n)
      simp only [Nat.cast_zero, Iter.advance_zero] at h0
      rw [Iter.assign, h0, ite_self]
    rw [copied, hassign]
    refine ih fun i hi => ?_
    rw [Iter.next_advance, Iter.next_advance]
    exact hset (i + 1) (by omega)

theorem kind_ne_plain_iff (it : Iter) : it.resolve.kind ≠ .plain ↔ it.kind ≠ .plain := by
  obtain ⟨v, b, _ | f | t, o, i⟩ := it
  · exact Iff.rfl
  · exact iff_of_true Kind.noConfusion Kind.noConfusion
  · exact Iff.rfl

theorem type_resolve_eq_iff (hs : ∀ t, src.kind ≠ .compiletime t)
    (hd : ∀ t, dst.kind ≠ .compiletime t) :
    src.resolve.type = dst.resolve.type ↔ src.type = dst.type ∧ src.kind = dst.kind := by
  obtain ⟨v, b, k, o, i⟩ := src
  obtain ⟨v', b', k', o', i'⟩ := dst
  cases k with
  | plain => cases k' with
    | plain => simp [Iter.type, Iter.resolve, Kind.resolve]
    | runtime g => simp [Iter.type, Iter.resolve, Kind.resolve, Kind.type]
    | compiletime t => exact absurd rfl (hd t)
  | runtime f => cases k' with
    | plain => simp [Iter.type, Iter.resolve, Kind.resolve, Kind.type]
    | runtime g =>
      have hres : f.resolve = g.resolve ↔ f = g :=
        ⟨fun he => RuntimeFormat.tag_injective (Subtype.ext_iff.1 he), congrArg _⟩
      simp [Iter.type, Iter.resolve, Kind.resolve, Kind.type, hres, and_assoc]
    | compiletime t => exact absurd rfl (hd t)
  | compiletime t => exact absurd rfl (hs t)

/-- With the formats resolved, proxies of one type have one format. -/
theorem sameProxy_resolve_iff (hs : ∀ t, src.kind ≠ .compiletime t)
    (hd : ∀ t, dst.kind ≠ .compiletime t) :
    src.resolve.sameProxy dst.resolve ↔ src.sameProxy dst ∧ src.kind = dst.kind := by
  rw [Iter.sameProxy, kind_ne_plain_iff, type_resolve_eq_iff hs hd, Iter.sameProxy]
  exact ⟨fun ⟨h1, h2, h3, h4⟩ => ⟨⟨h1, h2, h3⟩, h4⟩, fun ⟨⟨h1, h2, h3⟩, h4⟩ => ⟨h1, h2, h3, h4⟩⟩

/-- Between proxies that are of one type before iff they are after, resolving the
    formats does not matter. -/
theorem copied_resolve (hiff : src.resolve.sameProxy dst.resolve ↔ src.sameProxy dst) (n : ℕ)
    (m : Memory) : copied h src.resolve dst.resolve n m = copied h src dst n m := by
  induction n generalizing src dst m with
  | zero => rfl
  | succ n ih =>
    have hassign : dst.resolve.assign h src.resolve m = dst.assign h src m := by
      simp only [Iter.assign, hiff, Iter.transfer_resolve]
    rw [copied, copied, hassign, ← Iter.resolve_next, ← Iter.resolve_next]
    refine ih ?_ _
    exact hiff

end

/-! ## Samples that are written -/

section
variable {h : Host} {src dst : Iter}

/-- A sample is written over its own bytes. -/
theorem Iter.transfer_samples (hk : dst.kind ≠ .plain) (src : Iter) (m : Memory) :
    ∃ s : List UInt8, s.length = dst.step ∧ dst.transfer h src m =
      m.setBytes dst.obj (overwrite (m.bytes dst.obj) dst.off.toNat s) := by
  obtain ⟨v, b, _ | f | t, o, i⟩ := dst
  · exact absurd rfl hk
  · refine ⟨h.write v f (h.cast v src.value (src.load h m)), ?_, rfl⟩
    rw [h.write_eq, Host.length_writeImpl]
    rfl
  · exact ⟨h.writeImpl v t.1 (h.cast v src.value (src.load h m)), h.length_writeImpl .., rfl⟩

/-- The `n` elements from `dst` on are in the buffer. -/
def Iter.inBuffer (dst : Iter) (n : ℕ) (m : Memory) : Prop :=
  0 ≤ dst.off ∧ dst.off + n * dst.step ≤ (m.bytes dst.obj).length

theorem Iter.span_succ (it : Iter) (n : ℕ) :
    ((n + 1 : ℕ) : ℤ) * it.step = n * it.step + it.step := by
  push_cast
  ring

theorem Iter.inBuffer_next {n : ℕ} {m m' : Memory} (hin : dst.inBuffer (n + 1) m)
    (hlen : (m'.bytes dst.obj).length = (m.bytes dst.obj).length) : dst.next.inBuffer n m' := by
  obtain ⟨h0, h1⟩ := hin
  have hoff := dst.off_next
  have hspan := dst.span_succ n
  refine ⟨by omega, ?_⟩
  have hobj : dst.next.obj = dst.obj := rfl
  rw [hobj, hlen, dst.step_next]
  omega

theorem Iter.fits_one {n : ℕ} {m : Memory} (hin : dst.inBuffer (n + 1) m) :
    dst.off.toNat + dst.step ≤ (m.bytes dst.obj).length := by
  obtain ⟨h0, h1⟩ := hin
  have hspan := dst.span_succ n
  have hnonneg : (0 : ℤ) ≤ n * dst.step :=
    Int.mul_nonneg (Int.natCast_nonneg _) (Int.natCast_nonneg _)
  omega

theorem assign_frame (src : Iter) (hk : dst.kind ≠ .plain) {n : ℕ} {m : Memory}
    (hin : dst.inBuffer (n + 1) m) :
    ((dst.assign h src m).bytes dst.obj).length = (m.bytes dst.obj).length ∧
      ((dst.assign h src m).bytes dst.obj).take dst.off.toNat =
        (m.bytes dst.obj).take dst.off.toNat := by
  rw [Iter.assign]
  split_ifs with hs
  · exact ⟨rfl, rfl⟩
  · have hfit := Iter.fits_one hin
    obtain ⟨s, hlen, heq⟩ := dst.transfer_samples hk src m
    rw [heq, Memory.setBytes_bytes]
    exact ⟨length_overwrite (by omega), take_overwrite le_rfl (by omega)⟩

/-- A copy leaves what lies before the destination. -/
theorem copied_frame (src : Iter) (hk : dst.kind ≠ .plain) {n : ℕ} {m : Memory}
    (hin : dst.inBuffer n m) :
    ((copied h src dst n m).bytes dst.obj).take dst.off.toNat =
      (m.bytes dst.obj).take dst.off.toNat := by
  induction n generalizing src dst m with
  | zero => rfl
  | succ n ih =>
    have hkn : dst.next.kind ≠ .plain := hk
    obtain ⟨hlen, htake⟩ := assign_frame (h := h) src hk hin
    have hnext := ih src.next hkn (Iter.inBuffer_next hin hlen)
    have hle : dst.off.toNat ≤ dst.next.off.toNat := by
      have := dst.off_next
      omega
    have hcut := congrArg (List.take dst.off.toNat) hnext
    rw [List.take_take, List.take_take, min_eq_left hle] at hcut
    rw [copied]
    exact hcut.trans htake

/-- A copy that changes nothing finds the samples that it writes. -/
theorem settled_of_copied (hk : dst.kind ≠ .plain) (hs : ¬ src.sameProxy dst) {n : ℕ} {m : Memory}
    (hin : dst.inBuffer n m) (heq : copied h src dst n m = m) : src.settled h dst n m := by
  induction n generalizing src dst with
  | zero => exact fun i hi => absurd hi (Nat.not_lt_zero i)
  | succ n ih =>
    have hassign : dst.assign h src m = dst.transfer h src m := if_neg hs
    obtain ⟨s, hlen, htr⟩ := dst.transfer_samples hk src m (h := h)
    have hfit := Iter.fits_one hin
    have hframe := assign_frame (h := h) src hk hin
    have hkn : dst.next.kind ≠ .plain := hk
    rw [copied] at heq
    -- the rest of the copy leaves the first sample as it is written
    have hrest := copied_frame (h := h) src.next hkn (Iter.inBuffer_next hin hframe.1)
    have hoff : dst.next.off.toNat = dst.off.toNat + s.length := by
      have h0 := hin.1
      have h1 := dst.off_next
      omega
    rw [heq, hassign, htr, hoff] at hrest
    have hself : dst.transfer h src m = m := by
      have hover : overwrite (m.bytes dst.obj) dst.off.toNat s = m.bytes dst.obj := by
        refine overwrite_eq_self (by omega) ?_
        have hobj : dst.next.obj = dst.obj := rfl
        rw [hobj, Memory.setBytes_bytes] at hrest
        exact hrest.symm
      rw [htr, hover, Memory.setBytes_self]
    rw [hassign, hself] at heq
    intro i hi
    cases i with
    | zero => simpa using hself
    | succ i =>
      have hsn : ¬ src.next.sameProxy dst.next := hs
      have hi' := ih hkn hsn (Iter.inBuffer_next hin rfl) heq i (by omega)
      rwa [Iter.next_advance, Iter.next_advance] at hi'

theorem settled_resolve {n : ℕ} {m : Memory} :
    src.resolve.settled h dst.resolve n m ↔ src.settled h dst n m := by
  refine forall₂_congr fun i _ => ?_
  rw [← Iter.resolve_advance, ← Iter.resolve_advance, Iter.transfer_resolve]

theorem copied_resolve_iff (hs : ∀ t, src.kind ≠ .compiletime t)
    (hd : ∀ t, dst.kind ≠ .compiletime t) {n : ℕ} {m : Memory}
    (hin : dst.kind ≠ .plain → dst.inBuffer n m) :
    copied h src.resolve dst.resolve n m = copied h src dst n m ↔
      ¬ src.clash dst ∨ src.settled h dst n m := by
  have hres := sameProxy_resolve_iff hs hd
  by_cases hc : src.clash dst
  · obtain ⟨hsame, hkind⟩ := hc
    have hk := kind_ne_plain_of_sameProxy hsame
    rw [copied_of_sameProxy hsame, or_iff_right (not_not.2 ⟨hsame, hkind⟩), ← settled_resolve]
    constructor
    · have hin' : dst.resolve.inBuffer n m := by
        rw [Iter.inBuffer, Iter.step_resolve]
        exact hin hk
      exact settled_of_copied ((kind_ne_plain_iff dst).2 hk) (fun hsr => hkind (hres.1 hsr).2) hin'
    · exact copied_settled
  · refine iff_of_true (copied_resolve ⟨fun hsr => (hres.1 hsr).1, fun hsame => ?_⟩ n m) (.inl hc)
    exact hres.2 ⟨hsame, not_not.1 fun hkind => hc ⟨hsame, hkind⟩⟩

end

/-! ## Calls -/

theorem Arg.convert_resolve (a : Arg) : Arg.convert a.type a.resolve = a := by
  rcases a with ⟨v, b, _ | f | t, o, i⟩ | n
  · rfl
  · have hf : f.resolve.toRuntime = f := RuntimeFormat.tag_injective rfl
    simp only [Arg.type, Iter.type, Kind.type, Arg.resolve, Iter.resolve, Kind.resolve, Arg.convert,
      hf]
  · rfl
  · rfl

section
variable {order : EvaluationOrder} {f : Functor} {ts rs : List Arg} {m m₁ m₂ : Memory} {n : ℕ}

theorem dispatch_ok {fuel : ℕ} (hR : f.result (ts.map Arg.type) = some (rs.map Arg.type))
    (hR' : (f.result ((ts.map Arg.resolve).map Arg.type)).isSome)
    (hcall : f.call (ts.map Arg.resolve) fuel m = some (.ok (rs.map Arg.resolve), m₂)) :
    dispatch order f ts fuel m = some (.ok rs, m₂) := by
  obtain ⟨R', hR'⟩ := Option.isSome_iff_exists.1 hR'
  have hconvert : List.zipWith Arg.convert (rs.map Arg.type) (rs.map Arg.resolve) = rs := by
    rw [List.zipWith_map, List.zipWith_self]
    simp only [Arg.convert_resolve, List.map_id']
  rw [dispatch_eq, invoke, hR', hR]
  simp only [hcall, Option.map_some, Option.getD_some, Except.map, hconvert]

variable (rs) in
/-- A call that ends either way is alike iff it leaves the same memory. -/
theorem sameEffect_iff (hR : f.result (ts.map Arg.type) = some (rs.map Arg.type))
    (hR' : (f.result ((ts.map Arg.resolve).map Arg.type)).isSome)
    (hplain : ∀ fuel > n, f.call ts fuel m = some (.ok rs, m₁))
    (hres : ∀ fuel > n, f.call (ts.map Arg.resolve) fuel m = some (.ok (rs.map Arg.resolve), m₂)) :
    SameEffect order f ts m ↔ m₂ = m₁ := by
  constructor
  · rintro ⟨k, hk⟩
    obtain ⟨rs', m', -, hc, hc'⟩ := hk (n + k + 1) (by omega)
    rw [hplain _ (by omega)] at hc
    rw [hres _ (by omega)] at hc'
    cases hc
    cases hc'
    rfl
  · rintro rfl
    exact ⟨n, fun fuel hf => ⟨rs, m₂, dispatch_ok hR hR' (hres fuel hf), hplain fuel hf,
      hres fuel hf⟩⟩

theorem throws_of_result (hR : f.result ((ts.map Arg.resolve).map Arg.type) = none) :
    Throws order f ts m := by
  intro fuel
  rw [dispatch_eq, invoke, hR]

end

theorem Iter.mismatch_resolve {i j : Iter} (h : i.mismatch j) :
    i.resolve.type ≠ j.resolve.type := by
  obtain ⟨v, b, k, o, p⟩ := i
  obtain ⟨v', b', k', o', p'⟩ := j
  obtain ⟨htype, hkind⟩ := h
  have hk : k.type = k'.type := congrArg IterType.kind htype
  cases k <;> cases k' <;> cases hk
  · exact absurd rfl hkind
  · rename_i f g
    intro he
    have hfg := KindType.compiletime.inj (congrArg IterType.kind he)
    exact hkind (congrArg Kind.runtime (RuntimeFormat.tag_injective (Subtype.ext_iff.1 hfg)))
  · exact absurd rfl hkind

section
variable {h : Host}

theorem copyImpl_call (i o : Iter) (n : ℕ) (m : Memory) {fuel : ℕ} (hf : n < fuel) :
    (copyImpl h).call [.iter i, .iter (i.advance n), .iter o] fuel m =
      some (.ok [.iter (o.advance n)], copied h i o n m) := by
  have hloop := iterate_copyPass (h := h) (i := i) (o := o) (m := m) (n := n)
    (fun j _ => j.equal (i.advance n))
    (fun k hk => by rw [Iter.equal_advance]; exact decide_eq_false hk.ne)
    (by rw [Iter.equal_advance]; exact decide_eq_true rfl) hf
  simp only [copyImpl, hloop, Option.map_some]

/-- The copy with an end on either side stops as soon as it is at one of the
    two. -/
theorem copyImpl_call_until (i o : Iter) (e e' : ℤ) (k : ℕ) (m : Memory)
    (hgo : ∀ j < k, i.off + j * i.step ≠ e ∧ o.off + j * o.step ≠ e')
    (hstop : i.off + k * i.step = e ∨ o.off + k * o.step = e') {fuel : ℕ} (hf : k < fuel) :
    (copyImpl h).call [.iter i, .iter { i with off := e }, .iter o, .iter { o with off := e' }]
        fuel m =
      some (.ok [.iter (i.advance k), .iter (o.advance k)], copied h i o k m) := by
  have hequal : ∀ (it : Iter) (j : ℕ) (p : ℤ),
      (it.advance j).equal { it with off := p } = decide (it.off + j * it.step = p) := by
    intro it j p
    simp [Iter.equal, Iter.advance]
  have hloop := iterate_copyPass (h := h) (i := i) (o := o) (m := m) (n := k)
    (fun i' o' => i'.equal { i with off := e } || o'.equal { o with off := e' })
    (fun j hj => by
      obtain ⟨h1, h2⟩ := hgo j hj
      rw [hequal, hequal, decide_eq_false h1, decide_eq_false h2]
      rfl)
    (by
      rw [hequal, hequal, ← Bool.decide_or]
      exact decide_eq_true hstop) hf
  simp only [copyImpl, hloop, Option.map_some]

/-- Of two ends that are ahead, the nearer one is met first. -/
theorem copyImpl_call_pair (i o : Iter) (n k : ℕ) (m : Memory) {fuel : ℕ} (hf : min n k < fuel) :
    (copyImpl h).call [.iter i, .iter (i.advance n), .iter o, .iter (o.advance k)] fuel m =
      some (.ok [.iter (i.advance (min n k : ℕ)), .iter (o.advance (min n k : ℕ))],
        copied h i o (min n k) m) := by
  refine copyImpl_call_until i o _ _ (min n k) m (fun j hj => ?_) ?_ hf
  · simp only [ne_eq, Iter.off_inj]
    omega
  · simp only [Iter.off_inj]
    omega

theorem copyNImpl_call (i o : Iter) (c : ℤ) (m : Memory) {fuel : ℕ} (hf : c.toNat < fuel) :
    (copyNImpl h).call [.iter i, .size c, .iter o] fuel m =
      some (.ok [.iter (o.advance c.toNat)], copied h i o c.toNat m) := by
  simp only [copyNImpl, iterate_copyNPass c hf, Option.map_some]

theorem copyImpl_result_pair (i o : Iter) (e e' : ℤ) :
    ((copyImpl h).result ((List.map Arg.resolve
      [.iter i, .iter { i with off := e }, .iter o, .iter { o with off := e' }]).map
        Arg.type)).isSome := by
  simp [copyImpl, Arg.resolve, Arg.type, Iter.resolve, Iter.type]

/-- The copy of a range to a range through `dispatch`. -/
theorem dispatch_copy_until (order : EvaluationOrder) (i o : Iter) (e e' : ℤ) (k : ℕ) (m : Memory)
    (hgo : ∀ j < k, i.off + j * i.step ≠ e ∧ o.off + j * o.step ≠ e')
    (hstop : i.off + k * i.step = e ∨ o.off + k * o.step = e') {fuel : ℕ} (hf : k < fuel) :
    dispatch order (copyImpl h)
        [.iter i, .iter { i with off := e }, .iter o, .iter { o with off := e' }] fuel m =
      some (.ok [.iter (i.advance k), .iter (o.advance k)],
        copied h i.resolve o.resolve k m) := by
  refine dispatch_ok (if_pos ⟨rfl, rfl⟩) (copyImpl_result_pair _ _ _ _) ?_
  have hcall := copyImpl_call_until (h := h) i.resolve o.resolve e e' k m
    (by rwa [i.step_resolve, o.step_resolve]) (by rwa [i.step_resolve, o.step_resolve]) hf
  rw [← Iter.resolve_advance, ← Iter.resolve_advance] at hcall
  exact hcall

theorem Range.inBuffer {m : Memory} {n k : ℕ} (r : Range m n) (hk : r.beg.kind ≠ .plain)
    (hle : k ≤ n) : r.beg.inBuffer k m := by
  have hfits := r.fits
  rw [Iter.room, if_neg hk] at hfits
  have hmul : (k : ℤ) * r.beg.step ≤ n * r.beg.step := by
    exact_mod_cast Nat.mul_le_mul_right r.beg.step hle
  exact ⟨r.nonneg, by omega⟩

end

/-! ## Main result -/

/-- **`dispatch` and the plain path.**  A copy through `dispatch` is the same as
    the element by element copy and the copy with compile-time formats, unless
    source and destination give proxies of one type with different formats and
    the destination does not hold the converted samples yet.  Where iterators
    that must have one type have different formats, it throws and writes
    nothing. -/
theorem copy_sameEffect_iff (h : Host) (order : EvaluationOrder) (m : Memory) :
    (∀ (n : ℕ) (src dst : Range m n),
      SameEffect order (copyImpl h) [.iter src.beg, .iter src.fin, .iter dst.beg] m ↔
        ¬ src.beg.clash dst.beg ∨ src.beg.settled h dst.beg n m) ∧
    (∀ (n k : ℕ) (src : Range m n) (dst : Range m k),
      SameEffect order (copyImpl h) [.iter src.beg, .iter src.fin, .iter dst.beg, .iter dst.fin] m ↔
        ¬ src.beg.clash dst.beg ∨ src.beg.settled h dst.beg (min n k) m) ∧
    (∀ (c : ℤ) (src dst : Range m c.toNat),
      SameEffect order (copyNImpl h) [.iter src.beg, .size c, .iter dst.beg] m ↔
        ¬ src.beg.clash dst.beg ∨ src.beg.settled h dst.beg c.toNat m) ∧
    (∀ beg fin out : Iter, beg.mismatch fin →
      Throws order (copyImpl h) [.iter beg, .iter fin, .iter out] m) ∧
    (∀ ibeg iend obeg oend : Iter, ibeg.mismatch iend ∨ obeg.mismatch oend →
      Throws order (copyImpl h) [.iter ibeg, .iter iend, .iter obeg, .iter oend] m) := by
  refine ⟨fun n src dst => ?_, fun n k src dst => ?_, fun c src dst => ?_, ?_, ?_⟩
  · rw [← copied_resolve_iff src.given dst.given fun hk => dst.inBuffer hk le_rfl]
    refine sameEffect_iff (n := n) [.iter (dst.beg.advance n)] ?_ ?_ ?_ ?_
    · exact if_pos rfl
    · simp [copyImpl, Arg.resolve, Arg.type, Range.fin]
    · exact fun fuel hf => copyImpl_call _ _ _ _ hf
    · intro fuel hf
      simpa [Arg.resolve, Range.fin] using copyImpl_call (h := h) src.beg.resolve dst.beg.resolve
        n m hf
  · rw [← copied_resolve_iff src.given dst.given fun hk => dst.inBuffer hk (min_le_right n k)]
    refine sameEffect_iff (n := min n k) [.iter (src.beg.advance (min n k : ℕ)),
      .iter (dst.beg.advance (min n k : ℕ))] ?_ ?_ ?_ ?_
    · exact if_pos ⟨rfl, rfl⟩
    · exact copyImpl_result_pair _ _ _ _
    · exact fun fuel hf => copyImpl_call_pair _ _ _ _ _ hf
    · intro fuel hf
      simpa [Arg.resolve, Range.fin] using copyImpl_call_pair (h := h) src.beg.resolve
        dst.beg.resolve n k m hf
  · rw [← copied_resolve_iff src.given dst.given fun hk => dst.inBuffer hk le_rfl]
    refine sameEffect_iff (n := c.toNat) [.iter (dst.beg.advance c.toNat)] rfl rfl ?_ ?_
    · exact fun fuel hf => copyNImpl_call _ _ _ _ hf
    · intro fuel hf
      simpa [Arg.resolve] using copyNImpl_call (h := h) src.beg.resolve dst.beg.resolve c m hf
  · intro beg fin out hm
    exact throws_of_result (if_neg fun he => Iter.mismatch_resolve hm he)
  · intro ibeg iend obeg oend hm
    refine throws_of_result (if_neg fun he => ?_)
    rcases hm with hm | hm
    · exact Iter.mismatch_resolve hm he.1
    · exact Iter.mismatch_resolve hm he.2

/-! ## Copying out of a buffer -/

/-- A copy of samples to plain values stores what the samples are read as. -/
theorem copied_values {h : Host} {V : ArithType} (f : RuntimeFormat) (b b' : BaseType) (o o' p : ℕ)
    (pre old post : List V.Val) (m : Memory) (hm : m.values V o' = pre ++ (old ++ post)) :
    (copied h ⟨V, b, .runtime f, o, p⟩ ⟨V, b', .plain, o', pre.length⟩ old.length m).values V o' =
      pre ++ ((List.range old.length).map (fun j => h.read V f
        (slice (m.bytes o) (p + j * f.bitwidth.numBytes) f.bitwidth.numBytes)) ++ post) := by
  induction old generalizing p pre m with
  | nil => exact hm
  | cons v old ih =>
    have hplain : ¬ (⟨V, b, .runtime f, o, p⟩ : Iter).sameProxy ⟨V, b', .plain, o', pre.length⟩ :=
      fun hs => kind_ne_plain_of_sameProxy hs rfl
    generalize hv : h.read V f (slice (m.bytes o) p f.bitwidth.numBytes) = v'
    have hassign : (⟨V, b', .plain, o', pre.length⟩ : Iter).assign h ⟨V, b, .runtime f, o, p⟩ m =
        m.setValues V o' (pre ++ (v' :: (old ++ post))) := by
      rw [Iter.assign, if_neg hplain, Iter.transfer]
      simp only [Iter.store, Iter.load, Host.cast_self, hm, Int.toNat_natCast, List.cons_append, hv]
      rw [List.set_append_right _ _ le_rfl, Nat.sub_self, List.set_cons_zero]
    have hnext : (⟨V, b', .plain, o', pre.length⟩ : Iter).next =
        ⟨V, b', .plain, o', (pre ++ [v']).length⟩ := by
      simp [Iter.next, Iter.advance, Iter.step]
    have hsrc : (⟨V, b, .runtime f, o, p⟩ : Iter).next =
        ⟨V, b, .runtime f, o, (p + f.bitwidth.numBytes : ℕ)⟩ := by
      simp [Iter.next, Iter.advance, Iter.step]
    have hmem : (m.setValues V o' (pre ++ (v' :: (old ++ post)))).values V o' =
        (pre ++ [v']) ++ (old ++ post) := by
      simp [Memory.setValues]
    rw [List.length_cons, copied, hassign, hnext, hsrc, ih _ _ _ hmem, List.range_succ_eq_map,
      List.map_cons, List.map_map, Nat.zero_mul, Nat.add_zero, hv]
    simp only [List.append_assoc, List.cons_append, List.nil_append]
    congr 3
    refine List.map_congr_left fun j _ => ?_
    have hpos : p + f.bitwidth.numBytes + j * f.bitwidth.numBytes =
        p + (j + 1) * f.bitwidth.numBytes := by ring
    rw [hpos]
    rfl

/-! ## Two buffers -/

def EvaluationOrder.leftToRight : EvaluationOrder := ⟨compiletimeFormats.attach, .refl _⟩

/-- A sample of 16 bits, and room for one of 24 bits. -/
def twoBuffers : Memory := ⟨fun o => if o = 0 then [1, 2] else [0, 0, 0], fun _ _ => []⟩

def sourceRange (isConst : Bool) : Range twoBuffers 1 where
  beg := ⟨.integer ⟨true, .w32⟩, ⟨0, isConst⟩, .runtime s16le, 0, 0⟩
  given := by simp
  nonneg := le_rfl
  fits := by cases isConst <;> decide

def destinationRange : Range twoBuffers 1 where
  beg := ⟨.integer ⟨true, .w32⟩, ⟨0, false⟩, .runtime s24le, 1, 0⟩
  given := by simp
  nonneg := le_rfl
  fits := by decide

/-- From constant bytes the copies are alike. -/
theorem copy_sameEffect_iff_twoBuffers :
    SameEffect .leftToRight (copyImpl (.ofNative .littleEndian))
      [.iter (sourceRange true).beg, .iter (sourceRange true).fin, .iter destinationRange.beg]
      twoBuffers ∧
    Throws .leftToRight (copyImpl (.ofNative .littleEndian))
      [.iter (sourceRange false).beg, .iter destinationRange.beg, .iter destinationRange.beg]
      twoBuffers := by
  obtain ⟨hcopy, -, -, hthrows, -⟩ :=
    copy_sameEffect_iff (.ofNative .littleEndian) .leftToRight twoBuffers
  exact ⟨(hcopy 1 (sourceRange true) destinationRange).2 (.inl fun hc => by cases hc.1.2.1),
    hthrows _ _ _ ⟨rfl, by decide⟩⟩

/-- From bytes that can be written, `dispatch` converts the sample and the plain
    path does not. -/
theorem twoBuffers_not_sameEffect :
    ¬ SameEffect .leftToRight (copyImpl (.ofNative .littleEndian))
      [.iter (sourceRange false).beg, .iter (sourceRange false).fin, .iter destinationRange.beg]
      twoBuffers := by
  rintro ⟨n, hn⟩
  obtain ⟨rs, m', -, hplain, hres⟩ := hn (n + 2) (by omega)
  have hcall := copyImpl_call (h := .ofNative .littleEndian) (sourceRange false).beg
    destinationRange.beg 1 twoBuffers (show 1 < n + 2 by omega)
  have hcall' := copyImpl_call (h := .ofNative .littleEndian) (sourceRange false).beg.resolve
    destinationRange.beg.resolve 1 twoBuffers (show 1 < n + 2 by omega)
  have hargs : ([.iter (sourceRange false).beg, .iter (sourceRange false).fin,
      .iter destinationRange.beg] : List Arg).map Arg.resolve =
      [.iter (sourceRange false).beg.resolve, .iter ((sourceRange false).beg.resolve.advance 1),
        .iter destinationRange.beg.resolve] := rfl
  rw [hargs] at hres
  have hm := (Prod.mk.inj (Option.some.inj (hcall.symm.trans hplain))).2
  have hm' := (Prod.mk.inj (Option.some.inj (hcall'.symm.trans hres))).2
  have hbytes := congrArg (fun m => m.bytes 1) (hm.trans hm'.symm)
  revert hbytes
  decide

end NiMedia
