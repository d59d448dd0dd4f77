/-
  Reading from a part of a file only.

  `Window Y a a' k` relates two files that have the bytes `Y` in them, at offsets
  `a` and `a'`, and stand `k` bytes behind these offsets.  What is read inside of
  `Y` is the same in both, whatever there is around it.

  `readsOnly` says of a program that it makes nothing of the bytes behind some
  offset: what it returns, or throws, and where it stops is the same with any
  other bytes there, or with none.
-/
import NiMedia.Iostreams.Subview

namespace NiMedia

open Bytes Simulation

/-- Both files have the bytes `Y`, and stand at the `k`-th of them. -/
structure Window (Y : List UInt8) (a a' k : ℕ) (f f' : File) : Prop where
  pos : f.pos = a + k
  pos' : f'.pos = a' + k
  bytes : slice f.bytes a Y.length = Y
  bytes' : slice f'.bytes a' Y.length = Y

/-- At the same of the bytes `Y`. -/
def Alike (Y : List UInt8) (a a' : ℕ) (f f' : File) : Prop := ∃ k, Window Y a a' k f f'

section
variable {α β : Type} {Y : List UInt8} {a a' k : ℕ} {Q : α → File → α → File → Prop}

/-- Inside of `Y`, the bytes are those of `Y`. -/
theorem slice_of_window {B : List UInt8} (h : slice B a Y.length = Y) {n : ℕ}
    (hn : k + n ≤ Y.length) : slice B (a + k) n = slice Y k n := by
  rw [← slice_slice (B := B) (p := a) hn, h]

theorem get_of_window {B : List UInt8} (h : slice B a Y.length = Y) {L : Layout β}
    (hn : k + L.size ≤ Y.length) : L.get B (a + k) = L.get Y k := by
  rw [Layout.get, Layout.get, slice_of_window h hn]

theorem window_whole {B : List UInt8} (h : slice B a Y.length = Y) :
    Window Y a 0 0 ⟨B, a⟩ ⟨Y, 0⟩ :=
  ⟨rfl, rfl, h, slice_self Y⟩

/-- Reading bytes of `Y`. -/
theorem Window.bind_readBytes {n : ℕ} (hn : k + n ≤ Y.length)
    {m m' : Option (List UInt8) → Io File α}
    (h : Sim (Window Y a a' (k + n)) Q (m (deliver (slice Y k n))) (m' (deliver (slice Y k n)))) :
    Sim (Window Y a a' k) Q (readBytes n >>= m) (readBytes n >>= m') := by
  rintro ⟨B, p⟩ ⟨B', p'⟩ ⟨hp, hp', hB, hB'⟩
  obtain rfl : p = a + k := hp
  obtain rfl : p' = a' + k := hp'
  have hlen : (slice Y k n).length = n := length_slice hn
  have h1 : readBytes n (⟨B, a + k⟩ : File) = .ok (deliver (slice Y k n), ⟨B, a + (k + n)⟩) := by
    have hread : readBytes n (⟨B, a + k⟩ : File) = .ok (deliver (slice B (a + k) n),
      ⟨B, a + k + (slice B (a + k) n).length⟩) := rfl
    rw [hread, slice_of_window hB hn, hlen, Nat.add_assoc]
  have h2 : readBytes n (⟨B', a' + k⟩ : File) =
      .ok (deliver (slice Y k n), ⟨B', a' + (k + n)⟩) := by
    have hread : readBytes n (⟨B', a' + k⟩ : File) = .ok (deliver (slice B' (a' + k) n),
      ⟨B', a' + k + (slice B' (a' + k) n).length⟩) := rfl
    rw [hread, slice_of_window hB' hn, hlen, Nat.add_assoc]
  rw [run_bind, run_bind, h1, h2]
  exact h _ _ ⟨rfl, rfl, hB, hB'⟩

/-- Fetching an object of `Y`. -/
theorem Window.bind_fetch {L : Layout β} (hn : k + L.size ≤ Y.length)
    {m m' : Option β → Io File α}
    (h : Sim (Window Y a a' (k + L.size)) Q (m (L.get Y k)) (m' (L.get Y k))) :
    Sim (Window Y a a' k) Q (fetch L >>= m) (fetch L >>= m') := by
  have hget := L.get_deliver Y k
  unfold fetch
  rw [bind_assoc, bind_assoc]
  refine Window.bind_readBytes hn ?_
  rw [pure_bind, pure_bind, hget]
  exact h

/-- Going on by `d` bytes. -/
theorem Window.bind_seek {d : ℕ} {m m' : ℤ → Io File α}
    (h : ∀ r r', Sim (Window Y a a' (k + d)) Q (m r) (m' r')) :
    Sim (Window Y a a' k) Q (seek d .cur >>= m) (seek d .cur >>= m') := by
  rintro ⟨B, p⟩ ⟨B', p'⟩ ⟨hp, hp', hB, hB'⟩
  obtain rfl : p = a + k := hp
  obtain rfl : p' = a' + k := hp'
  have hseek : ∀ X q, (seek d .cur : Io File ℤ) ⟨X, q⟩ = .ok (((q + d : ℕ) : ℤ), ⟨X, q + d⟩) :=
    fun X q => congrArg Except.ok (File.seek_cur d ⟨X, q⟩)
  rw [run_bind, run_bind, hseek, hseek]
  exact h _ _ _ _ ⟨Nat.add_assoc a k d, Nat.add_assoc a' k d, hB, hB'⟩

theorem Window.pure (x : α) : Sim (Window Y a a' k) (Same (Alike Y a a')) (Pure.pure x : Io File α)
    (Pure.pure x) := Sim.pure fun _ _ h => ⟨rfl, k, h⟩

theorem Window.liftM (x : Except RuntimeError α) :
    Sim (Window Y a a' k) (Same (Alike Y a a')) (liftM x : Io File α) (liftM x) := by
  cases x with
  | error e => exact Sim.throw
  | ok x => exact Window.pure x

end

/-! ## Reading before an offset only -/

/-- What is returned or thrown, and the position. -/
def outcome {α : Type} (r : Except RuntimeError (α × File)) : Except RuntimeError (α × ℕ) :=
  r.map fun x => (x.1, x.2.pos)

/-- From position `a` of a file with more than `a + n` bytes, the program reads
    none of those behind the first `n`. -/
def readsOnly {α : Type} (m : Io File α) (B : List UInt8) (a n : ℕ) : Prop :=
  B.length ≤ a + n ∨
    ∀ B', B'.take (a + n) = B.take (a + n) → outcome (m ⟨B', a⟩) = outcome (m ⟨B, a⟩)

section
variable {α : Type} {m : Io File α} {B : List UInt8} {a n : ℕ}

theorem slice_take {p k : ℕ} (h : p + k ≤ n) (X : List UInt8) :
    slice (X.take n) p k = slice X p k := by
  rw [slice, slice, List.drop_take, List.take_take, Nat.min_eq_left (by omega)]

theorem readsOnly_of_window
    (h : ∀ Y, slice B a n = Y → Y.length = n →
      ∀ a', Sim (Window Y a a' 0) (Same (Alike Y a a')) m m) : readsOnly m B a n := by
  rcases Nat.lt_or_ge (a + n) B.length with hlt | hle
  · right
    intro B' hB'
    have hY : slice B' a n = slice B a n := by
      rw [← slice_take le_rfl B', ← slice_take le_rfl B, hB']
    have hlen : (slice B a n).length = n := length_slice hlt.le
    have hw : Window (slice B a n) a a 0 ⟨B, a⟩ ⟨B', a⟩ :=
      ⟨rfl, rfl, by rw [hlen], by rw [hlen, hY]⟩
    have hsim := h _ rfl hlen a _ _ hw
    unfold outcome
    cases hm : m ⟨B, a⟩ with
    | error e =>
      cases hm' : m ⟨B', a⟩ with
      | error e' => rw [hm, hm'] at hsim; exact congrArg Except.error hsim.symm
      | ok y => rw [hm, hm'] at hsim; exact hsim.elim
    | ok x =>
      cases hm' : m ⟨B', a⟩ with
      | error e' => rw [hm, hm'] at hsim; exact hsim.elim
      | ok y =>
        rw [hm, hm'] at hsim
        obtain ⟨hvalue, k, hk⟩ := hsim
        simp only [Except.map, hvalue, hk.pos, hk.pos']
  · exact .inl hle

/-- The bytes up to an offset, and anything behind it. -/
theorem slice_take_append (hlt : a + n < B.length) (E : List UInt8) :
    slice (B.take (a + n) ++ E) a (slice B a n).length = slice B a n := by
  have hlen : (B.take (a + n)).length = a + n := by
    rw [List.length_take]
    omega
  rw [length_slice hlt.le, ← slice_take le_rfl (B.take (a + n) ++ E), List.take_left' hlen,
    slice_take le_rfl]

/-- An object in the bytes up to an offset. -/
theorem get_take_append (hlt : a + n < B.length) {L : Layout β} (hn : k + L.size ≤ n) {x : β}
    (h : L.get (slice B a n) k = some x) :
    (∀ E, L.get (B.take (a + n) ++ E) (a + k) = some x) ∧
      L.get (B.take (a + n)) (a + k) = some x := by
  have hget : ∀ E, L.get (B.take (a + n) ++ E) (a + k) = some x := fun E =>
    (get_of_window (slice_take_append hlt E) (by rwa [length_slice hlt.le])).trans h
  have hnil := hget []
  rw [List.append_nil] at hnil
  exact ⟨hget, hnil⟩

/-- Two continuations that make a difference. -/
theorem not_readsOnly {E : List UInt8} (hlt : a + n < B.length)
    (h : outcome (m ⟨B.take (a + n), a⟩) ≠ outcome (m ⟨B.take (a + n) ++ E, a⟩)) :
    ¬ readsOnly m B a n := by
  rintro (hle | hsame)
  · omega
  · have h1 := hsame (B.take (a + n)) (by rw [List.take_take, Nat.min_self])
    have hlen : (B.take (a + n)).length = a + n := by
      rw [List.length_take]
      omega
    have h2 := hsame (B.take (a + n) ++ E) (by rw [List.take_left' hlen])
    exact h (h1.trans h2.symm)

/-- An error that the bytes behind the offset make go away. -/
theorem not_readsOnly_of_error {E : List UInt8} {e : RuntimeError} (hlt : a + n < B.length)
    (h : m ⟨B.take (a + n), a⟩ = .error e) (h' : m ⟨B.take (a + n) ++ E, a⟩ ≠ .error e) :
    ¬ readsOnly m B a n := by
  refine not_readsOnly (E := E) hlt ?_
  rw [h]
  cases hm : m ⟨B.take (a + n) ++ E, a⟩ with
  | error e' =>
    intro heq
    rw [hm] at h'
    cases heq
    exact h' rfl
  | ok x => exact fun heq => by cases heq

end

end NiMedia
