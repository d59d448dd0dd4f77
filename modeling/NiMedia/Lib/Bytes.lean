/-
  Byte strings: positional numerals in both byte orders, slices, and
  overwriting at an offset.

  * `leNat`/`beNat` read a byte string as a number, `leBytes`/`beBytes` write a
    number on a fixed count of bytes; on strings of one length they are inverse.
  * `slice B p n` are the `n` bytes from offset `p`, `overwrite B p s` is `B`
    with `s` laid over it at offset `p` (zero filled up to `p`).
-/
import Mathlib.Data.Nat.Basic
import Mathlib.Data.List.Basic
import Mathlib.Tactic.Ring

namespace Bytes

/-! ## Numerals -/

/-- The number with the little-endian digits `bs`. -/
def leNat : List UInt8 → ℕ
  | [] => 0
  | b :: bs => b.toNat + 256 * leNat bs

/-- The number with the big-endian digits `bs`. -/
def beNat (bs : List UInt8) : ℕ := leNat bs.reverse

/-- The `k` little-endian digits of `n` (modulo `256 ^ k`). -/
def leBytes : ℕ → ℕ → List UInt8
  | 0, _ => []
  | k + 1, n => UInt8.ofNat n :: leBytes k (n / 256)

/-- The `k` big-endian digits of `n` (modulo `256 ^ k`). -/
def beBytes (k n : ℕ) : List UInt8 := (leBytes k n).reverse

@[simp] theorem length_leBytes : ∀ k n, (leBytes k n).length = k
  | 0, _ => rfl
  | k + 1, n => by rw [leBytes, List.length_cons, length_leBytes k]

@[simp] theorem length_beBytes (k n : ℕ) : (beBytes k n).length = k := by simp [beBytes]

theorem leNat_lt (bs : List UInt8) : leNat bs < 256 ^ bs.length := by
  induction bs with
  | nil => simp [leNat]
  | cons b bs ih =>
    have hb : b.toNat < 256 := b.toNat_lt
    rw [leNat, List.length_cons, pow_succ]
    omega

theorem beNat_lt (bs : List UInt8) : beNat bs < 256 ^ bs.length := by
  simpa [beNat] using leNat_lt bs.reverse

@[simp] theorem leNat_leBytes : ∀ k n, leNat (leBytes k n) = n % 256 ^ k
  | 0, n => by simp [leBytes, leNat, Nat.mod_one]
  | k + 1, n => by
    have hb : (UInt8.ofNat n).toNat = n % 256 := UInt8.toNat_ofNat'
    rw [leBytes, leNat, leNat_leBytes k, hb, pow_succ', Nat.mod_mul]

@[simp] theorem beNat_beBytes (k n : ℕ) : beNat (beBytes k n) = n % 256 ^ k := by
  simp [beNat, beBytes]

theorem leBytes_leNat (bs : List UInt8) : leBytes bs.length (leNat bs) = bs := by
  induction bs with
  | nil => rfl
  | cons b bs ih =>
    have hb : b.toNat < 256 := b.toNat_lt
    have h1 : UInt8.ofNat (b.toNat + 256 * leNat bs) = b := by
      apply UInt8.toNat_inj.1
      have : (UInt8.ofNat (b.toNat + 256 * leNat bs)).toNat = (b.toNat + 256 * leNat bs) % 256 :=
        UInt8.toNat_ofNat'
      omega
    have h2 : (b.toNat + 256 * leNat bs) / 256 = leNat bs := by omega
    rw [List.length_cons, leBytes, leNat, h1, h2, ih]

theorem beBytes_beNat (bs : List UInt8) : beBytes bs.length (beNat bs) = bs := by
  have h := leBytes_leNat bs.reverse
  rw [List.length_reverse] at h
  rw [beBytes, beNat, h, List.reverse_reverse]

theorem leNat_inj {xs ys : List UInt8} (hl : xs.length = ys.length) (h : leNat xs = leNat ys) :
    xs = ys := by
  rw [← leBytes_leNat xs, ← leBytes_leNat ys, hl, h]

theorem leNat_append (xs ys : List UInt8) :
    leNat (xs ++ ys) = leNat xs + 256 ^ xs.length * leNat ys := by
  induction xs with
  | nil => simp [leNat]
  | cons x xs ih =>
    rw [List.cons_append, leNat, leNat, ih, List.length_cons, pow_succ]
    ring

theorem leBytes_add : ∀ k l n, leBytes (k + l) n = leBytes k n ++ leBytes l (n / 256 ^ k)
  | 0, l, n => by simp [leBytes]
  | k + 1, l, n => by
    rw [show k + 1 + l = k + l + 1 by omega, leBytes, leBytes_add k, leBytes, List.cons_append,
      Nat.div_div_eq_div_mul, pow_succ']

theorem leBytes_eq_map (k n : ℕ) :
    leBytes k n = (List.range k).map fun i => UInt8.ofNat (n / 256 ^ i) := by
  induction k generalizing n with
  | zero => rfl
  | succ k ih =>
    rw [leBytes, ih, List.range_succ_eq_map, List.map_cons, List.map_map, pow_zero, Nat.div_one]
    refine congrArg _ (List.map_congr_left fun i _ => ?_)
    rw [Function.comp, pow_succ', ← Nat.div_div_eq_div_mul]

@[simp] theorem leNat_replicate_zero (n : ℕ) : leNat (List.replicate n 0) = 0 := by
  induction n with
  | zero => rfl
  | succ n ih => rw [List.replicate_succ, leNat, ih]; rfl

/-- The byte order of a palindrome does not matter. -/
theorem beNat_eq_leNat_iff (bs : List UInt8) : beNat bs = leNat bs ↔ bs.reverse = bs :=
  ⟨fun h => leNat_inj List.length_reverse h, fun h => by rw [beNat, h]⟩

/-- Casting out: modulo 255 a number is the sum of its bytes. -/
theorem leNat_mod (bs : List UInt8) : leNat bs % 255 = (bs.map UInt8.toNat).sum % 255 := by
  induction bs with
  | nil => rfl
  | cons b bs ih =>
    rw [leNat, List.map_cons, List.sum_cons]
    omega

theorem beNat_mod (bs : List UInt8) : beNat bs % 255 = (bs.map UInt8.toNat).sum % 255 := by
  rw [beNat, leNat_mod, List.map_reverse, List.sum_reverse]

/-! ## Slices -/

/-- The `n` bytes of `B` from offset `p`. -/
def slice {α : Type} (B : List α) (p n : ℕ) : List α := (B.drop p).take n

section
variable {α : Type}

theorem length_slice {B : List α} {p n : ℕ} (h : p + n ≤ B.length) : (slice B p n).length = n := by
  rw [slice, List.length_take, List.length_drop]; omega

/-- A slice inside the second part. -/
theorem slice_append_right (xs ys : List α) (p n : ℕ) :
    slice (xs ++ ys) (xs.length + p) n = slice ys p n := by
  rw [slice, slice, ← List.drop_drop, List.drop_left]

/-- A slice behind the first part. -/
theorem slice_skip {xs ys : List α} {p n : ℕ} (h : xs.length ≤ p) :
    slice (xs ++ ys) p n = slice ys (p - xs.length) n := by
  obtain ⟨d, rfl⟩ := Nat.exists_eq_add_of_le h
  rw [slice_append_right, Nat.add_sub_cancel_left]

/-- The first part. -/
theorem slice_head {xs ys : List α} {n : ℕ} (h : xs.length = n) : slice (xs ++ ys) 0 n = xs := by
  rw [slice, List.drop_zero, ← h, List.take_left]

theorem slice_self (B : List α) : slice B 0 B.length = B := by
  rw [slice, List.drop_zero, List.take_length]

theorem slice_slice {B : List α} {p n q m : ℕ} (h : q + m ≤ n) :
    slice (slice B p n) q m = slice B (p + q) m := by
  simp only [slice, List.drop_take, List.take_take, List.drop_drop]
  rw [Nat.min_eq_left (by omega)]

/-- The first elements, and the rest. -/
theorem exists_append_of_le {l : List α} {n : ℕ} (h : n ≤ l.length) :
    ∃ a b, l = a ++ b ∧ a.length = n :=
  ⟨l.take n, l.drop n, (List.take_append_drop n l).symm, List.length_take_of_le h⟩

/-- A slice is made up of two in a row. -/
theorem slice_add (B : List α) (p m n : ℕ) :
    slice B p (m + n) = slice B p m ++ slice B (p + m) n := by
  rw [slice, slice, slice, List.take_add, List.drop_drop]

theorem slice_drop (B : List α) (m p n : ℕ) : slice (B.drop m) p n = slice B (m + p) n := by
  rw [slice, slice, List.drop_drop]

/-- The `i`-th of the blocks of `n` elements that make up a list. -/
theorem slice_flatMap {β : Type} {g : β → List α} {n : ℕ} (hg : ∀ b, (g b).length = n) :
    ∀ (bs : List β) (i : ℕ) (hi : i < bs.length), slice (bs.flatMap g) (i * n) n = g bs[i]
  | b :: bs, 0, _ => by
    rw [List.flatMap_cons, Nat.zero_mul, slice, List.drop_zero, ← hg b, List.take_left]; rfl
  | b :: bs, i + 1, hi => by
    have ih := slice_flatMap hg bs i (by simpa using hi)
    rw [List.flatMap_cons, Nat.succ_mul, Nat.add_comm, ← hg b, slice_append_right, hg b, ih]; rfl

theorem length_flatMap_range {g : ℕ → List α} {L : ℕ} (n : ℕ) (hg : ∀ i < n, (g i).length = L) :
    ((List.range n).flatMap g).length = n * L := by
  induction n with
  | zero => simp
  | succ n ih =>
    rw [List.range_succ, List.flatMap_append, List.flatMap_singleton, List.length_append,
      ih fun i hi => hg i (by omega), hg n (Nat.lt_succ_self n), Nat.succ_mul]

/-- Blocks in a row. -/
theorem slice_flatMap_range {g : ℕ → List α} {L N p n : ℕ} (hg : ∀ i, (g i).length = L)
    (h : p + n ≤ N) : slice ((List.range N).flatMap g) (p * L) (n * L) =
      (List.range n).flatMap fun i => g (p + i) := by
  obtain ⟨m, rfl⟩ := Nat.exists_eq_add_of_le h
  have hpre : ((List.range p).flatMap g).length = p * L := length_flatMap_range p fun i _ => hg i
  rw [Nat.add_assoc, List.range_add, List.flatMap_append, ← hpre, ← Nat.add_zero (List.length _),
    slice_append_right, List.flatMap_map, List.range_add, List.flatMap_append]
  exact slice_head (length_flatMap_range n fun i _ => hg (p + i))

/-- A list is made up of its blocks. -/
theorem flatMap_slice {n : ℕ} (k : ℕ) (B : List α) (h : B.length = k * n) :
    (List.range k).flatMap (fun i => slice B (i * n) n) = B := by
  induction k generalizing B with
  | zero =>
    rw [Nat.zero_mul, List.length_eq_zero_iff] at h
    rw [h]; rfl
  | succ k ih =>
    rw [Nat.succ_mul] at h
    have hdrop := ih (B.drop n) (by rw [List.length_drop]; omega)
    rw [List.range_succ_eq_map, List.flatMap_cons, List.flatMap_map]
    have hshift : (fun i => slice B (i.succ * n) n) = fun i => slice (B.drop n) (i * n) n := by
      funext i; rw [slice_drop, Nat.succ_mul, Nat.add_comm]
    rw [hshift, hdrop, Nat.zero_mul, slice, List.drop_zero, List.take_append_drop]

end

/-! ## Inserting -/

/-- `B` with `C` inserted at offset `p`. -/
def insertAt {α : Type} (B C : List α) (p : ℕ) : List α := B.take p ++ (C ++ B.drop p)

section
variable {α : Type} {B : List α} {p q n : ℕ}

theorem length_insertAt (B C : List α) (p : ℕ) :
    (insertAt B C p).length = B.length + C.length := by
  simp only [insertAt, List.length_append, List.length_take, List.length_drop]
  omega

theorem slice_insertAt_left (C : List α) (hp : p ≤ B.length) (h : q + n ≤ p) :
    slice (insertAt B C p) q n = slice B q n := by
  have hlen : (B.take p).length = p := List.length_take_of_le hp
  rw [slice, slice, insertAt, List.drop_append_of_le_length (by omega),
    List.take_append_of_le_length (by rw [List.length_drop]; omega), List.drop_take, List.take_take,
    Nat.min_eq_left (by omega)]

theorem slice_insertAt_right (C : List α) (hp : p ≤ B.length) (h : p ≤ q) :
    slice (insertAt B C p) (q + C.length) n = slice B q n := by
  have hlen : (B.take p).length = p := List.length_take_of_le hp
  rw [insertAt, slice_skip (by omega), slice_skip (by omega), slice_drop]
  congr 1
  omega

end

/-! ## Overwriting -/

/-- `B` with `s` laid over it at offset `p`; a gap before `p` is zero filled. -/
def overwrite (B : List UInt8) (p : ℕ) (s : List UInt8) : List UInt8 :=
  B.take p ++ (List.replicate (p - B.length) 0 ++ (s ++ B.drop (p + s.length)))

theorem overwrite_end (B s : List UInt8) : overwrite B B.length s = B ++ s := by
  simp [overwrite]

theorem overwrite_append {pre x post s : List UInt8} (h : s.length = x.length) :
    overwrite (pre ++ (x ++ post)) pre.length s = pre ++ (s ++ post) := by
  have h0 : pre.length - (pre ++ (x ++ post)).length = 0 := by simp
  rw [overwrite, List.take_left, h0, List.replicate_zero, List.nil_append, h,
    List.drop_length_add_append, List.drop_left]

theorem overwrite_of_eq {B pre x post s : List UInt8} {p : ℕ} (hB : B = pre ++ (x ++ post))
    (hp : p = pre.length) (h : s.length = x.length) : overwrite B p s = pre ++ (s ++ post) := by
  subst hB hp; exact overwrite_append h

/-- What is laid over the second part leaves the first one. -/
theorem overwrite_append_right (pre B s : List UInt8) (q : ℕ) :
    overwrite (pre ++ B) (pre.length + q) s = pre ++ overwrite B q s := by
  have hpad : pre.length + q - (pre ++ B).length = q - B.length := by
    rw [List.length_append]
    omega
  rw [overwrite, overwrite, List.take_length_add_append, hpad, Nat.add_assoc,
    List.drop_length_add_append, List.append_assoc]

theorem length_overwrite {B s : List UInt8} {p : ℕ} (h : p + s.length ≤ B.length) :
    (overwrite B p s).length = B.length := by
  simp only [overwrite, List.length_append, List.length_take, List.length_replicate,
    List.length_drop]
  omega

theorem take_overwrite {B s : List UInt8} {p q : ℕ} (hq : q ≤ p) (hp : p ≤ B.length) :
    (overwrite B p s).take q = B.take q := by
  rw [overwrite, List.take_append_of_le_length (by rw [List.length_take]; omega), List.take_take,
    min_eq_left hq]

/-- Bytes laid over a part of `B` are found there, and `B` elsewhere. -/
theorem getElem?_overwrite {B s : List UInt8} {p : ℕ} (h : p + s.length ≤ B.length) (q : ℕ) :
    (overwrite B p s)[q]? = if p ≤ q ∧ q < p + s.length then s[q - p]? else B[q]? := by
  obtain ⟨pre, x, post, rfl, hp, hx⟩ : ∃ pre x post, B = pre ++ (x ++ post) ∧ p = pre.length ∧
      s.length = x.length := by
    refine ⟨B.take p, (B.drop p).take s.length, (B.drop p).drop s.length, ?_, ?_, ?_⟩
    · rw [List.take_append_drop, List.take_append_drop]
    · rw [List.length_take]; omega
    · rw [List.length_take, List.length_drop]; omega
  rw [overwrite_of_eq rfl hp hx, hp]
  split_ifs with hq
  · rw [List.getElem?_append_right hq.1, List.getElem?_append_left (by omega)]
  · rcases Nat.lt_or_ge q pre.length with hlt | hge
    · rw [List.getElem?_append_left hlt, List.getElem?_append_left hlt]
    · rw [List.getElem?_append_right hge, List.getElem?_append_right hge,
        List.getElem?_append_right (by omega), List.getElem?_append_right (by omega), hx]

theorem slice_overwrite {B s : List UInt8} {p : ℕ} (h : p + s.length ≤ B.length) :
    slice (overwrite B p s) p s.length = s := by
  refine List.ext_getElem? fun i => ?_
  rw [slice, List.getElem?_take, List.getElem?_drop, getElem?_overwrite h]
  split_ifs with h1 h2
  · rw [Nat.add_sub_cancel_left]
  · omega
  · rw [List.getElem?_eq_none (Nat.le_of_not_lt h1)]

/-- What is laid over one part leaves the others. -/
theorem slice_overwrite_of_disjoint {B s : List UInt8} {p q n : ℕ} (h : p + s.length ≤ B.length)
    (hd : q + n ≤ p ∨ p + s.length ≤ q) : slice (overwrite B p s) q n = slice B q n := by
  refine List.ext_getElem? fun i => ?_
  rw [slice, slice, List.getElem?_take, List.getElem?_take, List.getElem?_drop,
    List.getElem?_drop, getElem?_overwrite h]
  split_ifs with h1 h2
  · omega
  · rfl
  · rfl

/-- Laying bytes over themselves. -/
theorem overwrite_eq_self {B s : List UInt8} {p : ℕ} (h : p + s.length ≤ B.length)
    (htake : (overwrite B p s).take (p + s.length) = B.take (p + s.length)) :
    overwrite B p s = B := by
  have hdrop : (overwrite B p s).drop (p + s.length) = B.drop (p + s.length) := by
    have hpre : (B.take p ++ s).length = p + s.length := by
      rw [List.length_append, List.length_take, min_eq_left (by omega)]
    have hsplit : overwrite B p s = (B.take p ++ s) ++ B.drop (p + s.length) := by
      rw [overwrite, show p - B.length = 0 by omega, List.replicate_zero, List.nil_append,
        List.append_assoc]
    rw [hsplit, ← hpre, List.drop_left]
  rw [← List.take_append_drop (p + s.length) (overwrite B p s), htake, hdrop,
    List.take_append_drop]

end Bytes
