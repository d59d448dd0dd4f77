/-
  Sources that act as a cursor, and the blocks that a buffer takes out of them.

  A source with frames of `F` bytes acts as a cursor over its bytes as long as it
  is asked for whole frames and stands at one.  A read may be short, and there may
  be positions that a seek does not come to.

  * `Refills n s bs`: refills of `n` characters deliver the blocks `bs` up to the
    end of the source, and `Refills.exists`: there are such blocks.
  * `Refills.spec`: they are what is left, in blocks of whole frames.
-/
import NiMedia.Iostreams.Cursor

namespace NiMedia

open Bytes Words

/-! ## Sources -/

/-- The position that a seek asks for, which may lie outside of the bytes. -/
def Cursor.asked (off : ℤ) (way : SeekDir) (c : Cursor) : ℤ :=
  seekBase c.pos 0 c.bytes.length way + off

/-- For a cursor and a direction, the positions that may be asked for. -/
abbrev Targets := Cursor → SeekDir → ℤ → Prop

/-- The positions that a source comes to from where it stands, by seeks from some
    direction: from the beginning the first one, and no fewer ones from further on. -/
structure Reach (E : Targets) : Prop where
  zero : ∀ c, E c .beg 0
  ahead : ∀ {c c' : Cursor} {way t}, E c way t → c'.bytes = c.bytes → c.pos ≤ c'.pos → E c' way t

/-- All of them. -/
def anywhere (_ : Cursor) (_ : SeekDir) (_ : ℤ) : Prop := True

theorem reach_anywhere : Reach anywhere := ⟨fun _ => trivial, fun _ _ _ => trivial⟩

/-- All of them, but the end only for a source that is there. -/
def beforeEnd (c : Cursor) (_ : SeekDir) (t : ℤ) : Prop :=
  t < c.bytes.length ∨ c.pos = c.bytes.length

theorem reach_beforeEnd : Reach beforeEnd where
  zero c := by
    have hle := c.pos_le
    unfold beforeEnd
    omega
  ahead {c c' way t} h hbytes hpos := by
    have hle := c'.pos_le
    unfold beforeEnd at h ⊢
    rw [hbytes] at hle ⊢
    omega

/-- What is asked for forwards, from the beginning or the end. -/
def forwards (c : Cursor) (way : SeekDir) (t : ℤ) : Prop :=
  way ≠ .cur ∧ seekBase c.pos 0 c.bytes.length way ≤ t

theorem reach_forwards : Reach forwards where
  zero _ := ⟨SeekDir.noConfusion, le_rfl⟩
  ahead {c c' way t} h hbytes _ := by
    obtain ⟨hway, hle⟩ := h
    refine ⟨hway, ?_⟩
    rw [hbytes]
    cases way with
    | beg => exact hle
    | cur => exact absurd rfl hway
    | end_ => exact hle

/-- A seek that asks where the source stands. -/
def AsksPosition (off : ℤ) (way : SeekDir) : Prop := off = 0 ∧ way = .cur

theorem AsksPosition.asked {off : ℤ} {way : SeekDir} (h : AsksPosition off way) (c : Cursor) :
    c.asked off way = c.pos := by
  obtain ⟨rfl, rfl⟩ := h
  exact Int.add_zero _

theorem AsksPosition.sought {off : ℤ} {way : SeekDir} (h : AsksPosition off way) (c : Cursor) :
    c.sought off way = c.pos := by
  have hasked := h.asked c
  have hle := c.pos_le
  unfold Cursor.asked at hasked
  rw [Cursor.sought, hasked]
  omega

/-- A source is asked where it stands, or for a position before the end, or is there. -/
theorem beforeEnd_of_asks {c : Cursor} {off : ℤ} {way : SeekDir}
    (h : AsksPosition off way ∨ beforeEnd c way (c.asked off way)) :
    c.sought off way < c.bytes.length ∨ c.pos = c.bytes.length := by
  have hle := c.pos_le
  rcases h with hasks | hreach | hend
  · rw [hasks.sought]
    omega
  · unfold Cursor.asked at hreach
    unfold Cursor.sought
    omega
  · exact .inr hend

/-- What a buffer asks for: some frames, and no more bytes than an `int` counts. -/
structure BufferSize (F n : ℕ) : Prop where
  frames : F ∣ n
  pos : 0 < n
  int : n < 2 ^ 31

/-- In the states that `R` relates to a cursor, a source answers as the cursor
    does, from `start` on in some device, and stays related to it. -/
structure ActsAsCursor {σ : Type} [Source σ] (F start : ℕ) (E : Targets)
    (R : Cursor → σ → Prop) : Prop where
  reach : Reach E
  aligned : ∀ {c s}, R c s → F ∣ c.pos ∧ F ∣ c.bytes.length
  read : ∀ {c s} (n : ℕ), R c s → BufferSize F n → ∃ k ≤ n, F ∣ k ∧ 0 < k ∧
    (Source.read n s).1 = (c.read k).1 ∧ R (c.read k).2 (Source.read n s).2
  seek : ∀ {c s} (off : ℤ) (way : SeekDir), R c s → fits start c (.seek off way) →
    F ∣ c.sought off way → (AsksPosition off way ∨ E c way (c.asked off way)) →
    (Device.seek off way s).1 = (c.seek off way).1 ∧
      R (c.seek off way).2 (Device.seek off way s).2

namespace Cursor

variable (c : Cursor) (n : ℕ)

theorem length_next : (c.next n).length = min n (c.bytes.length - c.pos) :=
  length_slice_min c.bytes c.pos n

@[simp] theorem fst_read : (c.read n).1 = deliver (c.next n) := rfl

@[simp] theorem fst_seek (off : ℤ) (way : SeekDir) : (c.seek off way).1 = c.sought off way := rfl

@[simp] theorem bytes_read : (c.read n).2.bytes = c.bytes := rfl

@[simp] theorem pos_read : (c.read n).2.pos = c.pos + (c.next n).length := rfl

@[simp] theorem bytes_seek (off : ℤ) (way : SeekDir) : (c.seek off way).2.bytes = c.bytes := rfl

@[simp] theorem pos_seek (off : ℤ) (way : SeekDir) : (c.seek off way).2.pos = c.sought off way :=
  rfl

/-- The bytes that are left. -/
def left : List UInt8 := c.bytes.drop c.pos

theorem length_left : c.left.length = c.bytes.length - c.pos := List.length_drop

/-- `absolute_position` goes where the cursor does. -/
theorem absolutePosition_eq {beg : ℕ} {off : ℤ} {way : SeekDir}
    (h : fits beg c (.seek off way)) :
    absolutePosition ((beg + c.pos : ℕ) : ℤ) beg ((beg + c.bytes.length : ℕ) : ℤ) off way =
      ((beg + c.sought off way : ℕ) : ℤ) := by
  have hle := c.pos_le
  push_cast
  rw [NiMedia.absolutePosition_eq h.1 h.2, clamp, sought]
  cases way <;> simp only [seekBase] <;> split_ifs <;> omega

/-- The same, from the beginning of a device. -/
theorem absolutePosition_zero {off : ℤ} {way : SeekDir} (h : fits 0 c (.seek off way)) :
    absolutePosition c.pos 0 c.bytes.length off way = c.sought off way := by
  have habs := c.absolutePosition_eq h
  simpa only [Nat.zero_add, Nat.cast_zero] using habs

theorem next_append : c.next n ++ (c.read n).2.left = c.left := by
  rw [left, left, bytes_read, pos_read, length_next, next]
  rcases Nat.le_total n (c.bytes.length - c.pos) with hle | hle
  · rw [Nat.min_eq_left hle, ← List.drop_drop]
    exact List.take_append_drop n _
  · rw [Nat.min_eq_right hle, Nat.add_sub_cancel' c.pos_le, List.drop_length, List.append_nil]
    exact List.take_of_length_le (by rw [List.length_drop]; exact hle)

theorem next_eq_take : c.next n = c.left.take n := rfl

theorem left_read : (c.read n).2.left = c.left.drop n := by
  have hsplit := c.next_append n
  rw [next_eq_take] at hsplit
  exact List.append_cancel_left (hsplit.trans (List.take_append_drop n c.left).symm)

variable {c n}

theorem read_end (h : c.next n = []) : (c.read n).2 = c := by
  cases c
  simp [read, h]

theorem next_eq_nil_iff (hn : 0 < n) : c.next n = [] ↔ c.left = [] := by
  rw [← List.length_eq_zero_iff, ← List.length_eq_zero_iff, length_next, length_left]
  omega

/-- Whole frames are left, and whole frames are next. -/
theorem dvd_next {F : ℕ} (hpos : F ∣ c.pos) (hall : F ∣ c.bytes.length) (hn : F ∣ n) :
    F ∣ (c.next n).length := by
  rw [length_next]
  rcases min_choice n (c.bytes.length - c.pos) with h | h
  · rwa [h]
  · rw [h]
    exact Nat.dvd_sub hall hpos

end Cursor

/-! ## Refills -/

section
variable {σ : Type} [Source σ]

/-- What refills of `n` characters deliver up to the end. -/
inductive Refills (n : ℕ) : σ → List (List UInt8) → Prop
  | nil {s s' : σ} (h : Source.read n s = (none, s')) : Refills n s []
  | cons {s s' : σ} {b : List UInt8} {bs : List (List UInt8)}
    (h : Source.read n s = (some b, s')) (hs : Refills n s' bs) : Refills n s (b :: bs)

/-- The source after `k` refills of `n` characters. -/
def refilled (n : ℕ) : ℕ → σ → σ
  | 0, s => s
  | k + 1, s => refilled n k (Source.read n s).2

variable {F start n k : ℕ} {E : Targets} {R : Cursor → σ → Prop} {c : Cursor} {s : σ}
  {bs : List (List UInt8)}

/-- A refill at the end. -/
theorem ActsAsCursor.read_end (hR : ActsAsCursor F start E R) (h : R c s) (hn : BufferSize F n)
    (hend : c.left = []) : (Source.read n s).1 = none ∧ R c (Source.read n s).2 := by
  obtain ⟨k, -, -, -, hread, hrel⟩ := hR.read n h hn
  have hnext : c.next k = [] := by
    rw [← List.length_eq_zero_iff, c.length_next, ← c.length_left, hend]
    exact Nat.min_zero k
  rw [Cursor.read_end hnext] at hrel
  refine ⟨hread.trans ?_, hrel⟩
  rw [Cursor.fst_read, hnext]
  rfl

/-- A refill before the end delivers what is next, and whole frames of it. -/
theorem ActsAsCursor.read_next (hR : ActsAsCursor F start E R) (h : R c s) (hn : BufferSize F n)
    (hmore : c.left ≠ []) : ∃ k ≤ n, c.next k ≠ [] ∧ F ∣ (c.next k).length ∧
      Source.read n s = (some (c.next k), (Source.read n s).2) ∧
      R (c.read k).2 (Source.read n s).2 := by
  obtain ⟨k, hle, hdvd, hk, hread, hrel⟩ := hR.read n h hn
  obtain ⟨hframe, hall⟩ := hR.aligned h
  have hne : c.next k ≠ [] := mt (Cursor.next_eq_nil_iff hk).1 hmore
  have hdeliver : (c.read k).1 = some (c.next k) := deliver_of_ne hne
  exact ⟨k, hle, hne, Cursor.dvd_next hframe hall hdvd, Prod.ext (hread.trans hdeliver) rfl, hrel⟩

/-- **Refills** end, after blocks of whole frames that are all that is left. -/
theorem Refills.exists (hR : ActsAsCursor F start E R) (h : R c s) (hn : BufferSize F n) :
    ∃ bs, Refills n s bs := by
  induction hk : c.left.length using Nat.strong_induction_on generalizing c s with
  | _ m ih =>
    by_cases hend : c.left = []
    · exact ⟨[], .nil (Prod.ext (hR.read_end h hn hend).1 rfl)⟩
    · obtain ⟨k, -, hne, -, hread, hrel⟩ := hR.read_next h hn hend
      have hlt : (c.read k).2.left.length < m := by
        have hlen := congrArg List.length (c.next_append k)
        have hne := List.length_pos_iff.2 hne
        rw [List.length_append] at hlen
        omega
      obtain ⟨bs, hbs⟩ := ih _ hlt hrel rfl
      exact ⟨_, .cons hread hbs⟩

/-- What a refill delivers is next, and whole frames of it. -/
theorem ActsAsCursor.read_some (hR : ActsAsCursor F start E R) (h : R c s) (hn : BufferSize F n)
    {b : List UInt8} {s' : σ} (hread : Source.read n s = (some b, s')) :
    ∃ k ≤ n, b = c.next k ∧ b ≠ [] ∧ F ∣ b.length ∧ R (c.read k).2 s' := by
  by_cases hend : c.left = []
  · have hnone := (hR.read_end h hn hend).1
    rw [hread] at hnone
    cases hnone
  · obtain ⟨k, hle, hne, hdvd, hread', hrel⟩ := hR.read_next h hn hend
    rw [hread] at hread' hrel
    obtain ⟨hb, -⟩ := Prod.mk.inj hread'
    cases hb
    exact ⟨k, hle, rfl, hne, hdvd, hrel⟩

/-- **The blocks** are all that is left, and each is of whole frames. -/
theorem Refills.spec (hR : ActsAsCursor F start E R) (h : R c s) (hn : BufferSize F n)
    (hbs : Refills n s bs) :
    bs.flatten = c.left ∧ ∀ b ∈ bs, b ≠ [] ∧ F ∣ b.length ∧ b.length ≤ n := by
  induction hbs generalizing c with
  | nil hread =>
    refine ⟨?_, fun b hb => by cases hb⟩
    by_contra hend
    obtain ⟨k, -, -, -, hread', -⟩ := hR.read_next h hn (fun hnil => hend hnil.symm)
    rw [hread] at hread'
    cases (Prod.mk.inj hread').1
  | cons hread hbs ih =>
    obtain ⟨k, hle, rfl, hne, hdvd, hrel⟩ := hR.read_some h hn hread
    obtain ⟨hflatten, hblocks⟩ := ih hrel
    refine ⟨?_, List.forall_mem_cons.2 ⟨⟨hne, hdvd, ?_⟩, hblocks⟩⟩
    · rw [List.flatten_cons, hflatten, c.next_append]
    · rw [c.length_next]
      exact (Nat.min_le_left _ _).trans hle

/-- **After some refills** the rest of the blocks is to come. -/
theorem Refills.refilled (hR : ActsAsCursor F start E R) (h : R c s) (hn : BufferSize F n)
    (hbs : Refills n s bs) (hk : k ≤ bs.length) :
    Refills n (refilled n k s) (bs.drop k) ∧
      ∃ c', R c' (NiMedia.refilled n k s) ∧ c'.bytes = c.bytes ∧
        c'.pos = c.pos + (bs.take k).flatten.length := by
  induction k generalizing c s bs with
  | zero => exact ⟨hbs, c, h, rfl, rfl⟩
  | succ k ih =>
    cases hbs with
    | nil hread => cases hk
    | cons hread hbs =>
      obtain ⟨j, -, rfl, -, -, hrel⟩ := hR.read_some h hn hread
      obtain ⟨hrest, c', hrel', hbytes, hpos⟩ := ih hrel hbs (Nat.le_of_succ_le_succ hk)
      rw [NiMedia.refilled, hread]
      refine ⟨hrest, c', hrel', hbytes, ?_⟩
      rw [hpos, List.take_succ_cons, List.flatten_cons, List.length_append, Cursor.pos_read,
        Nat.add_assoc]

/-- More refills at the end change nothing. -/
theorem Refills.refilled_end (hR : ActsAsCursor F start E R) (h : R c s) (hn : BufferSize F n)
    (hend : c.left = []) :
    Refills n (NiMedia.refilled n k s) [] ∧ R c (NiMedia.refilled n k s) := by
  induction k generalizing s with
  | zero =>
    have hread : Source.read n s = (none, (Source.read n s).2) :=
      Prod.ext (hR.read_end h hn hend).1 rfl
    exact ⟨.nil hread, h⟩
  | succ k ih => exact ih (hR.read_end h hn hend).2

theorem refilled_add (n j k : ℕ) (s : σ) :
    refilled n (j + k) s = refilled n k (refilled n j s) := by
  induction j generalizing s with
  | zero => rw [Nat.zero_add, refilled]
  | succ j ih => rw [Nat.succ_add, refilled, refilled, ih]

end

/-! ## Views act as cursors -/

end NiMedia
