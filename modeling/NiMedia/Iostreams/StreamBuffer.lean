/-
  The buffer of an input stream (`audio/streambuf.h`,
  `iostreams/stream_buffer.h`).

  A stream buffer has a get area, of which the bytes from `gptr` on are not
  consumed yet; `underflow` refills it with the next block of the device.  Moving
  `gptr` out of the get area is undefined (`none`).

  * `rest`: the bytes to come, in the get area and in the blocks.
  * `underflow_spec`: with bytes to come, a refill finds one and keeps them all.
  * `xsgetn_spec`: `n` characters are the first `n` bytes to come, wherever the
    blocks end.
-/
import NiMedia.Lib.Bytes

namespace NiMedia

structure StreamBuffer where
  area : List UInt8
  gptr : ℕ
  gptr_le : gptr ≤ area.length
  blocks : List (List UInt8)

namespace StreamBuffer

/-- `setg` for a block that was read from the device. -/
def setg (b : List UInt8) (bs : List (List UInt8)) : StreamBuffer := ⟨b, 0, zero_le, bs⟩

/-- `underflow`: the current character, or none at the end of the device. -/
def underflow (sb : StreamBuffer) : Option UInt8 × StreamBuffer :=
  if sb.gptr < sb.area.length then (sb.area[sb.gptr]?, sb)
  else match sb.blocks with
    | [] => (none, setg [] [])
    | b :: bs => (b.head?, setg b bs)

/-- `gbump`. -/
def gbump (sb : StreamBuffer) (count : ℤ) : Option StreamBuffer :=
  if h : 0 ≤ sb.gptr + count ∧ (sb.gptr + count).toNat ≤ sb.area.length then
    some ⟨sb.area, (sb.gptr + count).toNat, h.2, sb.blocks⟩
  else none

/-- `*gptr++`, if there is a character in the get area. -/
def take1 (sb : StreamBuffer) : Option UInt8 × StreamBuffer :=
  if h : sb.gptr < sb.area.length then
    (some (sb.area.get ⟨sb.gptr, h⟩), ⟨sb.area, sb.gptr + 1, h, sb.blocks⟩)
  else (none, sb)

/-- `sbumpc`: the current character, after a refill where the get area is
    exhausted (`uflow`). -/
def sbumpc (sb : StreamBuffer) : Option UInt8 × StreamBuffer :=
  if sb.gptr < sb.area.length then sb.take1 else sb.underflow.2.take1

/-- `xsgetn`: as if by calls of `sbumpc`, until one fails. -/
def xsgetn : StreamBuffer → ℕ → List UInt8 × StreamBuffer
  | sb, 0 => ([], sb)
  | sb, n + 1 =>
    match sb.sbumpc with
    | (none, sb') => ([], sb')
    | (some c, sb') => (c :: (xsgetn sb' n).1, (xsgetn sb' n).2)

/-! ## The bytes to come -/

/-- The bytes that are not consumed yet. -/
def rest (sb : StreamBuffer) : List UInt8 := sb.area.drop sb.gptr ++ sb.blocks.flatten

/-- How many bytes the get area and each block have to offer. -/
def lengths (sb : StreamBuffer) : List ℕ :=
  (sb.area.length - sb.gptr) :: sb.blocks.map List.length

/-- The device delivers no empty block. -/
def Filled (sb : StreamBuffer) : Prop := ∀ b ∈ sb.blocks, b ≠ []

/-- The get area and the blocks of the device hold whole samples of `k` bytes,
    and no block is empty. -/
structure Whole (k : ℕ) (sb : StreamBuffer) : Prop where
  dvd : ∀ a ∈ sb.lengths, k ∣ a
  filled : sb.Filled

/-- What `n` bytes leave of some pieces. -/
def skip : List ℕ → ℕ → List ℕ
  | [], _ => []
  | a :: as, n => if n ≤ a then (a - n) :: as else skip as (n - a)

/-- The parts of some pieces that make up `n` bytes. -/
def cut : List ℕ → ℕ → List ℕ
  | [], _ => []
  | a :: as, n => if n ≤ a then [n] else a :: cut as (n - a)

section
variable {sb sb' : StreamBuffer} {k : ℕ}

theorem length_rest : sb.rest.length = sb.lengths.sum := by
  simp [rest, lengths, List.length_flatten]

/-- What moving the get pointer adds to the bytes to come. -/
theorem gbump_inv {count : ℤ} (h : sb.gbump count = some sb') :
    sb'.blocks = sb.blocks ∧ (sb'.rest.length : ℤ) + count = sb.rest.length := by
  unfold gbump at h
  split at h
  · rename_i hin
    cases h
    have hle := sb.gptr_le
    refine ⟨rfl, ?_⟩
    simp only [rest, List.length_append, List.length_drop]
    omega
  · cases h

/-- What it leaves in the get area. -/
theorem gbump_left {count : ℤ} (h : sb.gbump count = some sb') :
    ((sb'.area.length - sb'.gptr : ℕ) : ℤ) = (sb.area.length - sb.gptr : ℕ) - count := by
  unfold gbump at h
  split at h
  · rename_i hin
    cases h
    have hle := sb.gptr_le
    dsimp only
    omega
  · cases h

theorem gbump_area {count : ℤ} (h : sb.gbump count = some sb') : sb'.area = sb.area := by
  unfold gbump at h
  split at h
  · cases h
    rfl
  · cases h

theorem gbump_zero (sb : StreamBuffer) : sb.gbump 0 = some sb := by
  have hle := sb.gptr_le
  have hin : 0 ≤ (sb.gptr : ℤ) + 0 ∧ ((sb.gptr : ℤ) + 0).toNat ≤ sb.area.length :=
    ⟨by omega, by omega⟩
  rw [gbump, dif_pos hin]
  rfl

theorem area_le_rest (sb : StreamBuffer) : sb.area.length - sb.gptr ≤ sb.rest.length := by
  rw [rest, List.length_append, List.length_drop]
  omega

/-- Bytes of the get area are consumed. -/
theorem gbump_spec {n : ℕ} (h : n ≤ sb.area.length - sb.gptr) :
    ∃ sb', sb.gbump n = some sb' ∧ sb'.rest = sb.rest.drop n ∧ sb'.blocks = sb.blocks ∧
      sb'.lengths = skip sb.lengths n := by
  have hle := sb.gptr_le
  have hcond : 0 ≤ (sb.gptr + n : ℤ) ∧ (sb.gptr + n : ℤ).toNat ≤ sb.area.length :=
    ⟨by omega, by omega⟩
  refine ⟨⟨sb.area, sb.gptr + n, by omega, sb.blocks⟩, dif_pos hcond, ?_, rfl, ?_⟩
  · rw [rest, rest, List.drop_append_of_le_length (by rw [List.length_drop]; exact h),
      List.drop_drop]
  · rw [lengths, lengths, skip, if_pos h, Nat.sub_sub]

theorem cut_fit {as : List ℕ} {a n : ℕ} (h : n ≤ a) : cut (a :: as) n = [n] := if_pos h

theorem cut_more {as : List ℕ} {a n : ℕ} (h : a < n) : cut (a :: as) n = a :: cut as (n - a) :=
  if_neg (by omega)

theorem skip_zero (as : List ℕ) : skip as 0 = as := by
  cases as <;> simp [skip]

theorem skip_skip (as : List ℕ) (m n : ℕ) : skip (skip as m) n = skip as (m + n) := by
  induction as generalizing m with
  | nil => rfl
  | cons a as ih =>
    rw [skip, skip]
    split_ifs with h1 h2 h3
    · rw [skip, if_pos (by omega), show a - m - n = a - (m + n) by omega]
    · rw [skip, if_neg (by omega), show n - (a - m) = m + n - a by omega]
    · omega
    · rw [ih, show m - a + n = m + n - a by omega]

theorem dvd_of_mem_skip {as : List ℕ} {n : ℕ} (has : ∀ a ∈ as, k ∣ a) (hn : k ∣ n) :
    ∀ a ∈ skip as n, k ∣ a := by
  induction as generalizing n with
  | nil => exact has
  | cons a as ih =>
    obtain ⟨ha, has⟩ := List.forall_mem_cons.1 has
    rw [skip]
    split_ifs with h
    · exact List.forall_mem_cons.2 ⟨Nat.dvd_sub ha hn, has⟩
    · exact ih has (Nat.dvd_sub hn ha)

/-- The pieces before and after a refill: an exhausted get area is dropped. -/
def Refilled (as as' : List ℕ) : Prop := as' = as ∨ as = 0 :: as'

theorem Refilled.skip_eq {as as' : List ℕ} (h : Refilled as as') {n : ℕ} (hn : 0 < n) :
    skip as' n = skip as n := by
  rcases h with rfl | rfl
  · rfl
  · rw [skip, if_neg (by omega), Nat.sub_zero]

theorem Refilled.forall_cut {as as' : List ℕ} (h : Refilled as as') {n L : ℕ} (hn : 0 < n)
    (hL : 0 < L) : (∀ c ∈ cut as' n, c < L) ↔ ∀ c ∈ cut as n, c < L := by
  rcases h with rfl | rfl
  · rfl
  · rw [cut, if_neg (by omega), Nat.sub_zero, List.forall_mem_cons, and_iff_right hL]

/-- Bytes beyond the get area are cut from what there is after the refill. -/
theorem Refilled.forall_cut_add {as' : List ℕ} {m n L : ℕ} (hm : m = sb.area.length - sb.gptr)
    (h : Refilled (skip sb.lengths m) as') (hn : 0 < n) (hL : 0 < L) :
    (∀ c ∈ cut sb.lengths (m + n), c < L) ↔ m < L ∧ ∀ c ∈ cut as' n, c < L := by
  have hlen : sb.lengths = m :: sb.blocks.map List.length := by rw [lengths, hm]
  rw [hlen, skip, if_pos le_rfl, Nat.sub_self] at h
  rw [h.forall_cut hn hL, hlen, cut_more (by omega), cut_more hn, List.forall_mem_cons,
    List.forall_mem_cons, Nat.add_sub_cancel_left, Nat.sub_zero, and_iff_right hL]

theorem Refilled.dvd {as as' : List ℕ} (h : Refilled as as') (has : ∀ a ∈ as, k ∣ a) :
    ∀ a ∈ as', k ∣ a := by
  rcases h with rfl | rfl
  · exact has
  · exact (List.forall_mem_cons.1 has).2

theorem underflow_of_lt (h : sb.gptr < sb.area.length) : ∃ c, sb.underflow = (some c, sb) :=
  ⟨sb.area[sb.gptr], by rw [underflow, if_pos h, List.getElem?_eq_getElem h]⟩

/-- A refill keeps the bytes to come, and finds one if there is any. -/
theorem underflow_spec (hf : sb.Filled) (hne : sb.rest ≠ []) :
    ∃ c sb', sb.underflow = (some c, sb') ∧ sb'.gptr < sb'.area.length ∧ sb'.rest = sb.rest ∧
      sb'.Filled ∧ Refilled sb.lengths sb'.lengths := by
  unfold underflow
  split_ifs with h
  · exact ⟨sb.area[sb.gptr], sb, by rw [List.getElem?_eq_getElem h], h, rfl, hf, .inl rfl⟩
  · have hdrop : sb.area.drop sb.gptr = [] := List.drop_eq_nil_of_le (by omega)
    cases hb : sb.blocks with
    | nil => exact absurd (by rw [rest, hdrop, hb]; rfl) hne
    | cons b bs =>
      obtain ⟨c, b', rfl⟩ := List.exists_cons_of_ne_nil (hf b (hb ▸ List.mem_cons_self))
      refine ⟨c, setg (c :: b') bs, rfl, Nat.succ_pos _, ?_, fun b hmem => ?_, .inr ?_⟩
      · rw [rest, rest, hdrop, hb]
        rfl
      · exact hf b (by rw [hb]; exact List.mem_cons_of_mem _ hmem)
      · rw [lengths, lengths, hb, Nat.sub_eq_zero_of_le (by omega)]
        rfl

theorem rest_ne_nil_of_underflow {c : UInt8} (h : sb.underflow = (some c, sb')) :
    sb.rest ≠ [] := by
  unfold underflow at h
  split_ifs at h with hlt
  · have harea := area_le_rest sb
    exact List.ne_nil_of_length_pos (by omega)
  · cases hb : sb.blocks with
    | nil => rw [hb] at h; cases h
    | cons b bs =>
      rw [hb] at h
      cases b with
      | nil => cases h
      | cons x b => simp [rest, hb]

variable (sb) in
theorem rest_underflow : sb.underflow.2.rest = sb.rest := by
  unfold underflow
  split_ifs with h
  · rfl
  · have hdrop : sb.area.drop sb.gptr = [] := List.drop_eq_nil_of_le (by omega)
    rw [rest, rest, hdrop]
    cases sb.blocks <;> rfl

/-- With no bytes to come, a refill finds the end of the device. -/
theorem underflow_end (h : sb.rest = []) :
    ∃ sb', sb.underflow = (none, sb') ∧ sb'.rest = [] := by
  rcases hunder : sb.underflow with ⟨_ | c, sb'⟩
  · refine ⟨sb', rfl, ?_⟩
    have hrest := rest_underflow sb
    rwa [hunder, h] at hrest
  · exact absurd h (rest_ne_nil_of_underflow hunder)

theorem filled_underflow (hf : sb.Filled) : sb.underflow.2.Filled := by
  unfold underflow
  split_ifs with h
  · exact hf
  · cases hb : sb.blocks with
    | nil => exact fun b hmem => absurd hmem List.not_mem_nil
    | cons b bs => exact fun b' hmem => hf b' (hb ▸ List.mem_cons_of_mem _ hmem)

theorem take1_spec (h : sb.gptr < sb.area.length) :
    ∃ c sb', sb.take1 = (some c, sb') ∧ sb.rest = c :: sb'.rest ∧ sb'.blocks = sb.blocks ∧
      sb'.lengths = skip sb.lengths 1 := by
  refine ⟨sb.area[sb.gptr], ⟨sb.area, sb.gptr + 1, h, sb.blocks⟩, dif_pos h, ?_, rfl, ?_⟩
  · rw [rest, rest, List.drop_eq_getElem_cons h]
    rfl
  · rw [lengths, lengths, skip, if_pos (by omega), Nat.sub_sub]

theorem sbumpc_spec (hf : sb.Filled) (hne : sb.rest ≠ []) :
    ∃ c sb', sb.sbumpc = (some c, sb') ∧ sb.rest = c :: sb'.rest ∧ sb'.Filled ∧
      sb'.lengths = skip sb.lengths 1 := by
  unfold sbumpc
  split_ifs with h
  · obtain ⟨c, sb', h1, h2, h3, h4⟩ := take1_spec h
    exact ⟨c, sb', h1, h2, fun b hb => hf b (h3 ▸ hb), h4⟩
  · obtain ⟨_, sb₁, hu, hlt, hrest, hf₁, hre⟩ := underflow_spec hf hne
    obtain ⟨c, sb', h1, h2, h3, h4⟩ := take1_spec hlt
    refine ⟨c, sb', by rw [hu, h1], hrest ▸ h2, fun b hb => hf₁ b (h3 ▸ hb), ?_⟩
    rw [h4, hre.skip_eq Nat.one_pos]

variable (sb) in
/-- A character that is taken is the first of the bytes to come. -/
theorem take1_rest : sb.take1.1.toList ++ sb.take1.2.rest = sb.rest := by
  by_cases h : sb.gptr < sb.area.length
  · obtain ⟨c, sb', htake, hrest, -⟩ := take1_spec h
    rw [htake, hrest]
    rfl
  · rw [take1, dif_neg h]
    rfl

variable (sb) in
theorem sbumpc_rest : sb.sbumpc.1.toList ++ sb.sbumpc.2.rest = sb.rest := by
  unfold sbumpc
  split_ifs with h
  · exact take1_rest sb
  · exact (take1_rest _).trans (rest_underflow sb)

variable (sb) in
/-- Whatever the blocks are, the characters read are a prefix of the bytes to
    come. -/
theorem xsgetn_rest (n : ℕ) : (sb.xsgetn n).1 ++ (sb.xsgetn n).2.rest = sb.rest := by
  induction n generalizing sb with
  | zero => rfl
  | succ n ih =>
    have hc := sbumpc_rest sb
    rcases hb : sb.sbumpc with ⟨_ | c, sb'⟩
    · rw [hb] at hc
      simp only [xsgetn, hb]
      exact hc
    · rw [hb] at hc
      simp only [xsgetn, hb, ← hc, List.cons_append, ih]
      rfl

/-- **Characters** come in order, across the blocks. -/
theorem xsgetn_spec (hf : sb.Filled) {n : ℕ} (hn : n ≤ sb.rest.length) :
    ∃ sb', sb.xsgetn n = (sb.rest.take n, sb') ∧ sb'.rest = sb.rest.drop n ∧ sb'.Filled ∧
      sb'.lengths = skip sb.lengths n := by
  induction n generalizing sb with
  | zero => exact ⟨sb, rfl, rfl, hf, (skip_zero _).symm⟩
  | succ n ih =>
    obtain ⟨c, sb₁, hc, hrest, hf₁, hlen⟩ := sbumpc_spec hf (List.ne_nil_of_length_pos (by omega))
    rw [hrest, List.length_cons] at hn
    obtain ⟨sb', h1, h2, h3, h4⟩ := ih hf₁ (by omega)
    refine ⟨sb', ?_, by rw [hrest, h2, List.drop_succ_cons], h3, ?_⟩
    · simp only [xsgetn, hc, h1, hrest, List.take_succ_cons]
    · rw [h4, hlen, skip_skip, Nat.add_comm]

end

end StreamBuffer

end NiMedia
