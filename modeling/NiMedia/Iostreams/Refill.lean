/-
  Refilling a stream buffer out of a container (`iostreams/device/container.h`,
  `iostreams/stream_buffer.h`).

  The buffer asks the device for `n` characters at once; the last block of a
  container is what is left.

  * `refills`: the blocks up to the end of the container, and `dvd_refills`:
    when they hold whole samples of `w` bytes.
  * `StreamBuffer.Fits`: a get area that holds whole samples, kept by refills
    and by consuming samples.
  * `dvd_absolutePosition`: a seek by whole samples leads to a sample.
-/
import NiMedia.Iostreams.Saturation
import NiMedia.Iostreams.StreamBuffer

namespace NiMedia

open Bytes Words

/-! ## Blocks of a container -/

namespace Container

section
variable {n : ℕ} {c c' : Container} {b : List UInt8}

theorem read_none (h : n = 0 ∨ c.pos = c.container.length) : c.read n = (none, c) := by
  have hzero : min n (c.container.length - c.pos) = 0 := by omega
  simp [read, hzero]

/-- A refill with something left. -/
theorem read_some (hn : 0 < n) (hpos : c.pos < c.container.length) :
    ∃ b c', c.read n = (some b, c') ∧ b.length = min n (c.container.length - c.pos) ∧
      c'.container = c.container ∧ c'.pos = c.pos + b.length := by
  have hne : min n (c.container.length - c.pos) ≠ 0 := by omega
  have hlength : (slice c.container c.pos (min n (c.container.length - c.pos))).length =
      min n (c.container.length - c.pos) := by
    rw [length_slice_min]
    omega
  exact ⟨_, _, if_pos hne, hlength, rfl, congrArg (c.pos + ·) hlength.symm⟩

theorem read_inv (h : c.read n = (some b, c')) :
    0 < n ∧ c.pos < c.container.length ∧ b.length = min n (c.container.length - c.pos) ∧
      c'.container = c.container ∧ c'.pos = c.pos + b.length := by
  have hle := c.pos_le
  by_cases hno : n = 0 ∨ c.pos = c.container.length
  · rw [read_none hno] at h
    cases h
  · obtain ⟨b', c'', hread, hlength, hcontainer, hp⟩ :=
      read_some (c := c) (n := n) (by omega) (by omega)
    rw [hread] at h
    cases h
    exact ⟨by omega, by omega, hlength, hcontainer, hp⟩

theorem read_none_inv (h : c.read n = (none, c')) :
    c' = c ∧ (n = 0 ∨ c.pos = c.container.length) := by
  have hle := c.pos_le
  by_cases hno : n = 0 ∨ c.pos = c.container.length
  · rw [read_none hno] at h
    cases h
    exact ⟨rfl, hno⟩
  · obtain ⟨b, c'', hread, -⟩ := read_some (c := c) (n := n) (by omega) (by omega)
    rw [hread] at h
    cases h

end

/-- The container after `k` refills of `n` characters. -/
def reads (n : ℕ) : ℕ → Container → Container
  | 0, c => c
  | k + 1, c => reads n k (c.read n).2

/-- What refills of `n` characters deliver up to the end. -/
def refills (n : ℕ) (c : Container) : List (List UInt8) :=
  match _h : c.read n with
  | (some b, c') => b :: refills n c'
  | (none, _) => []
termination_by c.container.length - c.pos
decreasing_by
  obtain ⟨hn, hpos, hlength, hcontainer, hp⟩ := read_inv _h
  rw [hcontainer]
  omega

section
variable {n w : ℕ} {c c' : Container} {b : List UInt8}

theorem refills_nil (h : c.read n = (none, c')) : c.refills n = [] := by
  rw [refills]
  split
  · rename_i h'
    rw [h] at h'
    cases h'
  · rfl

theorem refills_zero (c : Container) : c.refills 0 = [] := refills_nil (read_none (.inl rfl))

theorem refills_of_some (h : c.read n = (some b, c')) : c.refills n = b :: c'.refills n := by
  rw [refills]
  split
  · rename_i h'
    rw [h] at h'
    cases h'
    rfl
  · rename_i h'
    rw [h] at h'
    cases h'

/-- The blocks are all that is left. -/
theorem length_flatten_refills (hn : 0 < n) (c : Container) :
    (c.refills n).flatten.length = c.container.length - c.pos := by
  have hle := c.pos_le
  induction c using refills.induct (n := n) with
  | case1 c b c' hread ih =>
    obtain ⟨-, hpos, hlength, hcontainer, hp⟩ := read_inv hread
    have hle' := c'.pos_le
    rw [refills_of_some hread, List.flatten_cons, List.length_append, ih hle', hcontainer, hp]
    omega
  | case2 c c' hread =>
    rcases (read_none_inv hread).2 with rfl | hend
    · exact absurd hn (lt_irrefl 0)
    · rw [refills_nil hread, hend, Nat.sub_self]
      rfl

/-- **Whole samples.**  Blocks out of a container of whole samples, from a sample
    on, hold whole samples if `n` characters do, or if one block is enough. -/
theorem dvd_refills (hpos : w ∣ c.pos) (hlength : w ∣ c.container.length)
    (hblock : w ∣ n ∨ c.container.length ≤ n) : ∀ b ∈ c.refills n, w ∣ b.length := by
  induction c using refills.induct (n := n) with
  | case1 c b c' hread ih =>
    obtain ⟨-, -, hmin, hcontainer, hp⟩ := read_inv hread
    have hb : w ∣ b.length := by
      have hleft : w ∣ c.container.length - c.pos := Nat.dvd_sub hlength hpos
      rw [hmin]
      rcases hblock with hn | hle
      · rcases min_choice n (c.container.length - c.pos) with h | h
        · rwa [h]
        · rwa [h]
      · rwa [Nat.min_eq_right (by omega)]
    rw [refills_of_some hread]
    intro b' hmem
    rcases List.mem_cons.1 hmem with rfl | hmem
    · exact hb
    · refine ih ?_ ?_ ?_ b' hmem
      · rw [hp]
        exact Nat.dvd_add hpos hb
      · rwa [hcontainer]
      · rwa [hcontainer]
  | case2 c c' hread =>
    intro b hmem
    rw [refills_nil hread] at hmem
    cases hmem

theorem length_le_of_mem_refills (c : Container) : ∀ b ∈ c.refills n, b.length ≤ n := by
  induction c using refills.induct (n := n) with
  | case1 c b c' hread ih =>
    obtain ⟨-, -, hmin, -, -⟩ := read_inv hread
    intro b' hmem
    rw [refills_of_some hread] at hmem
    rcases List.mem_cons.1 hmem with rfl | hmem
    · omega
    · exact ih b' hmem
  | case2 c c' hread =>
    intro b hmem
    rw [refills_nil hread] at hmem
    cases hmem

theorem reads_nil (h : c.read n = (none, c')) (k : ℕ) : c.reads n k = c := by
  induction k with
  | zero => rfl
  | succ k ih =>
    obtain ⟨rfl, -⟩ := read_none_inv h
    rw [reads, h]
    exact ih

theorem refills_reads (k : ℕ) (c : Container) :
    (c.reads n k).refills n = (c.refills n).drop k := by
  induction k generalizing c with
  | zero => rfl
  | succ k ih =>
    rcases hread : c.read n with ⟨_ | b, c'⟩
    · rw [reads_nil hread, refills_nil hread, List.drop_nil]
    · rw [reads, hread, ih, refills_of_some hread, List.drop_succ_cons]

theorem container_reads (k : ℕ) (c : Container) : (c.reads n k).container = c.container := by
  induction k generalizing c with
  | zero => rfl
  | succ k ih =>
    rcases hread : c.read n with ⟨_ | b, c'⟩
    · rw [reads_nil hread]
    · obtain ⟨-, -, -, hcontainer, -⟩ := read_inv hread
      rw [reads, hread, ih, hcontainer]

/-- Refills of whole samples lead to a sample. -/
theorem dvd_reads (hpos : w ∣ c.pos) (hblocks : ∀ b ∈ c.refills n, w ∣ b.length) (k : ℕ) :
    w ∣ (c.reads n k).pos := by
  induction k generalizing c with
  | zero => exact hpos
  | succ k ih =>
    rcases hread : c.read n with ⟨_ | b, c'⟩
    · rwa [reads_nil hread]
    · obtain ⟨-, -, -, -, hp⟩ := read_inv hread
      rw [refills_of_some hread, List.forall_mem_cons] at hblocks
      rw [reads, hread]
      refine ih ?_ hblocks.2
      rw [hp]
      exact Nat.dvd_add hpos hblocks.1

end

end Container

/-! ## Seeks by samples -/

/-- A seek in a container of whole samples, to a sample, comes to a sample, also
    where the position does not fit: then it comes to the beginning. -/
theorem dvd_absolutePosition {w pos end_ off : ℤ} {way : SeekDir} (hend : w ∣ end_)
    (hsum : w ∣ seekBase pos 0 end_ way + off) (hlow : -2 ^ 63 ≤ seekBase pos 0 end_ way + off)
    (hhigh : seekBase pos 0 end_ way + off < 2 ^ 64) :
    w ∣ absolutePosition pos 0 end_ off way := by
  rw [absolutePosition_eq_wrap]
  rcases lt_or_ge (seekBase pos 0 end_ way + off) (2 ^ 63) with hlt | hge
  · rw [wrap_of_range hlow hlt, clamp]
    split_ifs
    · exact dvd_zero w
    · exact hend
    · exact hsum
  · rw [wrap_of_ge hge (by omega), clamp_of_lt (by omega)]
    exact dvd_zero w

/-! ## Get areas of whole samples -/

namespace StreamBuffer

/-- What a buffer keeps to, out of the blocks `bs`: the get area holds whole
    samples of `w` bytes, and at most `N` bytes; the blocks to come are the last
    ones, and no more than `L` bytes are to come in all. -/
structure Fits (w N L : ℕ) (bs : List (List UInt8)) (sb : StreamBuffer) : Prop where
  left : w ∣ sb.area.length - sb.gptr
  length : sb.area.length ≤ N
  blocks : sb.blocks <:+ bs
  rest : sb.rest.length ≤ L

section
variable {w N L : ℕ} {bs : List (List UInt8)} {sb sb' : StreamBuffer}

/-- A refill brings whole samples. -/
theorem Fits.underflow (h : Fits w N L bs sb) (hbs : ∀ b ∈ bs, w ∣ b.length ∧ b.length ≤ N) :
    Fits w N L bs sb.underflow.2 := by
  have hrest : sb.underflow.2.rest.length ≤ L := by
    rw [rest_underflow]
    exact h.rest
  unfold StreamBuffer.underflow at hrest ⊢
  split_ifs at hrest ⊢ with hlt
  · exact h
  · have hblocks := h.blocks
    cases hb : sb.blocks with
    | nil =>
      rw [hb] at hrest hblocks
      exact ⟨dvd_zero w, Nat.zero_le N, hblocks, hrest⟩
    | cons b blocks =>
      rw [hb] at hrest hblocks
      obtain ⟨hdvd, hle⟩ := hbs b (hblocks.subset List.mem_cons_self)
      exact ⟨hdvd, hle, (List.suffix_cons b blocks).trans hblocks, hrest⟩

/-- Whole samples are consumed. -/
theorem Fits.gbump (h : Fits w N L bs sb) {n : ℕ} (hn : w ∣ n)
    (hgbump : sb.gbump n = some sb') : Fits w N L bs sb' := by
  obtain ⟨hblocks, hrest⟩ := gbump_inv hgbump
  have hleft := gbump_left hgbump
  have hdvd : (w : ℤ) ∣ (sb'.area.length - sb'.gptr : ℕ) := by
    rw [hleft]
    exact Int.dvd_sub (Int.natCast_dvd_natCast.2 h.left) (Int.natCast_dvd_natCast.2 hn)
  refine ⟨Int.natCast_dvd_natCast.1 hdvd, ?_, ?_, ?_⟩
  · rw [gbump_area hgbump]
    exact h.length
  · rw [hblocks]
    exact h.blocks
  · have hle := h.rest
    omega

end

end StreamBuffer

end NiMedia
