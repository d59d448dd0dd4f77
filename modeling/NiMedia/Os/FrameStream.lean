/-
  Sources that seek in frames, as cursors over their bytes.

  Such a source divides the offset by the size of its frames, as an unsigned
  number.  Forwards from the beginning or the end it comes to where it is to come
  to, and it tells where it stands.

  * `frameSeek_sought`: these seeks come to the frame of the cursor.
-/
import NiMedia.Iostreams.Blocks
import NiMedia.Os.FrameSeek

namespace NiMedia

open Bytes Words

/-! ## Frames -/

/-- A frame of `F` bytes. -/
structure Frame (F : ℕ) where
  bytes : List UInt8
  length_bytes : bytes.length = F

/-- Silence. -/
instance {F : ℕ} : Zero (Frame F) := ⟨⟨List.replicate F 0, List.length_replicate⟩⟩

/-- The bytes of some frames, one behind another. -/
def frameBytes {F : ℕ} (count : ℕ) (frames : ℕ → Frame F) : List UInt8 :=
  (List.range count).flatMap fun i => (frames i).bytes

section
variable {F : ℕ} {frames frames' : ℕ → Frame F} {count : ℕ}

theorem length_frameBytes (count : ℕ) (frames : ℕ → Frame F) :
    (frameBytes count frames).length = count * F :=
  length_flatMap_range count fun i _ => (frames i).length_bytes

theorem frameBytes_congr (h : ∀ i < count, frames i = frames' i) :
    frameBytes count frames = frameBytes count frames' := by
  unfold frameBytes
  rw [List.flatMap_congr]
  intro i hi
  rw [h i (List.mem_range.1 hi)]

theorem slice_frameBytes {p n : ℕ} (h : p + n ≤ count) :
    slice (frameBytes count frames) (p * F) (n * F) = frameBytes n fun i => frames (p + i) :=
  slice_flatMap_range (fun i => (frames i).length_bytes) h

end

/-! ## Seeks -/

section
variable {f n : ℕ} {pos off : ℤ} {way : SeekDir}

theorem frameOffset_of_range (h0 : 0 ≤ off) (hlt : off < 2 ^ 63) : frameOffset off f = off / f := by
  have hle : off / f ≤ off := Int.ediv_le_self f h0
  have hpos : 0 ≤ off / f := Int.ediv_nonneg h0 (Int.natCast_nonneg f)
  rw [frameOffset, Int.emod_eq_of_lt h0 (by omega)]
  exact wrap_of_range (by omega) (by omega)

/-- From the beginning or the end, forwards, with what is behind the last frame
    cut off. -/
theorem absolutePosition_forwards (hway : way ≠ .cur) (h0 : 0 ≤ off)
    (hlt : seekBase pos 0 n way + off < 2 ^ 63) :
    absolutePosition pos 0 n (frameOffset off f) way =
      min (seekBase pos 0 n way + off / f) n := by
  have hbase : 0 ≤ seekBase pos 0 n way := by
    cases way with
    | beg => exact le_rfl
    | cur => exact absurd rfl hway
    | end_ => exact Int.natCast_nonneg n
  have hle : off / f ≤ off := Int.ediv_le_self f h0
  have hpos : 0 ≤ off / f := Int.ediv_nonneg h0 (Int.natCast_nonneg f)
  rw [frameOffset_of_range h0 (by omega), absolutePosition_eq (by omega) (by omega), clamp]
  split_ifs <;> omega

variable {c : Cursor}

/-- A seek for the position stays there. -/
theorem absolutePosition_asked (hf : 0 < f) (hlen : c.bytes.length = n * f)
    (hpos : (c.pos : ℤ) = pos * f) (hlt : (c.pos : ℤ) < 2 ^ 63) :
    absolutePosition pos 0 n (frameOffset 0 f) .cur = pos := by
  have hfz : (0 : ℤ) < f := by exact_mod_cast hf
  have hle : (c.pos : ℤ) ≤ c.bytes.length := by exact_mod_cast c.pos_le
  have h0 : 0 ≤ pos := nonneg_of_mul_nonneg_left (hpos ▸ Int.natCast_nonneg c.pos) hfz
  have hn : pos ≤ n := by
    rw [hpos, hlen, Nat.cast_mul] at hle
    exact le_of_mul_le_mul_right hle hfz
  have hoff : frameOffset 0 f = 0 := by
    rw [frameOffset_of_range le_rfl (by omega), Int.zero_ediv]
  have hbase : seekBase pos 0 n .cur + 0 = pos := Int.add_zero pos
  have hlepos : pos ≤ pos * f := le_mul_of_one_le_right h0 hfz
  rw [hoff, absolutePosition_eq (by rw [hbase]; omega) (by rw [hbase]; omega), hbase, clamp]
  split_ifs <;> omega

/-- **A seek** forwards, or for the position, comes to the frame of the cursor. -/
theorem frameSeek_sought (hf : 0 < f) (hlen : c.bytes.length = n * f)
    (hpos : (c.pos : ℤ) = pos * f) (hfits : fits 0 c (.seek off way)) (hdvd : f ∣ c.sought off way)
    (hreach : AsksPosition off way ∨ forwards c way (c.asked off way)) :
    absolutePosition pos 0 n (frameOffset off f) way * f = c.sought off way := by
  have hfz : (0 : ℤ) < f := by exact_mod_cast hf
  have hn : n ≤ n * f := Nat.le_mul_of_pos_right n hf
  obtain ⟨-, hlt⟩ := hfits
  rcases hreach with hasks | ⟨hway, hle⟩
  · rw [hasks.sought, hpos]
    obtain ⟨rfl, rfl⟩ := hasks
    rw [absolutePosition_asked hf hlen hpos (by simpa [seekBase] using hlt)]
  · have h0 : 0 ≤ off := by
      unfold Cursor.asked at hle
      omega
    cases way with
    | cur => exact absurd rfl hway
    | beg =>
      simp only [seekBase] at hlt
      rw [absolutePosition_forwards hway h0 (by simp only [seekBase]; omega)]
      simp only [Cursor.sought, seekBase, zero_add, hlen] at hdvd ⊢
      rcases le_total off (n * f : ℕ) with hin | hout
      · -- whole frames
        rw [Nat.min_eq_left (by omega)] at hdvd ⊢
        obtain ⟨k, hk⟩ := hdvd
        obtain rfl : off = k * f := by
          rw [← Int.toNat_of_nonneg h0, hk]
          push_cast
          ring
        have hkn : (k : ℤ) ≤ n := by
          push_cast at hin
          exact le_of_mul_le_mul_right hin hfz
        rw [Int.mul_ediv_cancel _ hfz.ne', min_eq_left hkn, Int.toNat_of_nonneg h0]
      · have hdiv : (n : ℤ) ≤ off / f := by
          rw [Int.le_ediv_iff_mul_le hfz]
          push_cast at hout
          exact hout
        rw [min_eq_right hdiv, Nat.min_eq_right (by omega), Nat.cast_mul]
    | end_ =>
      have hdiv : 0 ≤ off / f := Int.ediv_nonneg h0 hfz.le
      simp only [seekBase, hlen] at hlt
      rw [absolutePosition_forwards hway h0 (by simp only [seekBase]; omega)]
      simp only [Cursor.sought, seekBase, hlen]
      rw [min_eq_right (by omega), Nat.min_eq_right (by omega), Nat.cast_mul]

end

end NiMedia
