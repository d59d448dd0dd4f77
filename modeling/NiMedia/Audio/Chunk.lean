/-
  Chunks of files: an id, the length of the payload, and the payload, padded to
  an even size.
-/
import NiMedia.Audio.Layout

namespace NiMedia

open Bytes

/-- A chunk, with the pad byte of odd payloads. -/
structure Chunk where
  id : ℕ
  payload : List UInt8
  pad : List UInt8
  id_lt : id < 2 ^ 32
  length_pad : pad.length = payload.length % 2

namespace Chunk

variable (e : EndianType) (c : Chunk)

/-- The chunk in a file whose integers are in the byte order `e`. -/
def bytes : List UInt8 :=
  e.toBytes 4 c.id ++ (e.toBytes 4 c.payload.length ++ (c.payload ++ c.pad))

theorem length_bytes : (c.bytes e).length = 8 + c.payload.length + c.payload.length % 2 := by
  simp only [bytes, List.length_append, EndianType.length_toBytes, c.length_pad]
  omega

variable (pre post : List UInt8)

theorem length_in_file :
    (pre ++ (c.bytes e ++ post)).length =
      pre.length + (8 + c.payload.length + c.payload.length % 2) + post.length := by
  rw [List.length_append, List.length_append, c.length_bytes]
  omega

theorem field_id : field e (pre ++ (c.bytes e ++ post)) pre.length 4 = c.id := by
  have hid : c.id % 256 ^ 4 = c.id := Nat.mod_eq_of_lt c.id_lt
  have hslice : slice (pre ++ (c.bytes e ++ post)) pre.length 4 = e.toBytes 4 c.id := by
    rw [← Nat.add_zero pre.length, slice_append_right, bytes, List.append_assoc,
      slice_head (EndianType.length_toBytes _ _ _)]
  rw [field, hslice, EndianType.ofBytes_toBytes, hid]

theorem field_length (h : c.payload.length < 2 ^ 32) :
    field e (pre ++ (c.bytes e ++ post)) (pre.length + 4) 4 = c.payload.length := by
  have hlen : c.payload.length % 256 ^ 4 = c.payload.length := Nat.mod_eq_of_lt h
  have hslice : slice (pre ++ (c.bytes e ++ post)) (pre.length + 4) 4 =
      e.toBytes 4 c.payload.length := by
    rw [slice_append_right]
    simp (disch := simp) only [bytes, List.append_assoc, slice_skip, EndianType.length_toBytes,
      Nat.sub_self, slice_head]
  rw [field, hslice, EndianType.ofBytes_toBytes, hlen]

theorem slice_payload :
    slice (pre ++ (c.bytes e ++ post)) (pre.length + 8) c.payload.length = c.payload := by
  have hslice : slice (pre ++ (c.bytes e ++ post)) (pre.length + 8) c.payload.length =
      slice (c.payload ++ (c.pad ++ post)) 0 c.payload.length := by
    rw [slice_append_right]
    simp (disch := simp) only [bytes, List.append_assoc, slice_skip, EndianType.length_toBytes,
      Nat.reduceSub]
  rw [hslice, slice_head rfl]

end Chunk

/-- Chunks that are there once. -/
theorem eq_of_countP_le_one {cs : List Chunk} {c d : Chunk} {id : ℕ} (h : cs.countP (·.id = id) ≤ 1)
    (hc : c ∈ cs) (hd : d ∈ cs) (hcid : c.id = id) (hdid : d.id = id) : c = d := by
  rw [List.countP_eq_length_filter] at h
  have hc' : c ∈ cs.filter (·.id = id) := List.mem_filter.2 ⟨hc, decide_eq_true hcid⟩
  have hd' : d ∈ cs.filter (·.id = id) := List.mem_filter.2 ⟨hd, decide_eq_true hdid⟩
  cases hl : cs.filter (·.id = id) with
  | nil =>
    rw [hl] at hc'
    cases hc'
  | cons a l =>
    rw [hl] at h hc' hd'
    have hnil : l = [] := List.eq_nil_of_length_eq_zero (by rw [List.length_cons] at h; omega)
    subst hnil
    exact (List.mem_singleton.1 hc').trans (List.mem_singleton.1 hd').symm

end NiMedia
