/-
  The codes and the integers of the chunks (`audio/fourcc.h`).

  An integer is read and written in the byte order of the host, or in the one
  that its type says (`boost::endian`).
-/
import NiMedia.Iostreams.Subview

namespace NiMedia

open Bytes Words Simulation

/-- `little_endian_fourcc`. -/
def littleEndianFourcc (p0 p1 p2 p3 : Char) : ℕ :=
  p3.toNat <<< 24 ||| p2.toNat <<< 16 ||| p1.toNat <<< 8 ||| p0.toNat

/-- `big_endian_fourcc`. -/
def bigEndianFourcc (p0 p1 p2 p3 : Char) : ℕ :=
  p0.toNat <<< 24 ||| p1.toNat <<< 16 ||| p2.toNat <<< 8 ||| p3.toNat

/-- `fourcc_to_string`: the bytes as they lie in memory. -/
def fourccToString (native : EndianType) (x : ℕ) : String :=
  String.ofList ((native.toBytes 4 x).map fun b => Char.ofNat b.toNat)

/-- `static_cast<uint32_t>`. -/
def uint32 (x : ℤ) : ℕ := (x % 2 ^ 32).toNat

/-- An element of `std::map`, inserted unless its key is there already. -/
def mapInsert {α : Type} (key : ℤ) (value : α) : List (ℤ × α) → List (ℤ × α)
  | [] => [(key, value)]
  | (k, v) :: m =>
    if key < k then (key, value) :: (k, v) :: m
    else if key = k then (k, v) :: m
    else (k, v) :: mapInsert key value m

section
variable (native : EndianType)

/-- An unsigned integer of `k` bytes. -/
def uintLayout (k : ℕ) (hk : 0 < k) : Layout ℕ where
  size := k
  size_pos := hk
  decode := native.ofBytes

def uint8Layout : Layout ℕ := uintLayout native 1 (by decide)
def uint16Layout : Layout ℕ := uintLayout native 2 (by decide)
def uint32Layout : Layout ℕ := uintLayout native 4 (by decide)

/-- The unsigned field of `k` bytes at offset `o`. -/
def field (bs : List UInt8) (o k : ℕ) : ℕ := native.ofBytes (slice bs o k)

/-- The signed field of `k` bytes at offset `o`. -/
def signedField (bs : List UInt8) (o k : ℕ) : ℤ := wrap (8 * k) (field native bs o k)

variable {native}

theorem field_lt (bs : List UInt8) (o k : ℕ) : field native bs o k < 256 ^ k :=
  (native.ofBytes_lt _).trans_le (Nat.pow_le_pow_right (by decide) (List.length_take_le _ _))

theorem uintLayout_get_lt {k : ℕ} {hk : 0 < k} {bs : List UInt8} {p n : ℕ}
    (h : (uintLayout native k hk).get bs p = some n) : n < 256 ^ k := by
  obtain ⟨-, hlen, rfl⟩ := Layout.get_eq_some h
  have hlt := native.ofBytes_lt (slice bs p k)
  rw [show (slice bs p k).length = k from hlen] at hlt
  exact hlt

end

/-! ## Integers of a file -/

section
variable {e : EndianType} {B : List UInt8} {o : ℕ}

/-- The cursor stops at the end of the file. -/
theorem fetch_uint32_get (e : EndianType) (B : List UInt8) (o : ℕ) :
    fetch (uint32Layout e) (⟨B, o⟩ : File) =
      .ok ((uint32Layout e).get B o, ⟨B, o + min 4 (B.length - o)⟩) := by
  have hlen : (slice B o (uint32Layout e).size).length = min 4 (B.length - o) :=
    length_slice_min B o 4
  rw [fetch_file, hlen]

theorem get_uint32 (h : o + 4 ≤ B.length) :
    (uint32Layout e).get B o = some (field e B o 4) := Layout.get_of_le h

theorem get_uint32_short (h : B.length < o + 4) : (uint32Layout e).get B o = none := by
  have hlen : (slice B o 4).length = min 4 (B.length - o) := length_slice_min B o 4
  exact if_neg (show (slice B o 4).length ≠ 4 by omega)

theorem fetch_uint32 (h : o + 4 ≤ B.length) :
    fetch (uint32Layout e) (⟨B, o⟩ : File) = .ok (some (field e B o 4), ⟨B, o + 4⟩) := by
  rw [fetch_uint32_get, get_uint32 h, Nat.min_eq_left (by omega)]

theorem fetch₂_uint32 (h : o + 8 ≤ B.length) :
    fetch₂ (uint32Layout e) (uint32Layout e) (⟨B, o⟩ : File) =
      .ok (some (field e B o 4, field e B (o + 4) 4), ⟨B, o + 8⟩) := by
  simp only [fetch₂, run_bind, fetch_uint32 (show o + 4 ≤ B.length by omega), Except.bind,
    fetch_uint32 (show o + 4 + 4 ≤ B.length by omega), run_pure]
  rfl

theorem fetch₂_uint32_short (h : B.length < o + 8) :
    ∃ p, fetch₂ (uint32Layout e) (uint32Layout e) (⟨B, o⟩ : File) = .ok (none, ⟨B, p⟩) := by
  have hlast : (uint32Layout e).get B (o + min 4 (B.length - o)) = none :=
    get_uint32_short (by omega)
  simp only [fetch₂, run_bind, fetch_uint32_get, hlast, Except.bind, run_pure, Option.map_none,
    Option.bind_fun_none]
  exact ⟨_, rfl⟩

theorem fetch₃_uint32 (h : o + 12 ≤ B.length) :
    fetch₃ (uint32Layout e) (uint32Layout e) (uint32Layout e) (⟨B, o⟩ : File) =
      .ok (some (field e B o 4, field e B (o + 4) 4, field e B (o + 8) 4), ⟨B, o + 12⟩) := by
  simp only [fetch₃, run_bind, fetch_uint32 (show o + 4 ≤ B.length by omega), Except.bind,
    fetch_uint32 (show o + 4 + 4 ≤ B.length by omega),
    fetch_uint32 (show o + 4 + 4 + 4 ≤ B.length by omega), run_pure]
  rfl

theorem fetch₃_uint32_short (h : B.length < o + 12) :
    ∃ p, fetch₃ (uint32Layout e) (uint32Layout e) (uint32Layout e) (⟨B, o⟩ : File) =
      .ok (none, ⟨B, p⟩) := by
  have hlast : (uint32Layout e).get B (o + min 4 (B.length - o) +
      min 4 (B.length - (o + min 4 (B.length - o)))) = none := get_uint32_short (by omega)
  simp only [fetch₃, run_bind, fetch_uint32_get, hlast, Except.bind, run_pure, Option.map_none,
    Option.bind_fun_none]
  exact ⟨_, rfl⟩

end

end NiMedia
