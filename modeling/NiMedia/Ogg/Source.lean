/-
  The Ogg Vorbis source (`audio/ogg/ogg_source.h`).

  libvorbisfile is a parameter: a `Decoder` is the calls that the source makes
  on an open file, and the decoded bytes that are to come.
-/
import NiMedia.Audio.StreamInfo
import NiMedia.Iostreams.Device

namespace NiMedia

open Words

namespace Ogg

/-! ## The decoder -/

/-- What `ov_read` returns: a count, with the bytes in the buffer, or a code. -/
inductive Ret where
  | bytes (bs : List UInt8)
  | code (c : ℤ)
  deriving DecidableEq

/-- `OV_HOLE`. -/
def ovHole : ℤ := -3

/-- The calls into libvorbisfile.  A request of a positive length brings some of
    the bytes to come, or meets a hole, or the end; any other one brings none. -/
structure Decoder (δ : Type) where
  ovRead : ℤ → δ → Ret × δ
  ovPcmSeek : ℤ → δ → ℤ × δ
  /-- The decoded bytes that are to come. -/
  toCome : δ → List UInt8
  read_bytes : ∀ {n d bs d'}, ovRead n d = (.bytes bs, d') →
    bs ≠ [] ∧ (bs.length : ℤ) ≤ n ∧ toCome d = bs ++ toCome d'
  read_code : ∀ {n d c d'}, ovRead n d = (.code c, d') → c ≤ 0 ∧ toCome d' = toCome d ∧
    (0 < n → c = ovHole ∨ c = 0 ∧ toCome d = [])

/-! ## The source -/

/-- The stream info that `readInfo` lets through. -/
structure Info extends StreamInfo where
  numFrames : ℕ
  numFrames_pos : 1 ≤ numFrames
  numChannels_pos : 1 ≤ numChannels
  numChannels_le : numChannels ≤ 255
  format_eq : format.number = .signedInteger ∧ format.bitwidth = ._16bit ∧
    format.endian = .littleEndian

def Info.numBytes (info : Info) : ℕ :=
  sizeT (sizeT (info.numFrames * info.numChannels) * info.bytesPerSample)

/-- `ogg_source`; `pos` is `m_pos`. -/
structure Source (δ : Type) where
  vorbisFile : Option δ
  pos : ℤ

def opened {δ : Type} (d : δ) : Source δ := ⟨some d, 0⟩

section
variable {δ : Type} (D : Decoder δ)

/-- What is asked for at a time. -/
def request (requested : ℤ) : ℤ := if 4096 ≤ requested then 4096 else requested

theorem request_le (requested : ℤ) : request requested ≤ requested := by
  unfold request
  split_ifs <;> omega

theorem request_pos {requested : ℤ} : 0 < request requested ↔ 0 < requested := by
  unfold request
  split_ifs <;> omega

theorem Decoder.read_decreases {requested : ℤ} {d d' : δ} {bs : List UInt8}
    (h : D.ovRead (request requested) d = (.bytes bs, d')) :
    (requested - bs.length).toNat < requested.toNat := by
  obtain ⟨hne, hle, -⟩ := D.read_bytes h
  have hpos := List.length_pos_iff.2 hne
  have hreq := request_le requested
  omega

/-- The loop of `read`; `out` is what was delivered before. -/
def readLoop (requested : ℤ) (out : List UInt8) (d : δ) : List UInt8 × δ :=
  match _h : D.ovRead (request requested) d with
  | (.bytes bs, d') => readLoop (requested - bs.length) (out ++ bs) d'
  | (.code _, d') => (out, d')
termination_by requested.toNat
decreasing_by exact D.read_decreases _h

/-- `read`; the size is cast to `int`. -/
def read (size : ℕ) (s : Source δ) : List UInt8 × Source δ :=
  match s.vorbisFile with
  | none => ([], s)
  | some d =>
    let delivered := readLoop D (wrap 32 size) [] d
    (delivered.1, {
      vorbisFile := some delivered.2
      pos := wrap 64 (s.pos + delivered.1.length) })

/-- `seek`; without a file it throws. -/
def seek (info : Info) (off : ℤ) (way : SeekDir) (s : Source δ) : Option (ℤ × Source δ) :=
  match s.vorbisFile with
  | none => none
  | some d =>
    let pos := absolutePosition s.pos 0 info.numBytes off way
    let (ret, d) := D.ovPcmSeek (pos / info.bytesPerFrame) d
    let s := { s with vorbisFile := some d }
    if ret = 0 then some (pos, { s with pos := pos }) else some (s.pos, s)

end

end Ogg

end NiMedia
