/-
  Stream infos (`audio/stream_info.h`, `ifstream_info.h`, `ofstream_info.h`).
  Sizes are `size_t`, of 64 bits; products of sizes wrap around.
-/
import NiMedia.Pcm.Format
import Mathlib.Tactic.Ring

namespace NiMedia

/-- The value of a product in `size_t`. -/
def sizeT (n : ℕ) : ℕ := n % 2 ^ 64

theorem sizeT_of_lt {n : ℕ} (h : n < 2 ^ 64) : sizeT n = n := Nat.mod_eq_of_lt h

theorem sizeT_mul_mul {a b c : ℕ} (hc : 0 < c) (h : a * b * c < 2 ^ 64) :
    sizeT (sizeT (a * b) * c) = a * b * c := by
  have hle : a * b ≤ a * b * c := Nat.le_mul_of_pos_right _ hc
  rw [sizeT_of_lt (n := a * b) (by omega), sizeT_of_lt h]

/-- `audio::stream_info`. -/
structure StreamInfo where
  sampleRate : ℕ := 44100
  numChannels : ℕ := 1
  bitRate : ℕ := 0
  format : RuntimeFormat
  deriving DecidableEq

namespace StreamInfo

variable (info : StreamInfo)

def bitsPerSample : ℕ := info.format.bitwidth.bits

def bytesPerSample : ℕ := info.bitsPerSample / 8

def bytesPerFrame : ℕ := sizeT (info.bytesPerSample * info.numChannels)

theorem bytesPerSample_pos : 0 < info.bytesPerSample := info.format.bitwidth.numBytes_pos

theorem bytesPerSample_le : info.bytesPerSample ≤ 8 := info.format.bitwidth.numBytes_le

theorem bitsPerSample_eq : info.bitsPerSample = 8 * info.bytesPerSample :=
  info.format.bitwidth.bits_eq

theorem bitsPerSample_lt : info.bitsPerSample < 2 ^ 16 := by
  have hle := info.bytesPerSample_le
  rw [info.bitsPerSample_eq]
  omega

theorem bytesPerFrame_of_le (h : info.numChannels ≤ 2 ^ 60) :
    info.bytesPerFrame = info.bytesPerSample * info.numChannels := by
  refine sizeT_of_lt ?_
  have := Nat.mul_le_mul info.bytesPerSample_le h
  omega

end StreamInfo

/-- `fstream_info::container_type` and `codec_type` of the formats at hand. -/
inductive ContainerType where
  | aiff
  | wav
  deriving DecidableEq, Repr

/-- `audio::ifstream_info`. -/
structure IfstreamInfo extends StreamInfo where
  numFrames : ℕ := 0
  lossless : Bool := true
  container : ContainerType
  codec : ContainerType
  deriving DecidableEq

namespace IfstreamInfo

variable (info : IfstreamInfo)

def numSamples : ℕ := sizeT (info.numFrames * info.numChannels)

def numBytes : ℕ := sizeT (info.numSamples * info.bytesPerSample)

theorem numBytes_of_lt (h : info.numFrames * info.bytesPerFrame < 2 ^ 64)
    (hc : info.numChannels ≤ 2 ^ 60) : info.numBytes = info.numFrames * info.bytesPerFrame := by
  rw [info.bytesPerFrame_of_le hc] at h ⊢
  have hcomm : info.numFrames * info.numChannels * info.bytesPerSample =
      info.numFrames * (info.bytesPerSample * info.numChannels) := by ring
  rw [← hcomm] at h ⊢
  exact sizeT_mul_mul info.bytesPerSample_pos h

/-- Whole frames are all of the bytes. -/
theorem numBytes_of_dvd {n : ℕ} (hframes : info.numFrames = n / info.bytesPerFrame)
    (h : info.bytesPerFrame ∣ n) (hn : n < 2 ^ 64) (hc : info.numChannels ≤ 2 ^ 60) :
    info.numBytes = n := by
  have hall : info.numFrames * info.bytesPerFrame = n := by rw [hframes, Nat.div_mul_cancel h]
  rw [info.numBytes_of_lt (by rw [hall]; exact hn) hc, hall]

/-- The sizes that the header readers let through. -/
structure Sized : Prop where
  numChannels_pos : 1 ≤ info.numChannels
  numChannels_le : info.numChannels ≤ 255
  numFrames_pos : 1 ≤ info.numFrames
  numFrames_lt : info.numFrames < 2 ^ 32

variable {info}

theorem Sized.bytesPerFrame_eq (h : info.Sized) :
    info.bytesPerFrame = info.bytesPerSample * info.numChannels :=
  info.bytesPerFrame_of_le (h.numChannels_le.trans (by decide))

theorem Sized.frames_lt (h : info.Sized) : info.numFrames * info.bytesPerFrame < 2 ^ 43 := by
  have hframe : info.bytesPerFrame ≤ 8 * 255 := by
    rw [h.bytesPerFrame_eq]
    exact Nat.mul_le_mul info.bytesPerSample_le h.numChannels_le
  have hmul := Nat.mul_le_mul h.numFrames_lt.le hframe
  omega

theorem Sized.numBytes_eq (h : info.Sized) :
    info.numBytes = info.numFrames * info.bytesPerFrame :=
  info.numBytes_of_lt (h.frames_lt.trans (by decide)) (h.numChannels_le.trans (by decide))

theorem Sized.numBytes_lt (h : info.Sized) : info.numBytes < 2 ^ 43 := by
  rw [h.numBytes_eq]
  exact h.frames_lt

end IfstreamInfo

end NiMedia
