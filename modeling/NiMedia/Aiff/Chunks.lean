/-
  The chunks of AIFF files (`aiff/aiff_chunks.h`, `aiff/aiff_specific_info.h`).
  All integers are big-endian.
-/
import NiMedia.Audio.Layout

namespace NiMedia.Aiff

open Bytes

/-! ## Tags -/

def aifc : ℕ := bigEndianFourcc 'A' 'I' 'F' 'C'
def aiff : ℕ := bigEndianFourcc 'A' 'I' 'F' 'F'
def form : ℕ := bigEndianFourcc 'F' 'O' 'R' 'M'
def comm : ℕ := bigEndianFourcc 'C' 'O' 'M' 'M'
def mark : ℕ := bigEndianFourcc 'M' 'A' 'R' 'K'
def inst : ℕ := bigEndianFourcc 'I' 'N' 'S' 'T'
def ssnd : ℕ := bigEndianFourcc 'S' 'S' 'N' 'D'
def none_ : ℕ := bigEndianFourcc 'N' 'O' 'N' 'E'
def raw : ℕ := bigEndianFourcc 'r' 'a' 'w' ' '
def twos : ℕ := bigEndianFourcc 't' 'w' 'o' 's'
def sowt : ℕ := bigEndianFourcc 's' 'o' 'w' 't'
def fl32 : ℕ := bigEndianFourcc 'f' 'l' '3' '2'
def FL32 : ℕ := bigEndianFourcc 'F' 'L' '3' '2'
def fl64 : ℕ := bigEndianFourcc 'f' 'l' '6' '4'
def FL64 : ℕ := bigEndianFourcc 'F' 'L' '6' '4'
def in24 : ℕ := bigEndianFourcc 'i' 'n' '2' '4'
def in32 : ℕ := bigEndianFourcc 'i' 'n' '3' '2'

/-! ## Chunks -/

/-- `Tag`, without its sub-type. -/
structure Tag where
  id : ℕ
  length : ℕ
  deriving DecidableEq, Repr

structure CommonChunk where
  numChannels : ℕ
  numSampleFrames : ℕ
  sampleSize : ℕ
  extSampleRate : List UInt8
  deriving DecidableEq

structure Marker where
  id : ℤ
  position : ℕ
  deriving DecidableEq, Repr

/-- `aiff::Loop` and `aiff_specific_info::Loop`. -/
structure MarkerLoop where
  playMode : ℤ
  markerIDBeginLoop : ℤ
  markerIDEndLoop : ℤ
  deriving DecidableEq, Repr

/-- `aiff::InstrumentChunk` and `aiff_specific_info::InstrumentChunk`. -/
structure InstrumentChunk where
  rootNote : ℕ
  detune : ℕ
  lowNote : ℕ
  highNote : ℕ
  lowVelocity : ℕ
  highVelocity : ℕ
  gain : ℤ
  sustainLoop : MarkerLoop
  releaseLoop : MarkerLoop
  deriving DecidableEq, Repr

structure SoundDataChunk where
  offset : ℕ
  blockSize : ℕ
  deriving DecidableEq, Repr

/-- `big_uint8_t`, `big_uint16_t` and `big_uint32_t`. -/
def bigUint8 : Layout ℕ := uint8Layout .bigEndian
def bigUint16 : Layout ℕ := uint16Layout .bigEndian
def bigUint32 : Layout ℕ := uint32Layout .bigEndian

def CommonChunk.layout : Layout CommonChunk where
  size := 18
  size_pos := by decide
  decode bs :=
    { numChannels := field .bigEndian bs 0 2
      numSampleFrames := field .bigEndian bs 2 4
      sampleSize := field .bigEndian bs 6 2
      extSampleRate := slice bs 8 10 }

def Marker.layout : Layout Marker where
  size := 6
  size_pos := by decide
  decode bs :=
    { id := signedField .bigEndian bs 0 2
      position := field .bigEndian bs 2 4 }

/-- The loop at offset `o`. -/
def MarkerLoop.decode (bs : List UInt8) (o : ℕ) : MarkerLoop where
  playMode := signedField .bigEndian bs o 2
  markerIDBeginLoop := signedField .bigEndian bs (o + 2) 2
  markerIDEndLoop := signedField .bigEndian bs (o + 4) 2

def InstrumentChunk.layout : Layout InstrumentChunk where
  size := 20
  size_pos := by decide
  decode bs :=
    { rootNote := field .bigEndian bs 0 1
      detune := field .bigEndian bs 1 1
      lowNote := field .bigEndian bs 2 1
      highNote := field .bigEndian bs 3 1
      lowVelocity := field .bigEndian bs 4 1
      highVelocity := field .bigEndian bs 5 1
      gain := signedField .bigEndian bs 6 2
      sustainLoop := MarkerLoop.decode bs 8
      releaseLoop := MarkerLoop.decode bs 14 }

def SoundDataChunk.layout : Layout SoundDataChunk where
  size := 8
  size_pos := by decide
  decode bs :=
    { offset := field .bigEndian bs 0 4
      blockSize := field .bigEndian bs 4 4 }

end NiMedia.Aiff
