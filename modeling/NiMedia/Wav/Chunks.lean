/-
  The chunks of WAV files (`wav/wav_chunks.h`, `wav/wav_format.h`,
  `wav/wav_specific_info.h`).

  The structures of the source are read and written as they lie in memory, so
  that their layouts depend on the byte order of the host.
-/
import NiMedia.Audio.Layout

namespace NiMedia.Wav

open Bytes

/-- `RiffTag`. -/
structure RiffTag where
  id : ℕ
  length : ℕ
  deriving DecidableEq, Repr

def riff : ℕ := littleEndianFourcc 'R' 'I' 'F' 'F'
def wave : ℕ := littleEndianFourcc 'W' 'A' 'V' 'E'
def fmt : ℕ := littleEndianFourcc 'f' 'm' 't' ' '
def data : ℕ := littleEndianFourcc 'd' 'a' 't' 'a'
def smpl : ℕ := littleEndianFourcc 's' 'm' 'p' 'l'
def inst : ℕ := littleEndianFourcc 'i' 'n' 's' 't'

structure FmtChunk where
  formatTag : ℕ
  numChannels : ℕ
  sampleRate : ℕ
  avgBytesPerSec : ℕ
  blockAlign : ℕ
  bitsPerSample : ℕ
  deriving DecidableEq, Repr

/-- `wav::SampleLoop` and `wav_specific_info::SampleLoop`, whose key in the map
    is the identifier. -/
structure SampleLoop where
  type : ℤ
  start : ℤ
  end_ : ℤ
  fraction : ℤ
  playCount : ℤ
  deriving DecidableEq, Repr

structure SampleChunk where
  manufacturer : ℤ
  product : ℤ
  samplePeriod : ℤ
  midiUnityNote : ℤ
  midiPitchFraction : ℤ
  smpteFormat : ℤ
  smpteOffset : ℤ
  sampleLoops : ℤ
  samplerData : ℤ
  deriving DecidableEq, Repr

structure InstrumentChunk where
  rootNote : ℕ
  fineTune : ℤ
  gain : ℤ
  lowNote : ℕ
  highNote : ℕ
  lowVelocity : ℕ
  highVelocity : ℕ
  deriving DecidableEq, Repr

structure FormatExtensible where
  validBitsPerSample : ℕ
  channelMask : ℕ
  subFormat : List UInt8
  deriving DecidableEq

section
variable (native : EndianType)

def FmtChunk.layout : Layout FmtChunk where
  size := 16
  size_pos := by decide
  decode bs :=
    { formatTag := field native bs 0 2
      numChannels := field native bs 2 2
      sampleRate := field native bs 4 4
      avgBytesPerSec := field native bs 8 4
      blockAlign := field native bs 12 2
      bitsPerSample := field native bs 14 2 }

/-- The identifier, and the loop itself. -/
def SampleLoop.layout : Layout (ℤ × SampleLoop) where
  size := 24
  size_pos := by decide
  decode bs :=
    (signedField native bs 0 4,
      { type := signedField native bs 4 4
        start := signedField native bs 8 4
        end_ := signedField native bs 12 4
        fraction := signedField native bs 16 4
        playCount := signedField native bs 20 4 })

def SampleChunk.layout : Layout SampleChunk where
  size := 36
  size_pos := by decide
  decode bs :=
    { manufacturer := signedField native bs 0 4
      product := signedField native bs 4 4
      samplePeriod := signedField native bs 8 4
      midiUnityNote := signedField native bs 12 4
      midiPitchFraction := signedField native bs 16 4
      smpteFormat := signedField native bs 20 4
      smpteOffset := signedField native bs 24 4
      sampleLoops := signedField native bs 28 4
      samplerData := signedField native bs 32 4 }

def InstrumentChunk.layout : Layout InstrumentChunk where
  size := 7
  size_pos := by decide
  decode bs :=
    { rootNote := field native bs 0 1
      fineTune := signedField native bs 1 1
      gain := signedField native bs 2 1
      lowNote := field native bs 3 1
      highNote := field native bs 4 1
      lowVelocity := field native bs 5 1
      highVelocity := field native bs 6 1 }

def FormatExtensible.layout : Layout FormatExtensible where
  size := 22
  size_pos := by decide
  decode bs :=
    { validBitsPerSample := field native bs 0 2
      channelMask := field native bs 2 4
      subFormat := slice bs 6 16 }

end

/-! ## Format tags -/

def wavFormatTagPcm : ℕ := 0x0001
def wavFormatTagIeeeFloat : ℕ := 0x0003
def wavFormatTagALaw : ℕ := 0x0006
def wavFormatTagMuLaw : ℕ := 0x0007
def wavFormatTagExtensible : ℕ := 0xfffe

def wavFormatExtSubFormatPCM : List UInt8 :=
  [0x01, 0x00, 0x00, 0x00, 0x00, 0x00, 0x10, 0x00, 0x80, 0x00, 0x00, 0xaa, 0x00, 0x38, 0x9b, 0x71]

def wavFormatExtSubFormatFloat : List UInt8 :=
  [0x03, 0x00, 0x00, 0x00, 0x00, 0x00, 0x10, 0x00, 0x80, 0x00, 0x00, 0xaa, 0x00, 0x38, 0x9b, 0x71]

end NiMedia.Wav
