/-
  The blocks of the FLAC source hold the samples that the decoder hands over.

  * `interleaved_read`: the bytes of a sample are read as its value, at the top
    of the word.
-/
import NiMedia.Flac.Interleave
import NiMedia.Pcm.Sample

namespace NiMedia

open Bytes Words

/-! ## Reading at a greater width -/

/-- A signed sample that is read at a width no less is moved up. -/
theorem toInt_read_signed (native : EndianType) (f : IntFormat) (V : IntType)
    (hf : f.1.number = .signedInteger) (hV : V.signed = true) (hw : f.1.bitwidth.bits ≤ V.bits)
    {bs : List UInt8} (hl : bs.length = f.1.bitwidth.numBytes) :
    V.toInt (read native V f bs) =
      (f.tag.sample bs).toInt * 2 ^ (V.bits - f.1.bitwidth.bits) := by
  have hw : f.tag.bits ≤ V.bits := hw
  have hsigned : f.tag.signed = true := decide_eq_true hf
  have hlevel : level V.signed (read native V f bs) =
      scale f.tag.bits V.bits (level f.tag.signed (f.tag.sample bs)) :=
    level_readImpl native V f.tag hl
  have hread := V.toInt_sub_min (read native V f bs)
  have hsample := toInt_add_two_pow f.tag.bits_pos (f.tag.sample bs)
  have hpow : (2 : ℤ) ^ (V.bits - 1) = 2 ^ (f.tag.bits - 1) * 2 ^ (V.bits - f.tag.bits) := by
    have hpos := f.tag.bits_pos
    rw [← pow_add]
    congr 1
    omega
  rw [hlevel, hsigned, scale, if_neg (by omega), level, if_pos rfl] at hread
  rw [IntType.min, hV, if_pos rfl, hpow] at hread
  push_cast at hread
  rw [← hsample] at hread
  show _ = (f.tag.sample bs).toInt * 2 ^ (V.bits - f.tag.bits)
  linarith

namespace Flac

/-! ## The bytes of a sample -/

theorem sampleByte_eq (x : BitVec 32) {b : ℕ} (hb : b < 4) :
    sampleByte x b = UInt8.ofNat (x.toNat / 256 ^ b) := by
  have hbits : x.sshiftRight (8 * b) &&& 0xFF#32 = (x >>> (8 * b)) &&& 0xFF#32 := by
    refine BitVec.eq_of_getLsbD_eq fun i hi => ?_
    rw [BitVec.getLsbD_and, BitVec.getLsbD_and, BitVec.getLsbD_sshiftRight,
      BitVec.getLsbD_ushiftRight]
    rcases Nat.lt_or_ge i 8 with hlow | hhigh
    · rw [if_pos (by omega)]
      simp [show ¬ 32 ≤ i by omega]
    · have hmask : (0xFF#32).getLsbD i = false := by
        rw [BitVec.getLsbD_ofNat, Nat.testBit_lt_two_pow, Bool.and_false]
        exact (show 255 < 2 ^ 8 by decide).trans_le (Nat.pow_le_pow_right (by decide) hhigh)
      rw [hmask, Bool.and_false, Bool.and_false]
  have hmod : ((x >>> (8 * b)) &&& 0xFF#32).toNat = x.toNat / 256 ^ b % 256 := by
    rw [BitVec.toNat_and, BitVec.toNat_ushiftRight, Nat.shiftRight_eq_div_pow, pow256]
    exact Nat.and_two_pow_sub_one_eq_mod _ 8
  rw [sampleByte, hbits, hmod]
  apply UInt8.toNat_inj.1
  simp

theorem sampleBytesOf_eq {info : Info} (h : info.bytesPerSample ≤ 4) (x : BitVec 32) :
    sampleBytesOf info x = leBytes info.bytesPerSample x.toNat := by
  rw [leBytes_eq_map, sampleBytesOf]
  refine List.map_congr_left fun b hb => sampleByte_eq x ?_
  have := List.mem_range.1 hb
  omega

/-- A word that has a value of `b` bits is this value on its low bits. -/
theorem toInt_low {b : ℕ} (hb : 0 < b) (hb' : b ≤ 32) (x : BitVec 32)
    (h0 : -2 ^ (b - 1) ≤ x.toInt) (h1 : x.toInt < 2 ^ (b - 1)) :
    (BitVec.ofNat b x.toNat).toInt = x.toInt := by
  have hdvd : 2 ^ b ∣ 2 ^ 32 := Nat.pow_dvd_pow 2 hb'
  have hx : x.toInt = (x.toNat : ℤ).bmod (2 ^ 32) := BitVec.toInt_eq_toNat_bmod x
  have hwrap : wrap b x.toInt = x.toInt := by
    obtain ⟨w, rfl⟩ := Nat.exists_eq_succ_of_ne_zero hb.ne'
    exact wrap_of_range h0 h1
  rw [BitVec.toInt_ofNat', ← hwrap, wrap, hx, Int.bmod_bmod_of_dvd hdvd]

/-! ## The blocks -/

/-- `int32_t`. -/
def int32 : IntType := ⟨true, .w32⟩

section
variable {m : StreamInfoBlock} {info : Info} {frame : Rows}

theorem FromStreamInfo.bytesPerSample_le (h : FromStreamInfo m info) : info.bytesPerSample ≤ 4 := by
  have hbits : info.bitsPerSample = m.bitsPerSample := h.bits
  have hle := h.bits_le
  have heq := info.bitsPerSample_eq
  omega

/-- The format that the samples are read with. -/
def FromStreamInfo.format (h : FromStreamInfo m info) : IntFormat := ⟨info.format, h.integer⟩

/-- The bytes of a sample are read as its value, at the top of a wide enough word. -/
theorem toInt_read_sampleBytesOf (native : EndianType) (h : FromStreamInfo m info) (V : IntType)
    (hV : V.signed = true) (hw : m.bitsPerSample ≤ V.bits) (x : BitVec 32)
    (h0 : -2 ^ (m.bitsPerSample - 1) ≤ x.toInt) (h1 : x.toInt < 2 ^ (m.bitsPerSample - 1)) :
    V.toInt (NiMedia.read native V h.format (sampleBytesOf info x)) =
      x.toInt * 2 ^ (V.bits - m.bitsPerSample) := by
  have hbits : h.format.tag.bits = m.bitsPerSample := h.bits
  have hlen : (sampleBytesOf info x).length = h.format.1.bitwidth.numBytes :=
    length_sampleBytesOf x
  have hnat : h.format.tag.1.endian.ofBytes (sampleBytesOf info x) =
      x.toNat % 2 ^ h.format.tag.bits := by
    have hendian : h.format.tag.1.endian = .littleEndian := h.endian
    rw [hendian, sampleBytesOf_eq h.bytesPerSample_le]
    exact (leNat_leBytes _ _).trans (congrArg _ (two_pow_bits _).symm)
  have hsample : h.format.tag.sample (sampleBytesOf info x) = BitVec.ofNat _ x.toNat := by
    apply BitVec.eq_of_toNat_eq
    rw [IntTag.toNat_sample hlen, hnat, BitVec.toNat_ofNat]
  rw [← hbits] at h0 h1
  have hle : h.format.tag.bits ≤ 32 := hbits.le.trans h.bits_le
  rw [toInt_read_signed native h.format V h.number hV (hbits.le.trans hw) hlen, hsample,
    toInt_low h.format.tag.bits_pos hle x h0 h1, ← hbits]
  rfl

/-- The bytes of a sample are read as its value. -/
theorem read_sampleBytesOf (native : EndianType) (h : FromStreamInfo m info) (x : BitVec 32)
    (h0 : -2 ^ (m.bitsPerSample - 1) ≤ x.toInt) (h1 : x.toInt < 2 ^ (m.bitsPerSample - 1)) :
    int32.toInt (NiMedia.read native int32 h.format (sampleBytesOf info x)) =
      x.toInt * 2 ^ (32 - m.bitsPerSample) :=
  toInt_read_sampleBytesOf native h int32 rfl h.bits_le x h0 h1

/-- Sample `u * C + c` of the block is sample `u` of channel `c`. -/
theorem sampleBytes_block {u c : ℕ} (hu : u < frame.blocksize) (hc : c < info.numChannels) :
    sampleBytes info.format.bitwidth
        ((List.range frame.blocksize).flatMap (frameBytes info frame)) (u * info.numChannels + c) =
      sampleBytesOf info (frame.at_ c u) := by
  have hsize : info.format.bitwidth.numBytes = info.bytesPerSample := rfl
  have hframe := slice_flatMap (g := frameBytes info frame) length_frameBytes
    (List.range frame.blocksize) u (by simpa using hu)
  have hsample := slice_flatMap (g := fun c => sampleBytesOf info (frame.at_ c u))
    (fun c => length_sampleBytesOf _) (List.range info.numChannels) c (by simpa using hc)
  rw [List.getElem_range] at hframe hsample
  have hfit : c * info.bytesPerSample + info.bytesPerSample ≤
      info.numChannels * info.bytesPerSample := by
    rw [← Nat.succ_mul]
    exact Nat.mul_le_mul_right _ hc
  have hpos : (u * info.numChannels + c) * info.bytesPerSample =
      u * (info.numChannels * info.bytesPerSample) + c * info.bytesPerSample := by ring
  rw [sampleBytes, hsize, hpos, ← slice_slice hfit, hframe]
  exact hsample

/-- **Blocks are lossless.**  After the write callback the buffer has the bytes
    of the block, and each sample is read as its value, at the top of the word. -/
theorem interleaved_read (native : EndianType) {audioBytes : ℕ}
    (hmeta : metadataCallbackImpl audioBytes m = .ok info) (hch : frame.channels = m.channels)
    (hfits : ∀ row ∈ frame.rows, ∀ x ∈ row,
      -2 ^ (m.bitsPerSample - 1) ≤ x.toInt ∧ x.toInt < 2 ^ (m.bitsPerSample - 1))
    {δ : Type} (s : Source δ) :
    ∃ s', writeCallback info frame s = some s' ∧
      s'.buffer.length = frame.blocksize * m.channels * (m.bitsPerSample / 8) ∧
      ∀ u < frame.blocksize, ∀ c < m.channels, ∃ x, frame.sample c u = some x ∧
        int32.toInt (NiMedia.read native int32 (metadataCallbackImpl_ok hmeta).format
          (sampleBytes info.format.bitwidth s'.buffer (u * m.channels + c))) =
          x.toInt * 2 ^ (32 - m.bitsPerSample) := by
  have hinfo := metadataCallbackImpl_ok hmeta
  have hsize : info.bytesPerSample = m.bitsPerSample / 8 := congrArg (· / 8) hinfo.bits
  refine ⟨_, writeCallback_interleaves (hinfo.numChannels.trans hch.symm).le s, ?_, ?_⟩
  · show ((List.range frame.blocksize).flatMap (frameBytes info frame)).length = _
    rw [length_flatMap_range _ fun _ _ => length_frameBytes _, hinfo.numChannels, hsize,
      Nat.mul_assoc]
  · intro u hu c hc
    have hcf : c < frame.channels := hc.trans_eq hch.symm
    have hx := Rows.sample_eq hcf hu
    refine ⟨frame.at_ c u, hx, ?_⟩
    obtain ⟨row, hrow, hget⟩ := Option.bind_eq_some_iff.1 hx
    obtain ⟨h0, h1⟩ := hfits row (List.mem_of_getElem? hrow) _ (List.mem_of_getElem? hget)
    show int32.toInt (NiMedia.read native int32 hinfo.format (sampleBytes info.format.bitwidth
      ((List.range frame.blocksize).flatMap (frameBytes info frame)) (u * m.channels + c))) = _
    rw [← hinfo.numChannels, sampleBytes_block hu (hc.trans_eq hinfo.numChannels.symm)]
    exact read_sampleBytesOf native hinfo _ h0 h1

end

/-- The stream info of `stereoInfo`. -/
def stereoBlock : StreamInfoBlock where
  minBlocksize := 2
  maxBlocksize := 2
  sampleRate := 44100
  channels := 2
  bitsPerSample := 24
  totalSamples := 2

/-- Two samples for each channel. -/
def stereoRows : Rows where
  blocksize := 2
  rows := [[1#32, 0xFFFFFFFF#32], [0xFF800000#32, 2#32]]
  rows_length := by decide
  blocksize_lt := by decide
  channels_pos := by decide
  channels_le := by decide

theorem stereoInfo_ok : metadataCallbackImpl 0 stereoBlock = .ok stereoInfo := rfl

theorem stereoRows_fits : ∀ row ∈ stereoRows.rows, ∀ x ∈ row,
    -2 ^ (stereoBlock.bitsPerSample - 1) ≤ x.toInt ∧
      x.toInt < 2 ^ (stereoBlock.bitsPerSample - 1) := by
  have hpow : (2 : ℤ) ^ (stereoBlock.bitsPerSample - 1) = 8388608 := by norm_num [stereoBlock]
  rw [hpow]
  simp [stereoRows]

theorem interleaved_read_stereo : ∃ s', writeCallback stereoInfo stereoRows (opened ()) = some s' ∧
    s'.buffer.length = 2 * 2 * (24 / 8) ∧ ∀ u < 2, ∀ c < 2, ∃ x, stereoRows.sample c u = some x ∧
      int32.toInt (NiMedia.read .littleEndian int32 (metadataCallbackImpl_ok stereoInfo_ok).format
        (sampleBytes stereoInfo.format.bitwidth s'.buffer (u * 2 + c))) = x.toInt * 2 ^ (32 - 24) :=
  interleaved_read .littleEndian stereoInfo_ok rfl stereoRows_fits (opened ())

end Flac

end NiMedia
