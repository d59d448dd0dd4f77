/-
  The audio data of AIFF files, and the `SSND` chunk that they come from.

  The view of a source begins where the first `SSND` chunk says, and is as long
  as the last `COMM` chunk says; the length of the `SSND` chunk is not used.

  * `insideChunk_iff`: the view lies in the `SSND` chunk iff the frames that the
    `COMM` chunk counts fit into it behind the offset.
-/
import NiMedia.Audio.Frames
import NiMedia.Aiff.Accepted

namespace NiMedia.Aiff

open Bytes Simulation

/-- The bytes of a frame, in memory. -/
def Comm.bytesPerFrame (c : Comm) : ℕ := c.format.bitwidth.bits / 8 * c.numChannels

/-- The view lies in the payload of the chunk `tag` at offset `o`. -/
def insideChunk {δ : Type} (o : ℕ) (tag : Tag) (src : AiffSource δ) : Prop :=
  (o + 8 : ℕ) ≤ src.view.beg ∧ src.view.end_ ≤ (o + 8 + tag.length : ℕ)

theorem numBytes_eq_comm {info : AiffIfstreamInfo} (h : info.toIfstreamInfo.Sized) :
    info.numBytes = info.comm.numFrames * info.comm.bytesPerFrame := by
  rw [h.numBytes_eq, h.bytesPerFrame_eq]
  rfl

section
variable {P : Platform} {native : EndianType} {B : Content} {δ : Type} [ExactSource δ] {fuel : ℕ}
  {d : δ} {src : AiffSource δ}

/-- The view of a source begins where the header reader stops on a file. -/
theorem construct_of_file (hd : ByteSource.At B 0 d)
    (h : AiffSource.construct P native fuel d = some (.ok src)) :
    ∃ f, readAiffHeader P native fuel (⟨B.bytes, 0⟩ : File) = some (.ok (src.info, f)) ∧
      src.info.toIfstreamInfo.Sized ∧
      FramesAt B.bytes (ExactSource.land δ B.bytes f.pos) src.info.numBytes src.bytesPerFrame
        (ExactSource.land δ B.bytes f.pos) src := by
  obtain ⟨s₀, hread, hframes⟩ := construct_framesAt (B := B.bytes) h
  have hrel : Rel B (AiffSource.unread native d) ⟨B.bytes, 0⟩ := ⟨rfl, at_aiffSource hd⟩
  obtain ⟨f, hfile, hsought⟩ := rel_ok_left (readAiffHeader_sought P native fuel hrel) hread
  obtain ⟨-, hcomm, -⟩ := readAiffHeader_accepted hfile
  have hsized := sized_of_lastComm hcomm
  have hview := viewAt_sought hsought
  obtain ⟨p, e, -, -, -, hle, -, rfl⟩ := hsought
  refine ⟨_, hfile, hsized, hframes _ hview ?_ hsized⟩
  rcases ExactSource.land_eq (δ := δ) with hland | hland
  · rw [hland]
    exact hle
  · rw [hland]
    exact (min_le_left _ _).trans hle

/-- **What `aiff_source` makes of a device**: the frames of the last `COMM`
    chunk, from where the first `SSND` chunk leads. -/
theorem construct_accepted (hd : ByteSource.At B 0 d)
    (h : AiffSource.construct P native fuel d = some (.ok src)) :
    isForm B.bytes ∧ lastComm P native B.bytes src.info.comm ∧ src.info.toIfstreamInfo.Sized ∧
      ∃ o tag c, firstSoundData P native B.bytes o tag c ∧
        FramesAt B.bytes (ExactSource.land δ B.bytes (o + 16 + c.offset)) src.info.numBytes
          src.bytesPerFrame (ExactSource.land δ B.bytes (o + 16 + c.offset)) src := by
  obtain ⟨f, hfile, hsized, hframes⟩ := construct_of_file hd h
  obtain ⟨hform, hcomm, o, tag, c, hssnd, rfl⟩ := readAiffHeader_accepted hfile
  exact ⟨hform, hcomm, hsized, o, tag, c, hssnd, hframes⟩

/-- The view lies in the chunk iff its end does. -/
theorem insideChunk_iff_of_land (hd : ByteSource.At B 0 d)
    (h : AiffSource.construct P native fuel d = some (.ok src)) :
    ∃ o tag c x, firstSoundData P native B.bytes o tag c ∧ lastComm P native B.bytes x ∧
      (insideChunk o tag src ↔
        ExactSource.land δ B.bytes (o + 16 + c.offset) + x.numFrames * x.bytesPerFrame ≤
          o + 8 + tag.length) := by
  obtain ⟨-, hcomm, hsized, o, tag, c, hssnd, hframes⟩ := construct_accepted hd h
  refine ⟨o, tag, c, _, hssnd, hcomm, ?_⟩
  obtain ⟨n, -, -, -, hget, -⟩ := hssnd
  obtain ⟨hin, -, -⟩ := Layout.get_eq_some hget
  have h8 : SoundDataChunk.layout.size = 8 := rfl
  have hbeg : o + 16 ≤ ExactSource.land δ B.bytes (o + 16 + c.offset) := by
    rcases ExactSource.land_eq (δ := δ) with hland | hland
    · rw [hland]
      omega
    · rw [hland]
      omega
  rw [insideChunk, hframes.view.beg_eq, hframes.view.end_eq, ← numBytes_eq_comm hsized]
  omega

end

/-- **Audio data.**  Whatever bytes `aiff_source` is opened on: its view lies in
    the `SSND` chunk that has been found iff the frames of the `COMM` chunk fit
    into this chunk behind its offset.  Over a container the offset counts up to
    the end of the bytes. -/
theorem insideChunk_iff (P : Platform) (native : EndianType) (B : Content) (fuel : ℕ) :
    (∀ src, AiffSource.construct P native fuel (File.opened B.bytes) = some (.ok src) →
      ∃ o tag c x, firstSoundData P native B.bytes o tag c ∧ lastComm P native B.bytes x ∧
        (insideChunk o tag src ↔
          8 + c.offset + x.numFrames * x.bytesPerFrame ≤ tag.length)) ∧
    ∀ src, AiffSource.construct P native fuel (Container.mk' B.bytes) = some (.ok src) →
      ∃ o tag c x, firstSoundData P native B.bytes o tag c ∧ lastComm P native B.bytes x ∧
        (insideChunk o tag src ↔
          8 + min c.offset (B.bytes.length - (o + 16)) + x.numFrames * x.bytesPerFrame ≤
            tag.length) := by
  constructor
  · intro src h
    obtain ⟨o, tag, c, x, hssnd, hcomm, hiff⟩ := insideChunk_iff_of_land (at_opened B) h
    refine ⟨o, tag, c, x, hssnd, hcomm, hiff.trans ?_⟩
    have hland : ExactSource.land File B.bytes (o + 16 + c.offset) = o + 16 + c.offset := rfl
    rw [hland]
    omega
  · intro src h
    obtain ⟨o, tag, c, x, hssnd, hcomm, hiff⟩ := insideChunk_iff_of_land (at_container B) h
    refine ⟨o, tag, c, x, hssnd, hcomm, hiff.trans ?_⟩
    obtain ⟨n, -, -, -, hget, -⟩ := hssnd
    obtain ⟨hin, -, -⟩ := Layout.get_eq_some hget
    have h8 : SoundDataChunk.layout.size = 8 := rfl
    have hland : ExactSource.land Container B.bytes (o + 16 + c.offset) =
        min (o + 16 + c.offset) B.bytes.length := rfl
    rw [hland]
    omega

/-- Three frames of 8 bit mono, and the `SSND` chunk around them. -/
def threeFramesAiff : List UInt8 :=
  [0x46, 0x4F, 0x52, 0x4D, 0, 0, 0, 0x32, 0x41, 0x49, 0x46, 0x46,
   0x43, 0x4F, 0x4D, 0x4D, 0, 0, 0, 18, 0, 1, 0, 0, 0, 3, 0, 8,
   0x40, 0x0E, 0xAC, 0x44, 0, 0, 0, 0, 0, 0,
   0x53, 0x53, 0x4E, 0x44, 0, 0, 0, 11, 0, 0, 0, 0, 0, 0, 0, 0, 1, 2, 3, 0]

theorem threeFramesAiff_source :
    ∃ src, AiffSource.construct .powersOfTwo .littleEndian 4 (File.opened threeFramesAiff) =
      some (.ok src) ∧ (src.info.comm.numFrames, src.info.comm.bytesPerFrame) = (3, 1) :=
  exists_ok_of_map (by decide)

theorem threeFramesAiff_ssnd :
    firstSoundData .powersOfTwo .littleEndian threeFramesAiff 38 ⟨ssnd, 11⟩ ⟨0, 0⟩ := by
  refine ⟨1, by decide, by decide, rfl, by decide, fun m hm o tag ho htag => ?_⟩
  obtain rfl : m = 0 := by omega
  obtain rfl : 12 = o := Option.some.inj ho
  have hcomm : tagAt threeFramesAiff 12 = some ⟨comm, 18⟩ := by decide
  rw [hcomm] at htag
  cases htag
  decide

theorem insideChunk_iff_threeFrames :
    ∃ src, AiffSource.construct .powersOfTwo .littleEndian 4 (File.opened threeFramesAiff) =
      some (.ok src) ∧ insideChunk 38 ⟨ssnd, 11⟩ src := by
  obtain ⟨src, hsrc, hsizes⟩ := threeFramesAiff_source
  obtain ⟨hframes, hbytes⟩ := Prod.mk.inj hsizes
  obtain ⟨o, tag, c, x, hssnd, hcomm, hiff⟩ :=
    (insideChunk_iff .powersOfTwo .littleEndian ⟨threeFramesAiff, by decide⟩ 4).1 src hsrc
  obtain ⟨rfl, rfl, rfl⟩ := firstSoundData_unique hssnd threeFramesAiff_ssnd
  have hB : ByteSource.At ⟨threeFramesAiff, by decide⟩ 0 (File.opened threeFramesAiff) :=
    at_opened ⟨threeFramesAiff, by decide⟩
  obtain rfl := lastComm_unique hcomm (construct_accepted hB hsrc).2.1
  refine ⟨src, hsrc, hiff.2 ?_⟩
  rw [hframes, hbytes]
  decide

/-- Three frames of 8 bit mono, of which only one is in the `SSND` chunk. -/
def overlongAiff : List UInt8 :=
  [0x46, 0x4F, 0x52, 0x4D, 0, 0, 0, 0x38, 0x41, 0x49, 0x46, 0x46,
   0x43, 0x4F, 0x4D, 0x4D, 0, 0, 0, 18, 0, 1, 0, 0, 0, 3, 0, 8,
   0x40, 0x0E, 0xAC, 0x44, 0, 0, 0, 0, 0, 0,
   0x53, 0x53, 0x4E, 0x44, 0, 0, 0, 9, 0, 0, 0, 0, 0, 0, 0, 0, 1, 0,
   0x78, 0x78, 0x78, 0x78, 0, 0, 0, 0]

theorem overlongAiff_source :
    ∃ src, AiffSource.construct .powersOfTwo .littleEndian 4 (File.opened overlongAiff) =
      some (.ok src) ∧ src.view.end_ = 57 :=
  exists_ok_of_map (by decide)

theorem overlongAiff_ssnd :
    firstSoundData .powersOfTwo .littleEndian overlongAiff 38 ⟨ssnd, 9⟩ ⟨0, 0⟩ := by
  refine ⟨1, by decide, by decide, rfl, by decide, fun m hm o tag ho htag => ?_⟩
  obtain rfl : m = 0 := by omega
  obtain rfl : 12 = o := Option.some.inj ho
  have hcomm : tagAt overlongAiff 12 = some ⟨comm, 18⟩ := by decide
  rw [hcomm] at htag
  cases htag
  decide

/-- The view of the source goes on into the chunk behind it. -/
theorem overlongAiff_not_inside :
    ¬ ∀ src o tag c,
      AiffSource.construct .powersOfTwo .littleEndian 4 (File.opened overlongAiff) =
        some (.ok src) →
      firstSoundData .powersOfTwo .littleEndian overlongAiff o tag c → insideChunk o tag src := by
  intro h
  obtain ⟨src, hsrc, hend⟩ := overlongAiff_source
  have hinside := (h src 38 ⟨ssnd, 9⟩ ⟨0, 0⟩ hsrc overlongAiff_ssnd).2
  rw [hend] at hinside
  exact absurd hinside (by decide)

end NiMedia.Aiff
