/-
  Writing AIFF files (`aiff/aiff_sink.h`).

  The sink writes the header of an AIFC file with three numbers left open,
  narrows its view to what follows it, and fills in the numbers when it is
  closed.  Of the info it looks at the format, the number of channels and the
  sample rate.

  * `closedAiff_eq`: the file that results from any sequence of writes.
-/
import NiMedia.Audio.Header
import NiMedia.Audio.Ieee80
import NiMedia.Aiff.Chunks

namespace NiMedia.Aiff

open Bytes Simulation

/-- The positions that `aiff_sink` remembers, and the size of the header. -/
structure Offsets where
  fileSize : ℤ
  numFrames : ℤ
  ssndSize : ℤ
  headerSize : ℕ
  deriving DecidableEq

/-! ## The sink -/

/-- `format_to_tag`. -/
def formatToTag (fmt : RuntimeFormat) : Option ℕ :=
  match fmt.number with
  | .signedInteger =>
    if fmt.bitwidth = ._8bit ∨ fmt.bitwidth = ._16bit ∨ fmt.bitwidth = ._24bit ∨
        fmt.bitwidth = ._32bit then
      if fmt.endian = .littleEndian then some sowt else some none_
    else none
  | .unsignedInteger => if fmt.bitwidth = ._8bit then some raw else none
  | .floatingPoint =>
    if fmt.bitwidth = ._32bit then some fl32
    else if fmt.bitwidth = ._64bit then some fl64
    else none

/-- The bytes of a `big_uint16_t` and of a `big_uint32_t`. -/
def big16 (n : ℕ) : List UInt8 := EndianType.bigEndian.toBytes 2 n
def big32 (n : ℕ) : List UInt8 := EndianType.bigEndian.toBytes 4 n

@[simp] theorem length_big16 (n : ℕ) : (big16 n).length = 2 := EndianType.length_toBytes _ _ _
@[simp] theorem length_big32 (n : ℕ) : (big32 n).length = 4 := EndianType.length_toBytes _ _ _

section
variable (P : Platform) (native : EndianType) (info : StreamInfo)

/-- `static_cast<uint_least16_t>( sink.info().num_channels() )`. -/
def numChannels : ℕ := info.numChannels % 2 ^ 16

/-- The bytes of the frames, as `close_aiff` counts them. -/
def frameSize : ℕ := sizeT (info.numChannels * info.bitsPerSample) / 8

section
variable {δ : Type} [Sink δ]

def writeAiffHeader : Io (Subview δ) Offsets := do
  let _ ← writeObj (big32 form)
  let fileSizeOffset ← tell
  let _ ← writeObj (big32 0)
  let _ ← writeObj (big32 aifc)
  let _ ← writeObj (big32 comm)
  let _ ← writeObj (big32 22)
  let _ ← writeObj (big16 (numChannels info))
  let numFramesOffset ← tell
  let _ ← writeObj (big32 0)
  let _ ← writeObj (big16 info.bitsPerSample)
  let extSampleRateBuffer ← liftM (doubleToIeee80 P (.ofNat info.sampleRate))
  let _ ← writeObj extSampleRateBuffer
  match formatToTag info.format with
  | none => raise "Invalid format"
  | some tag =>
    let _ ← writeObj (big32 tag)
    let _ ← writeObj (big32 ssnd)
    let ssndSizeOffset ← tell
    let _ ← writeObj (big32 0)
    let _ ← writeObj (big32 0 ++ big32 0)
    let headerSize := uint32 (← tell)
    pure ⟨fileSizeOffset, numFramesOffset, ssndSizeOffset, headerSize⟩

/-- Frames of zero bytes are not for this definition: the division that counts
    them is by zero, and the sizes behind it are not patched. -/
def closeAiff (o : Offsets) : Io (Subview δ) Unit := do
  let fileSize := uint32 (← tell)
  let _ ← seek o.fileSize .beg
  let _ ← writeObj (big32 (uint32 (fileSize - 8)))
  let _ ← seek o.numFrames .beg
  let samples := uint32 ((uint32 (fileSize - o.headerSize) / frameSize info : ℕ) : ℤ)
  let _ ← writeObj (big32 samples)
  let _ ← seek o.ssndSize .beg
  let _ ← writeObj (big32 (uint32 (fileSize - o.headerSize + 8)))
  pure ()

end

/-- `aiff_sink`. -/
abbrev AiffSink (δ : Type) := HeaderSink Offsets δ

namespace AiffSink

variable {δ : Type} [Sink δ]

/-- The constructor. -/
def construct (device : δ) : Except RuntimeError (AiffSink δ) :=
  if info.numChannels = 0 then throw ⟨"Invalid ofstream_info, num_channels == 0"⟩
  else HeaderSink.construct (writeAiffHeader P info) info device

def close (s : AiffSink δ) : Except RuntimeError (AiffSink δ) :=
  HeaderSink.close (fun info => closeAiff info) native s

end AiffSink

/-- The constructor does not throw, on a new file. -/
def accepted : Prop := ∃ s, AiffSink.construct P info (File.opened []) = .ok s

/-- The file that is left when the blocks `ws` have been written to a sink on a
    new file, and the sink has been closed. -/
def closedAiff (ws : List (List UInt8)) : Except RuntimeError (List UInt8) := do
  let s ← AiffSink.construct P info (File.opened [])
  let s ← AiffSink.close native (s.writeAll ws)
  pure s.view.device.bytes

end

/-! ## The file -/

/-- What the sink makes of an info: the tag of the format, and the sample rate. -/
structure HeaderData (P : Platform) (info : StreamInfo) where
  tag : ℕ
  rate : List UInt8
  tag_eq : formatToTag info.format = some tag
  rate_eq : doubleToIeee80 P (.ofNat info.sampleRate) = .ok rate

section
variable {P : Platform} {native : EndianType} {info : StreamInfo}

theorem HeaderData.length_rate (d : HeaderData P info) : d.rate.length = 10 :=
  length_doubleToIeee80 d.rate_eq

/-- The header. -/
def aiffHeader (d : HeaderData P info) (fileSize numFrames ssndSize : ℕ) : List UInt8 :=
  big32 form ++ (big32 fileSize ++ (big32 aifc ++ (big32 comm ++ (big32 22 ++
    (big16 (numChannels info) ++ (big32 numFrames ++ (big16 info.bitsPerSample ++ (d.rate ++
    (big32 d.tag ++ (big32 ssnd ++ (big32 ssndSize ++ (big32 0 ++ big32 0))))))))))))

/-- The file of a sink that has been closed with the cursor at `p`. -/
def closedAt (d : HeaderData P info) (D : List UInt8) (p : ℕ) : List UInt8 :=
  aiffHeader d (uint32 (uint32 p - 8))
    (uint32 ((uint32 (uint32 p - (58 : ℕ)) / frameSize info : ℕ) : ℤ))
    (uint32 (uint32 p - (58 : ℕ) + 8)) ++ D

/-- The file for the data `D`. -/
def aiffFile (d : HeaderData P info) (D : List UInt8) : List UInt8 :=
  aiffHeader d (uint32 (uint32 (58 + D.length) - 8)) (D.length % 2 ^ 32 / frameSize info % 2 ^ 32)
    ((D.length + 8) % 2 ^ 32) ++ D

@[simp] theorem length_aiffHeader (d : HeaderData P info) (a b c : ℕ) :
    (aiffHeader d a b c).length = 58 := by
  simp [aiffHeader, d.length_rate]

/-- What is written before any data. -/
theorem appends_writeAiffHeader (d : HeaderData P info) :
    Appends (writeAiffHeader P info) 0 (aiffHeader d 0 0 0) ⟨4, 22, 46, 58⟩ := by
  unfold writeAiffHeader aiffHeader
  refine .bind_writeObj (.bind_tell ?_)
  iterate 5 refine .bind_writeObj ?_
  refine .bind_tell ?_
  iterate 2 refine .bind_writeObj ?_
  refine .bind_liftM d.rate_eq (.bind_writeObj ?_)
  rw [d.tag_eq]
  iterate 2 refine .bind_writeObj ?_
  refine .bind_tell (.bind_writeObj (.bind_writeObj_last (.bind_tell (.pure_eq ?_))))
  simp only [List.length_append, length_big16, length_big32, d.length_rate]
  rfl

theorem construct_opened (d : HeaderData P info) (hch : info.numChannels ≠ 0) :
    AiffSink.construct P info (File.opened []) =
      .ok ⟨fileView (aiffHeader d 0 0 0) 58 58, info, ⟨4, 22, 46, 58⟩⟩ := by
  rw [AiffSink.construct, if_neg hch]
  have h := HeaderSink.construct_opened info (appends_writeAiffHeader d)
    (by rw [length_aiffHeader]; decide)
  rwa [length_aiffHeader] at h

/-- The writer of the header throws unless it has the data for it. -/
theorem headerData_of_write {δ : Type} [Sink δ] {view : Subview δ} {x : Offsets × Subview δ}
    (h : writeAiffHeader P info view = .ok x) : Nonempty (HeaderData P info) := by
  unfold writeAiffHeader at h
  iterate 10 obtain ⟨⟨_, _⟩, -, h⟩ := run_bind_ok h
  obtain ⟨⟨rate, view⟩, hrate, h⟩ := run_bind_ok h
  rw [run_liftM] at hrate
  obtain ⟨⟨_, _⟩, -, h⟩ := run_bind_ok h
  cases hr : doubleToIeee80 P (.ofNat info.sampleRate) with
  | error e => rw [hr] at hrate; cases hrate
  | ok rate =>
    cases ht : formatToTag info.format with
    | none => rw [ht] at h; cases h
    | some tag => exact ⟨⟨tag, rate, ht, hr⟩⟩

/-- **What the constructor accepts.** -/
theorem accepted_iff :
    accepted P info ↔ info.numChannels ≠ 0 ∧ Nonempty (HeaderData P info) := by
  constructor
  · rintro ⟨s, hs⟩
    unfold AiffSink.construct at hs
    split_ifs at hs with hch
    refine ⟨hch, ?_⟩
    unfold HeaderSink.construct at hs
    cases hx : writeAiffHeader P info { device := File.opened [] } with
    | error e => rw [hx] at hs; cases hs
    | ok x => exact headerData_of_write hx
  · rintro ⟨hch, ⟨d⟩⟩
    exact ⟨_, construct_opened d hch⟩

/-- The header, split at the three numbers. -/
theorem aiffHeader_split (d : HeaderData P info) (D : List UInt8) :
    ∃ mid mid', (∀ a b c, aiffHeader d a b c ++ D =
      big32 form ++ (big32 a ++ (mid ++ (big32 b ++ (mid' ++ (big32 c ++
        (big32 0 ++ big32 0 ++ D))))))) ∧ mid.length = 14 ∧ mid'.length = 20 := by
  refine ⟨big32 aifc ++ (big32 comm ++ (big32 22 ++ big16 (numChannels info))),
    big16 info.bitsPerSample ++ (d.rate ++ (big32 d.tag ++ big32 ssnd)), fun a b c => ?_, by simp,
    by simp [d.length_rate]⟩
  simp only [aiffHeader, List.append_assoc]

theorem uint32_natCast (n : ℕ) : uint32 (n : ℤ) = n % 2 ^ 32 := by
  unfold uint32
  omega

theorem aiffFile_eq (d : HeaderData P info) (D : List UInt8) :
    aiffFile d D = closedAt d D (58 + D.length) := by
  have hdata : uint32 ((((58 + D.length) % 2 ^ 32 : ℕ) : ℤ) - (58 : ℕ)) = D.length % 2 ^ 32 := by
    unfold uint32; omega
  have hssnd : uint32 ((((58 + D.length) % 2 ^ 32 : ℕ) : ℤ) - (58 : ℕ) + 8) =
      (D.length + 8) % 2 ^ 32 := by
    unfold uint32; omega
  have hfile : uint32 (58 + (D.length : ℤ)) = (58 + D.length) % 2 ^ 32 := by
    unfold uint32; omega
  rw [aiffFile, closedAt, uint32_natCast (58 + D.length), hdata, hssnd, uint32_natCast, hfile]

/-- Closing fills in what the position of the cursor makes of the numbers. -/
theorem closeAiff_aiffHeader (d : HeaderData P info) (D : List UInt8) {p : ℕ}
    (hp : (p : ℤ) ≤ maxPos) (hmax : 58 + D.length < 2 ^ 63) :
    ∃ q, closeAiff info ⟨4, 22, 46, 58⟩ (fileView (aiffHeader d 0 0 0 ++ D) p 0) =
      .ok ((), fileView (closedAt d D p) q 0) := by
  obtain ⟨mid, mid', hsplit, hmid, hmid'⟩ := aiffHeader_split d D
  have htell : tell (fileView (aiffHeader d 0 0 0 ++ D) p 0) =
      .ok ((p : ℤ), fileView (aiffHeader d 0 0 0 ++ D) p 0) :=
    congrArg Except.ok (tell_fileView (Nat.zero_le _) hp)
  have hlen : ∀ a b c, (big32 form ++ (big32 a ++ (mid ++ (big32 b ++ (mid' ++ (big32 c ++
      (big32 0 ++ big32 0 ++ D))))))).length < 2 ^ 63 := by
    intro a b c
    rw [← hsplit, List.length_append, length_aiffHeader]; exact hmax
  -- the list, split before the second and before the third number
  have hsecond : ∀ a b c, big32 form ++ (big32 a ++ (mid ++ (big32 b ++ (mid' ++ (big32 c ++
      (big32 0 ++ big32 0 ++ D)))))) = (big32 form ++ (big32 a ++ mid)) ++ (big32 b ++
        (mid' ++ (big32 c ++ (big32 0 ++ big32 0 ++ D)))) :=
    fun a b c => by simp only [List.append_assoc]
  have hthird : ∀ a b c, (big32 form ++ (big32 a ++ mid)) ++ (big32 b ++ (mid' ++ (big32 c ++
      (big32 0 ++ big32 0 ++ D)))) = (big32 form ++ (big32 a ++ (mid ++ (big32 b ++ mid')))) ++
        (big32 c ++ (big32 0 ++ big32 0 ++ D)) :=
    fun a b c => by simp only [List.append_assoc]
  refine ⟨50, ?_⟩
  unfold closeAiff
  rw [run_bind, htell, Except.bind, hsplit]
  dsimp only
  have hform : (4 : ℤ) = (big32 form).length := by simp
  refine (patch_fileView hform (by simp) (hlen 0 0 0) _).trans ?_
  rw [hsecond]
  refine (patch_fileView (by simp [hmid]) (by simp) (by rw [← hsecond]; exact hlen _ _ _) _).trans
    ?_
  rw [hthird]
  refine (patch_fileView (by simp [hmid, hmid']) (by simp)
    (by rw [← hthird, ← hsecond]; exact hlen _ _ _) _).trans ?_
  rw [closedAt, hsplit, hsecond, hthird]
  simp only [List.length_append, length_big32, hmid, hmid']
  rfl

variable (native) in
/-- **The file** that any sequence of writes leaves. -/
theorem closedAiff_eq (d : HeaderData P info) (hch : info.numChannels ≠ 0) (ws : List (List UInt8))
    (hmax : 58 + ws.flatten.length < 2 ^ 63) :
    closedAiff P native info ws = .ok (aiffFile d ws.flatten) := by
  have hlen := length_aiffHeader d 0 0 0
  obtain ⟨p, hp⟩ := closeAiff_aiffHeader d ws.flatten (le_maxPos hmax) hmax
  rw [← aiffFile_eq] at hp
  obtain ⟨s, hclose, hs⟩ := HeaderSink.close_writeAll (fun info => closeAiff info) native info
    (by rw [hlen]; exact hmax) (by rw [hlen]; exact hp)
  rw [hlen] at hclose
  rw [closedAiff, construct_opened d hch, ok_bind, AiffSink.close, hclose, ok_bind, hs]
  rfl

end

end NiMedia.Aiff
