/-
  Reading AIFF files (`aiff/aiff_source.h`): the header reader, which walks over
  the chunks twice, and the source that it opens.

  The first walk goes over all chunks and handles `COMM`, `MARK` and `INST`, the
  second one looks for `SSND`.  On sources that deliver the bytes of a content
  the reader does what it does on a file of these bytes (`readAiffHeader_sim`).
-/
import NiMedia.Audio.Header
import NiMedia.Audio.Ieee80
import NiMedia.Aiff.Chunks

namespace NiMedia.Aiff

open Bytes Loop Simulation

/-- `audio::aiff_ifstream_info`. -/
structure AiffIfstreamInfo extends IfstreamInfo where
  markerMap : List (ℤ × ℕ) := []
  instrumentChunk : Option InstrumentChunk := none
  deriving DecidableEq

/-- What a `COMM` chunk says. -/
structure Comm where
  format : RuntimeFormat
  numChannels : ℕ
  numFrames : ℕ
  sampleRate : ℕ
  deriving DecidableEq

/-- `audio::aiff_ifstream_info()`. -/
def AiffIfstreamInfo.default (native : EndianType) : AiffIfstreamInfo where
  format := RuntimeFormat.default native
  container := .aiff
  codec := .aiff

def AiffIfstreamInfo.setComm (info : AiffIfstreamInfo) (c : Comm) : AiffIfstreamInfo :=
  { info with
    format := c.format
    numChannels := c.numChannels
    numFrames := c.numFrames
    sampleRate := c.sampleRate }

def AiffIfstreamInfo.setBitRate (info : AiffIfstreamInfo) : AiffIfstreamInfo :=
  { info with bitRate := sizeT (info.sampleRate * info.numChannels * info.bitsPerSample) }

/-! ## The header reader -/

/-- The number type, the bit width and the byte order of the samples. -/
structure Encoding where
  numberType : NumberType
  bitWidth : ℕ
  endian : EndianType
  deriving DecidableEq

/-- The encoding of plain AIFF files. -/
def Encoding.plain (sampleSize : ℕ) : Encoding := ⟨.signedInteger, sampleSize, .bigEndian⟩

section
variable (P : Platform) (native : EndianType)

/-- The `switch` over the compression of AIFC files. -/
def determineEncoding (compression sampleSize : ℕ) : Except RuntimeError Encoding :=
  if compression = none_ ∨ compression = twos ∨ compression = in24 ∨ compression = in32 then
    pure (.plain sampleSize)
  else if compression = sowt then pure ⟨.signedInteger, sampleSize, .littleEndian⟩
  else if compression = raw then pure ⟨.unsignedInteger, sampleSize, .bigEndian⟩
  else if compression = fl32 ∨ compression = FL32 then pure ⟨.floatingPoint, 32, .bigEndian⟩
  else if compression = fl64 ∨ compression = FL64 then pure ⟨.floatingPoint, 64, .bigEndian⟩
  else throw ⟨"Unsupported compression: " ++ fourccToString native compression⟩

/-- What is made of a `COMM` chunk. -/
def CommonChunk.toComm (c : CommonChunk) (e : Encoding) : Except RuntimeError Comm := do
  let format ← RuntimeFormat.ofBits e.numberType e.bitWidth e.endian
  if c.numSampleFrames < 1 then throw ⟨"Empty File"⟩
  if c.numChannels < 1 ∨ 255 < c.numChannels then
    throw ⟨"Invalid number of channels: " ++ toString c.numChannels⟩
  let sampleRate := ieee80ToDouble c.extSampleRate
  if sampleRate.le (Double.ofNat 0) then
    throw ⟨"Invalid sample rate: " ++ Double.toString sampleRate⟩
  pure ⟨format, c.numChannels, c.numSampleFrames, P.ulong sampleRate⟩

/-- `currentOffset + aiffTag.length + ( … )`: a sum of `uint32_t`, to which the
    pad byte is added as a `size_t`. -/
def target (currentOffset length : ℕ) : ℕ :=
  (currentOffset + length) % 2 ^ 32 + if length % 2 ≠ 0 then 2 - length % 2 else 0

variable {σ : Type} [Source σ]

/-- `read_pascal_string`. -/
def readPascalString : Io σ (Option (List UInt8)) := do
  match ← fetch bigUint8 with
  | none => pure none
  | some size =>
    match ← (if 0 < size then readBytes size else pure (some [])) with
    | none => pure none
    | some data =>
      if data.length ≠ size then pure none
      else if (size + 1) % 2 ≠ 0 then
        let _ ← seek 1 .cur
        pure (some data)
      else pure (some data)

def readEncoding (subType length sampleSize : ℕ) : Io σ Encoding := do
  if subType = aifc then
    match ← fetch bigUint32 with
    | none => raise "Could not retrieve the compression id."
    | some compression =>
      if 18 + 4 < length then
        match ← readPascalString with
        | none => raise "Could not retrieve the compressor id."
        | some _ => liftM (determineEncoding native compression sampleSize)
      else liftM (determineEncoding native compression sampleSize)
  else pure (.plain sampleSize)

def readCommonChunk (subType length : ℕ) : Io σ Comm := do
  if length < 18 then raise "Could not read 'COMM' chunk."
  else
    match ← fetch CommonChunk.layout with
    | none => raise "Could not read 'COMM' chunk."
    | some commChunk =>
      let encoding ← readEncoding native subType length commChunk.sampleSize
      liftM (commChunk.toComm P encoding)

def readMarkers : ℕ → List (ℤ × ℕ) → Io σ (List (ℤ × ℕ))
  | 0, markerMap => pure markerMap
  | n + 1, markerMap => do
    match ← fetch Marker.layout with
    | none => raise "Error reading AIFF marker."
    | some marker =>
      match ← readPascalString with
      | none => raise "Error reading AIFF marker."
      | some _ => readMarkers n (mapInsert marker.id marker.position markerMap)

def readMarkChunk (info : AiffIfstreamInfo) : Io σ AiffIfstreamInfo := do
  match ← fetch bigUint16 with
  | none => pure info
  | some numMarkers =>
    if 0 < numMarkers then
      let markerMap ← readMarkers numMarkers []
      pure { info with markerMap }
    else pure info

def readInstrumentChunk (info : AiffIfstreamInfo) : Io σ AiffIfstreamInfo := do
  match ← fetch InstrumentChunk.layout with
  | none => raise "Could not read 'INST' chunk."
  | some instChunk => pure { info with instrumentChunk := some instChunk }

/-- What the first walk has found: the info, and whether there was a `COMM`
    chunk. -/
structure Found where
  info : AiffIfstreamInfo
  commChunkFound : Bool
  deriving DecidableEq

/-- The body of a chunk, in the first walk. -/
def readChunk (subType : ℕ) (tag : Tag) (s : Found) : Io σ Found :=
  if tag.id = comm then
    return ⟨s.info.setComm (← readCommonChunk P native subType tag.length), true⟩
  else if tag.id = mark then return { s with info := ← readMarkChunk s.info }
  else if tag.id = inst then return { s with info := ← readInstrumentChunk s.info }
  else return s

def fetchTag : Io σ (Option Tag) := do
  let r ← fetch₂ bigUint32 bigUint32
  pure (r.map fun r => ⟨r.1, r.2⟩)

/-- One pass of the first walk. -/
def firstPass (subType : ℕ) (s : Found) : Io σ (Next Found Found) := do
  match ← fetchTag with
  | none => pure (.done s)
  | some tag =>
    let currentOffset := uint32 (← seek 0 .cur)
    let s ← readChunk P native subType tag s
    let _ ← seek (target currentOffset tag.length) .beg
    pure (.again s)

/-- One pass of the second walk. -/
def secondPass (_ : Unit) : Io σ (Next Unit Unit) := do
  match ← fetchTag with
  | none => raise "Could not find 'SSND' chunk."
  | some tag =>
    let currentOffset := uint32 (← seek 0 .cur)
    if tag.id = ssnd then
      match ← fetch SoundDataChunk.layout with
      | none => raise "Could not read 'SSND' chunk."
      | some ssndChunk =>
        let _ ← seek ssndChunk.offset .cur
        pure (.done ())
    else
      let _ ← seek (target currentOffset tag.length) .beg
      pure (.again ())

/-- The sub-type of the file, and the offset behind it. -/
def readForm : Io σ (ℕ × ℤ) := do
  let _ ← seek 0 .beg
  match ← fetch₃ bigUint32 bigUint32 bigUint32 with
  | none => raise "Could not read 'FORM' tag."
  | some (id, _, subType) =>
    if id ≠ form then raise "Could not read 'FORM' tag."
    else
      let formChunkOffset ← seek 0 .cur
      pure (subType, formChunkOffset)

/-- Between the walks. -/
def startAgain (formChunkOffset : ℤ) (s : Found) : Io σ Unit := do
  if s.commChunkFound then
    let _ ← seek formChunkOffset .beg
    pure ()
  else raise "Could not find 'COMM' chunk."

/-- The second walk, with fuel. -/
def findSoundData (fuel : ℕ) (formChunkOffset : ℤ) (s : Found) (src : σ) :
    Option (Except RuntimeError (AiffIfstreamInfo × σ)) :=
  andThen (some (startAgain formChunkOffset s src)) fun (_, src) =>
    andThen (iterate (loopStep secondPass) fuel ((), src)) fun (_, src) =>
      some (.ok (s.info.setBitRate, src))

/-- `readAiffHeader`, with fuel for so many passes of each of the loops. -/
def readAiffHeader (fuel : ℕ) (src : σ) : Option (Except RuntimeError (AiffIfstreamInfo × σ)) :=
  andThen (some (readForm src)) fun ((subType, formChunkOffset), src) =>
    andThen (iterate (loopStep (firstPass P native subType)) fuel
        (⟨AiffIfstreamInfo.default native, false⟩, src)) fun (s, src) =>
      findSoundData fuel formChunkOffset s src

/-- More fuel does not change the result. -/
theorem readAiffHeader_mono (src : σ) (fuel k : ℕ)
    (r : Except RuntimeError (AiffIfstreamInfo × σ))
    (h : readAiffHeader P native fuel src = some r) :
    readAiffHeader P native (fuel + k) src = some r :=
  andThen_mono (fun _ h => h) (fun _ => andThen_mono (fun _ h => iterate_mono h k) fun _ =>
    andThen_mono (fun _ h => h) fun _ => andThen_mono (fun _ h => iterate_mono h k) fun _ _ h => h)
    r h

end

/-! ## The source -/

instance : ToIfstreamInfo AiffIfstreamInfo where
  toIfstreamInfo := AiffIfstreamInfo.toIfstreamInfo

/-- `aiff_source`. -/
abbrev AiffSource (δ : Type) := HeaderSource AiffIfstreamInfo δ

namespace AiffSource

variable {δ : Type}

/-- The source before its header has been read. -/
def unread (native : EndianType) (device : δ) : AiffSource δ :=
  ⟨{ device }, AiffIfstreamInfo.default native⟩

/-- The constructor. -/
def construct [Source δ] (P : Platform) (native : EndianType) (fuel : ℕ) (device : δ) :
    Option (Except RuntimeError (AiffSource δ)) :=
  HeaderSource.construct (readAiffHeader P native fuel) (AiffIfstreamInfo.default native) device

end AiffSource

theorem at_aiffSource {native : EndianType} {B : Content} {δ : Type} [ByteSource δ] {p : ℕ} {d : δ}
    (h : ByteSource.At B p d) : ByteSource.At B p (AiffSource.unread native d) :=
  at_unread (bytesPerFrame_of_default rfl rfl) h

/-! ## Reading a source is reading a file -/

section
variable {P : Platform} {native : EndianType} {σ : Type} [ByteSource σ] {B : Content}

theorem readPascalString_sim :
    Sim (Rel B) (Same (Rel B)) (readPascalString : Io σ _) (readPascalString : Io File _) := by
  unfold readPascalString
  refine (fetch_simIn _).bind_eq fun r => ?_
  cases r with
  | none => exact Sim.pure fun _ _ h => ⟨rfl, h.1⟩
  | some size =>
    have hdata : Sim (RelIn B) (fun a s b f => a = b ∧ Rel B s f ∧ (a ≠ none → RelIn B s f))
        (if 0 < size then readBytes size else pure (some []) : Io σ _)
        (if 0 < size then readBytes size else pure (some []) : Io File _) :=
      Sim.ite (Sim.pre (fun _ _ h => h.1) (readBytes_sim size))
        (Sim.pure fun _ _ h => ⟨rfl, h.1, fun _ => h⟩)
    refine Sim.pre (fun _ _ h => h.2 nofun) (hdata.bind_eq fun r => ?_)
    cases r with
    | none => exact Sim.pure fun _ _ h => ⟨rfl, h.1⟩
    | some data =>
      refine Sim.ite (Sim.pure fun _ _ h => ⟨rfl, h.1⟩)
        (Sim.ite ?_ (Sim.pure fun _ _ h => ⟨rfl, h.1⟩))
      have hmax : (B.bytes.length + 1 : ℕ) ≤ maxPos := le_maxPos B.fits
      refine Sim.pre (fun _ _ h => h.2 nofun) ((seek_cur_sim le_rfl hmax).bind fun _ _ => ?_)
      exact Sim.pure fun _ _ h => ⟨rfl, h⟩

theorem readEncoding_sim (subType length sampleSize : ℕ) :
    Sim (Rel B) (Same (Rel B)) (readEncoding native subType length sampleSize : Io σ _)
      (readEncoding native subType length sampleSize : Io File _) := by
  unfold readEncoding
  refine Sim.ite ((fetch_sim _).bind_same fun r => ?_) (Sim.pure fun _ _ h => ⟨rfl, h⟩)
  cases r with
  | none => exact Sim.throw
  | some compression =>
    refine Sim.ite (readPascalString_sim.bind_same fun r => ?_) (liftM_sim _)
    cases r with
    | none => exact Sim.throw
    | some _ => exact liftM_sim _

theorem readCommonChunk_sim (subType length : ℕ) :
    Sim (Rel B) (Same (Rel B)) (readCommonChunk P native subType length : Io σ _)
      (readCommonChunk P native subType length : Io File _) := by
  unfold readCommonChunk
  refine Sim.ite Sim.throw ((fetch_sim _).bind_same fun r => ?_)
  cases r with
  | none => exact Sim.throw
  | some commChunk => exact (readEncoding_sim _ _ _).bind_same fun _ => liftM_sim _

theorem readMarkers_sim : ∀ (n : ℕ) (markerMap : List (ℤ × ℕ)),
    Sim (Rel B) (Same (Rel B)) (readMarkers n markerMap : Io σ _)
      (readMarkers n markerMap : Io File _)
  | 0, _ => Sim.pure fun _ _ h => ⟨rfl, h⟩
  | n + 1, markerMap => by
    unfold readMarkers
    refine (fetch_sim _).bind_same fun r => ?_
    cases r with
    | none => exact Sim.throw
    | some marker =>
      refine readPascalString_sim.bind_same fun r => ?_
      cases r with
      | none => exact Sim.throw
      | some _ => exact readMarkers_sim n _

theorem readMarkChunk_sim (info : AiffIfstreamInfo) :
    Sim (Rel B) (Same (Rel B)) (readMarkChunk info : Io σ _) (readMarkChunk info : Io File _) := by
  unfold readMarkChunk
  refine (fetch_sim _).bind_same fun r => ?_
  cases r with
  | none => exact Sim.pure fun _ _ h => ⟨rfl, h⟩
  | some numMarkers =>
    exact Sim.ite ((readMarkers_sim _ _).bind_same fun _ => Sim.pure fun _ _ h => ⟨rfl, h⟩)
      (Sim.pure fun _ _ h => ⟨rfl, h⟩)

theorem readInstrumentChunk_sim (info : AiffIfstreamInfo) :
    Sim (Rel B) (Same (Rel B)) (readInstrumentChunk info : Io σ _)
      (readInstrumentChunk info : Io File _) := by
  unfold readInstrumentChunk
  refine (fetch_sim _).bind_same fun r => ?_
  cases r with
  | none => exact Sim.throw
  | some instChunk => exact Sim.pure fun _ _ h => ⟨rfl, h⟩

variable (P native) in
theorem readChunk_sim (subType : ℕ) (tag : Tag) (s : Found) :
    Sim (Rel B) (Same (Rel B)) (readChunk P native subType tag s : Io σ _)
      (readChunk P native subType tag s : Io File _) := by
  unfold readChunk
  refine Sim.ite ((readCommonChunk_sim _ _).bind_same fun _ => Sim.pure fun _ _ h => ⟨rfl, h⟩) ?_
  refine Sim.ite ((readMarkChunk_sim _).bind_same fun _ => Sim.pure fun _ _ h => ⟨rfl, h⟩) ?_
  exact Sim.ite ((readInstrumentChunk_sim _).bind_same fun _ => Sim.pure fun _ _ h => ⟨rfl, h⟩)
    (Sim.pure fun _ _ h => ⟨rfl, h⟩)

theorem fetchTag_simUpTo (N : ℕ) :
    Sim (RelUpTo B N)
      (fun a s b f => a = b ∧ RelUpTo B (N + 8) s f ∧ (a ≠ none → f.pos ≤ B.bytes.length))
      (fetchTag : Io σ _) (fetchTag : Io File _) := by
  refine (fetch₂_simUpTo _ _ N).bind_eq fun r => Sim.pure fun s f h => ?_
  exact ⟨rfl, h.1, fun hne => h.2 fun hnone => hne (by rw [hnone]; rfl)⟩

theorem fetchTag_simIn :
    Sim (Rel B) (fun a s b f => a = b ∧ Rel B s f ∧ (a ≠ none → RelIn B s f))
      (fetchTag : Io σ _) (fetchTag : Io File _) :=
  Sim.of_upTo fetchTag_simUpTo

theorem target_le (o length : ℕ) : target o length ≤ 2 ^ 32 := by
  have h : (o + length) % 2 ^ 32 < 2 ^ 32 := Nat.mod_lt _ (by decide)
  unfold target
  split_ifs <;> omega

theorem target_le_maxPos (o length : ℕ) : ((target o length : ℕ) : ℤ) ≤ maxPos :=
  le_maxPos ((target_le o length).trans_lt (by decide))

theorem offset_le (bs : List UInt8) : (SoundDataChunk.layout.decode bs).offset ≤ 2 ^ 32 :=
  have h : field .bigEndian bs 0 4 < 256 ^ 4 := field_lt bs 0 4
  h.le

theorem firstPass_sim (subType : ℕ) (s : Found) :
    Sim (Rel B) (SameNext (Rel B) (Rel B)) (firstPass P native subType s : Io σ _)
      (firstPass P native subType s : Io File _) := by
  unfold firstPass
  refine fetchTag_simIn.bind_eq fun r => ?_
  cases r with
  | none => exact Sim.pure fun _ _ h => ⟨rfl, h.1⟩
  | some tag =>
    refine Sim.pre (fun _ _ h => h.2 nofun) ((tell_sim le_rfl).bind_eq fun o => ?_)
    refine Sim.pre (fun _ _ h => h.1) ((readChunk_sim _ _ _ tag _).bind_same fun r => ?_)
    exact (seek_beg_sim (target_le_maxPos _ _)).bind fun _ _ => Sim.pure fun _ _ h => ⟨rfl, h.1⟩

/-- The offsets of the headers that the second walk looks at are small, so that
    the seek over `offset` bytes does not overflow. -/
theorem secondPass_sim (u : Unit) :
    Sim (RelUpTo B (2 ^ 32)) (SameNext (RelUpTo B (2 ^ 32)) (SoughtFrom B))
      (secondPass u : Io σ _) (secondPass u : Io File _) := by
  unfold secondPass
  refine (fetchTag_simUpTo _).bind_eq fun r => ?_
  cases r with
  | none => exact Sim.throw
  | some tag =>
    have hN : min (2 ^ 32 + 8) B.bytes.length ≤ B.bytes.length := min_le_right _ _
    refine Sim.pre (fun _ _ h => ⟨h.1.1, le_min h.1.2 (h.2 nofun)⟩)
      ((tell_sim hN).bind_eq fun o => ?_)
    have hchunk := fetch_simOf (σ := σ) (B := B) (Q := fun c => c.offset ≤ 2 ^ 32)
      SoundDataChunk.layout (2 ^ 32 + 8) offset_le
    refine Sim.pre (fun _ _ h => ⟨h.1, h.2.trans (min_le_left _ _)⟩)
      (Sim.ite (hchunk.bind_eq fun r => ?_) ?_)
    · cases r with
      | none => exact Sim.throw
      | some ssndChunk =>
        intro s f h
        obtain ⟨hR, hoffset⟩ := h.2 ssndChunk rfl
        have hmax : min (2 ^ 32 + 8 + 8) B.bytes.length + ssndChunk.offset ≤ 2 ^ 34 := by omega
        exact ((seek_cur_sought (min_le_right _ _) hmax).bind fun _ _ =>
          Sim.pure fun _ _ h => ⟨rfl, h⟩) s f hR
    · refine Sim.pre (fun _ _ h => h.1) ((seek_beg_sim (target_le_maxPos _ _)).bind fun _ _ => ?_)
      exact Sim.pure fun _ _ h => ⟨rfl, h.1, h.2.trans (target_le _ _)⟩

/-- The sub-type is read at offset 8. -/
theorem readForm_sim :
    Sim (Rel B) (Same (Rel B)) (readForm : Io σ _) (readForm : Io File _) := by
  unfold readForm
  refine (seek_beg_sim (q := 0) (by decide)).bind fun _ _ => ?_
  refine Sim.pre (fun _ _ h => h.1) ((fetch₃_simIn _ _ _).bind_eq fun r => ?_)
  cases r with
  | none => exact Sim.throw
  | some tag =>
    obtain ⟨id, length, subType⟩ := tag
    refine Sim.pre (fun _ _ h => h.2 nofun) (Sim.ite Sim.throw ?_)
    exact (tell_sim le_rfl).bind_eq fun o => Sim.pure fun _ _ h => ⟨rfl, h.1⟩

theorem startAgain_sim {o : ℕ} (ho : o ≤ 2 ^ 32) (s : Found) :
    Sim (Rel B) (Same (RelUpTo B (2 ^ 32))) (startAgain o s : Io σ _)
      (startAgain o s : Io File _) := by
  unfold startAgain
  have hmax : (o : ℤ) ≤ maxPos := le_maxPos (ho.trans_lt (by decide))
  exact Sim.ite ((seek_beg_sim hmax).bind fun _ _ =>
    Sim.pure fun _ _ h => ⟨rfl, h.1, h.2.trans ho⟩) Sim.throw

end

/-! ### The head of a file -/

/-- The file begins with the FORM tag. -/
def isForm (B : List UInt8) : Prop := 12 ≤ B.length ∧ field .bigEndian B 0 4 = form

instance (B : List UInt8) : Decidable (isForm B) := inferInstanceAs (Decidable (_ ∧ _))

theorem readForm_isForm {B : List UInt8} (h : isForm B) (p : ℕ) :
    readForm (⟨B, p⟩ : File) = .ok ((field .bigEndian B 8 4, 12), ⟨B, 12⟩) := by
  obtain ⟨hlen, hform⟩ := h
  have hseek : (seek 0 .beg : Io File ℤ) ⟨B, p⟩ = .ok (_, ⟨B, 0⟩) :=
    congrArg Except.ok (File.seek_beg 0 ⟨B, p⟩)
  have htell : (seek 0 .cur : Io File ℤ) ⟨B, 12⟩ = .ok (12, ⟨B, 12⟩) :=
    congrArg Except.ok (File.seek_cur 0 ⟨B, 12⟩)
  have hfetch := fetch₃_uint32 (e := .bigEndian) (o := 0) hlen
  simp only [readForm, run_bind, hseek, Except.bind, bigUint32, hfetch, Nat.zero_add, hform, ne_eq,
    not_true_eq_false, if_false, htell, run_pure]

theorem readForm_not_isForm {B : List UInt8} (h : ¬ isForm B) (p : ℕ) :
    readForm (⟨B, p⟩ : File) = .error ⟨"Could not read 'FORM' tag."⟩ := by
  have hseek : (seek 0 .beg : Io File ℤ) ⟨B, p⟩ = .ok (_, ⟨B, 0⟩) :=
    congrArg Except.ok (File.seek_beg 0 ⟨B, p⟩)
  rcases Nat.lt_or_ge B.length 12 with hlen | hlen
  · obtain ⟨q, hq⟩ := fetch₃_uint32_short (e := .bigEndian) (o := 0) (B := B) (by omega)
    simp only [readForm, run_bind, hseek, Except.bind, bigUint32, hq]
    rfl
  · have hfetch := fetch₃_uint32 (e := .bigEndian) (o := 0) hlen
    have hne : field .bigEndian B 0 4 ≠ form := fun he => h ⟨hlen, he⟩
    simp only [readForm, run_bind, hseek, Except.bind, bigUint32, hfetch, if_pos hne]
    rfl

theorem readForm_offset {f : File} {x : (ℕ × ℤ) × File} (h : readForm f = .ok x) :
    x.1.2 = 12 := by
  obtain ⟨B, p⟩ := f
  by_cases hform : isForm B
  · rw [readForm_isForm hform] at h; cases h; rfl
  · rw [readForm_not_isForm hform] at h; cases h

/-! ### The reader -/

section
variable {P : Platform} {native : EndianType} {σ : Type} [ByteSource σ] {B : Content}

theorem findSoundData_sim (fuel : ℕ) {o : ℕ} (ho : o ≤ 2 ^ 32) (found : Found) {s : σ} {f : File}
    (h : Rel B s f) :
    Option.Rel (Agree fun x y => x.1 = y.1 ∧ SoughtFrom B x.2 y.2) (findSoundData fuel o found s)
      (findSoundData fuel o found f) :=
  rel_andThen (.some (startAgain_sim ho found s f h)) fun _ _ hxy =>
    rel_andThen (iterate_loopStep_sim secondPass_sim fuel () hxy.2) fun _ _ hxy =>
      .some ⟨rfl, hxy.2⟩

variable (P native) in
/-- Up to the last seek, the header reader does on a source what it does on a
    file of its bytes. -/
theorem readAiffHeader_sought (fuel : ℕ) {s : σ} {f : File} (h : Rel B s f) :
    Option.Rel (Agree fun x y => x.1 = y.1 ∧ SoughtFrom B x.2 y.2) (readAiffHeader P native fuel s)
      (readAiffHeader P native fuel f) := by
  refine rel_andThen (.some ((readForm_sim s f h).and_ok fun _ => readForm_offset)) ?_
  rintro ⟨⟨subType, o⟩, s⟩ ⟨⟨_, _⟩, f⟩ ⟨⟨⟨⟩, hR⟩, rfl⟩
  refine rel_andThen (iterate_loopStep_sim (firstPass_sim _) fuel _ hR) ?_
  rintro ⟨found, s⟩ ⟨_, f⟩ ⟨rfl, hR⟩
  exact findSoundData_sim fuel (o := 12) (by decide) found hR

variable (P native) in
/-- **The header reader** does on a source what it does on a file of its
    bytes. -/
theorem readAiffHeader_sim (fuel : ℕ) {s : σ} {f : File} (h : Rel B s f) :
    Option.Rel (Agree fun x y => x.1 = y.1 ∧ Rel B x.2 y.2) (readAiffHeader P native fuel s)
      (readAiffHeader P native fuel f) :=
  rel_mono (fun _ _ hxy => hxy.mono fun _ _ hab => ⟨hab.1, hab.2.rel⟩)
    (readAiffHeader_sought P native fuel h)

end

end NiMedia.Aiff
