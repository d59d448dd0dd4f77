/-
  Reading WAV files (`wav/wav_source.h`): the header reader, as a loop over
  chunks, and the source that it opens.

  The reader runs on any seekable source; on sources that deliver the bytes of
  a content it does what it does on a file of these bytes (`readWavHeader_sim`),
  so that the modules about the reader speak about files.
-/
import NiMedia.Audio.Header
import NiMedia.Wav.Chunks

namespace NiMedia.Wav

open Loop Simulation

/-- `audio::wav_ifstream_info`. -/
structure WavIfstreamInfo extends IfstreamInfo where
  instrumentChunk : Option InstrumentChunk := none
  sampleChunk : Option SampleChunk := none
  sampleLoops : Option (List (ℤ × SampleLoop)) := none
  deriving DecidableEq

/-- What a `fmt ` chunk says. -/
structure Fmt where
  format : RuntimeFormat
  numChannels : ℕ
  sampleRate : ℕ
  deriving DecidableEq

section
variable (native : EndianType)

/-- `audio::wav_ifstream_info()`. -/
def WavIfstreamInfo.default : WavIfstreamInfo where
  format := RuntimeFormat.default native
  container := .wav
  codec := .wav

def WavIfstreamInfo.setFmt (info : WavIfstreamInfo) (f : Fmt) : WavIfstreamInfo :=
  { info with format := f.format, numChannels := f.numChannels, sampleRate := f.sampleRate }

/-! ## The header reader -/

/-- The format that a format tag and a bit width stand for. -/
def determineFormat (formatTag bitsPerSample : ℕ) : Except RuntimeError RuntimeFormat :=
  if formatTag = wavFormatTagPcm then
    if bitsPerSample = 8 then RuntimeFormat.ofBits .unsignedInteger bitsPerSample native
    else RuntimeFormat.ofBits .signedInteger bitsPerSample .littleEndian
  else if formatTag = wavFormatTagIeeeFloat then
    RuntimeFormat.ofBits .floatingPoint bitsPerSample .littleEndian
  else if formatTag = wavFormatTagALaw then throw ⟨"ALaw format is not supported"⟩
  else if formatTag = wavFormatTagMuLaw then throw ⟨"uLaw format is not supported"⟩
  else throw ⟨"Unknown format."⟩

/-- `fmtChunk.blockAlign == 0 || fmtChunk.blockAlign * 8 != …`, in `int`. -/
def FmtChunk.invalidBlockAlign (c : FmtChunk) : Prop :=
  c.blockAlign = 0 ∨
    Words.wrap 32 (c.blockAlign * 8) ≠ Words.wrap 32 (c.bitsPerSample * c.numChannels)

instance (c : FmtChunk) : Decidable c.invalidBlockAlign := inferInstanceAs (Decidable (_ ∨ _))

/-- What is made of a `fmt ` chunk with the given (final) format tag. -/
def FmtChunk.toFmt (c : FmtChunk) (formatTag : ℕ) : Except RuntimeError Fmt := do
  let format ← determineFormat native formatTag c.bitsPerSample
  if c.numChannels < 1 ∨ 255 < c.numChannels then
    throw ⟨"Invalid number of channels: " ++ toString c.numChannels⟩
  if c.sampleRate < 1 then throw ⟨"Invalid sample rate: " ++ toString c.sampleRate⟩
  pure ⟨format, c.numChannels, c.sampleRate⟩

/-- `( currentOffset + riffTag.length + 1 ) & 0xfffffffe`, in `uint32_t`. -/
def nextOffset (currentOffset length : ℕ) : ℕ :=
  (currentOffset + length + 1) % 2 ^ 32 &&& 0xfffffffe

variable {σ : Type} [Source σ]

/-- The format tag, after the extension of the chunk if there is one. -/
def readExtension (length : ℕ) (fmtChunk : FmtChunk) : Io σ ℕ := do
  if 16 + 2 + 22 ≤ length then
    match ← fetch (uint16Layout native) with
    | none => raise "Could not read 'extensionSize'."
    | some extensionSize =>
      if fmtChunk.formatTag = wavFormatTagExtensible ∧ extensionSize = 22 then
        match ← fetch (FormatExtensible.layout native) with
        | none => raise "Could not read 'formatExtensible'."
        | some formatExtensible =>
          if formatExtensible.subFormat = wavFormatExtSubFormatPCM then pure wavFormatTagPcm
          else if formatExtensible.subFormat = wavFormatExtSubFormatFloat then
            pure wavFormatTagIeeeFloat
          else pure fmtChunk.formatTag
      else pure fmtChunk.formatTag
  else pure fmtChunk.formatTag

def readFmtChunk (length : ℕ) : Io σ Fmt := do
  if length < 16 then raise ("Invalid size of 'fmtChunk': " ++ toString length)
  else
    match ← fetch (FmtChunk.layout native) with
    | none => raise "Could not read 'fmtChunk'."
    | some fmtChunk =>
      if fmtChunk.invalidBlockAlign then raise "Invalid block align"
      else
        let formatTag ← readExtension native length fmtChunk
        liftM (fmtChunk.toFmt native formatTag)

/-- The `data` chunk completes the info. -/
def dataChunk (length : ℕ) (info : WavIfstreamInfo) : Except RuntimeError WavIfstreamInfo :=
  if info.bytesPerFrame = 0 then throw ⟨"Invalid 'smplChunk'."⟩
  else if length / info.bytesPerFrame < 1 then throw ⟨"Empty File"⟩
  else
    pure { info with
      numFrames := length / info.bytesPerFrame
      bitRate := sizeT (info.sampleRate * info.numChannels * info.bitsPerSample) }

def readSampleLoops : ℕ → List (ℤ × SampleLoop) → Io σ (List (ℤ × SampleLoop))
  | 0, sampleLoops => pure sampleLoops
  | n + 1, sampleLoops => do
    match ← fetch (SampleLoop.layout native) with
    | none => raise "Could not read one of the loops"
    | some (id, sampleLoop) => readSampleLoops n (mapInsert id sampleLoop sampleLoops)

def readSampleChunk (length : ℕ) (info : WavIfstreamInfo) : Io σ WavIfstreamInfo := do
  if 36 ≤ length then
    match ← fetch (SampleChunk.layout native) with
    | none => raise "Could not read 'sampleChunk'."
    | some sampleChunk =>
      let info := { info with sampleChunk := some sampleChunk }
      if 0 < sampleChunk.sampleLoops then
        let sampleLoops ← readSampleLoops native sampleChunk.sampleLoops.toNat []
        pure { info with sampleLoops := some sampleLoops }
      else pure info
  else pure info

def readInstrumentChunk (length : ℕ) (info : WavIfstreamInfo) : Io σ WavIfstreamInfo := do
  if 7 ≤ length then
    match ← fetch (InstrumentChunk.layout native) with
    | none => raise "Could not read 'instrumentChunk'."
    | some instrumentChunk => pure { info with instrumentChunk := some instrumentChunk }
  else pure info

/-- The body of a chunk: the `data` chunk ends the loop. -/
def readChunk (tag : RiffTag) (info : WavIfstreamInfo) :
    Io σ (Next WavIfstreamInfo WavIfstreamInfo) :=
  if tag.id = fmt then return .again (info.setFmt (← readFmtChunk native tag.length))
  else if tag.id = data then return .done (← liftM (dataChunk tag.length info))
  else if tag.id = smpl then return .again (← readSampleChunk native tag.length info)
  else if tag.id = inst then return .again (← readInstrumentChunk native tag.length info)
  else return .again info

def fetchTag : Io σ (Option RiffTag) := do
  let r ← fetch₂ (uint32Layout native) (uint32Layout native)
  pure (r.map fun r => ⟨r.1, r.2⟩)

/-- One pass of the loop over the chunks. -/
def pass (info : WavIfstreamInfo) : Io σ (Next WavIfstreamInfo WavIfstreamInfo) := do
  match ← fetchTag native with
  | none => raise "Could not read 'data' tag."
  | some tag =>
    if tag.length = 0 then raise "Could not read 'data' tag."
    else
      let currentOffset := uint32 (← seek 0 .cur)
      match ← readChunk native tag info with
      | .done info => pure (.done info)
      | .again info =>
        let _ ← seek (nextOffset currentOffset tag.length) .beg
        pure (.again info)

def readRiff : Io σ Unit := do
  let _ ← seek 0 .beg
  match ← fetchTag native with
  | none => raise "Could not read 'RIFF' tag."
  | some tag =>
    if tag.id ≠ riff then raise "Could not read 'RIFF' tag."
    else
      match ← fetch (uint32Layout native) with
      | none => raise "Could not read 'WAVE' tag."
      | some id => if id ≠ wave then raise "Could not read 'WAVE' tag." else pure ()

/-- `readWavHeader`, with fuel for so many passes of the loop. -/
def readWavHeader (fuel : ℕ) (src : σ) : Option (Except RuntimeError (WavIfstreamInfo × σ)) :=
  andThen (some (readRiff native src)) fun (_, src) =>
    iterate (loopStep (pass native)) fuel (WavIfstreamInfo.default native, src)

/-- More fuel does not change the result. -/
theorem readWavHeader_mono (src : σ) (fuel k : ℕ) (r : Except RuntimeError (WavIfstreamInfo × σ))
    (h : readWavHeader native fuel src = some r) : readWavHeader native (fuel + k) src = some r :=
  andThen_mono (fun _ h => h) (fun _ _ h => iterate_mono h k) r h

end

/-! ## The source -/

instance : ToIfstreamInfo WavIfstreamInfo where
  toIfstreamInfo := WavIfstreamInfo.toIfstreamInfo

/-- `wav_source`. -/
abbrev WavSource (δ : Type) := HeaderSource WavIfstreamInfo δ

namespace WavSource

variable {δ : Type}

/-- The source before its header has been read. -/
def unread (native : EndianType) (device : δ) : WavSource δ :=
  ⟨{ device }, WavIfstreamInfo.default native⟩

/-- The constructor. -/
def construct [Source δ] (native : EndianType) (fuel : ℕ) (device : δ) :
    Option (Except RuntimeError (WavSource δ)) :=
  HeaderSource.construct (readWavHeader native fuel) (WavIfstreamInfo.default native) device

end WavSource

theorem bytesPerFrame_default (native : EndianType) :
    (WavIfstreamInfo.default native).bytesPerFrame = 1 := bytesPerFrame_of_default rfl rfl

/-! ## Handlers over related sources -/

section
variable {native : EndianType} {σ τ : Type} [Source σ] [Source τ] {R : σ → τ → Prop}

theorem readExtension_sim (hR : FetchAlike R) (length : ℕ) (c : FmtChunk) :
    Sim R (Same R) (readExtension native length c : Io σ _)
      (readExtension native length c : Io τ _) := by
  unfold readExtension
  refine Sim.ite ((hR _).bind_same fun r => ?_) (Sim.pure fun _ _ h => ⟨rfl, h⟩)
  cases r with
  | none => exact Sim.throw
  | some extensionSize =>
    refine Sim.ite ((hR _).bind_same fun r => ?_) (Sim.pure fun _ _ h => ⟨rfl, h⟩)
    cases r with
    | none => exact Sim.throw
    | some formatExtensible =>
      exact Sim.ite (Sim.pure fun _ _ h => ⟨rfl, h⟩)
        (Sim.ite (Sim.pure fun _ _ h => ⟨rfl, h⟩) (Sim.pure fun _ _ h => ⟨rfl, h⟩))

theorem readFmtChunk_sim (hR : FetchAlike R) (length : ℕ) :
    Sim R (Same R) (readFmtChunk native length : Io σ _)
      (readFmtChunk native length : Io τ _) := by
  unfold readFmtChunk
  refine Sim.ite Sim.throw ((hR _).bind_same fun r => ?_)
  cases r with
  | none => exact Sim.throw
  | some fmtChunk =>
    exact Sim.ite Sim.throw ((readExtension_sim hR length fmtChunk).bind_same fun _ => liftM_sim _)

theorem readSampleLoops_sim (hR : FetchAlike R) : ∀ (n : ℕ) (loops : List (ℤ × SampleLoop)),
    Sim R (Same R) (readSampleLoops native n loops : Io σ _)
      (readSampleLoops native n loops : Io τ _)
  | 0, _ => Sim.pure fun _ _ h => ⟨rfl, h⟩
  | n + 1, loops => by
    unfold readSampleLoops
    refine (hR _).bind_same fun r => ?_
    cases r with
    | none => exact Sim.throw
    | some l => exact readSampleLoops_sim hR n _

theorem readSampleChunk_sim (hR : FetchAlike R) (length : ℕ) (info : WavIfstreamInfo) :
    Sim R (Same R) (readSampleChunk native length info : Io σ _)
      (readSampleChunk native length info : Io τ _) := by
  unfold readSampleChunk
  refine Sim.ite ((hR _).bind_same fun r => ?_) (Sim.pure fun _ _ h => ⟨rfl, h⟩)
  cases r with
  | none => exact Sim.throw
  | some sampleChunk =>
    exact Sim.ite ((readSampleLoops_sim hR _ _).bind_same fun _ => Sim.pure fun _ _ h => ⟨rfl, h⟩)
      (Sim.pure fun _ _ h => ⟨rfl, h⟩)

theorem readInstrumentChunk_sim (hR : FetchAlike R) (length : ℕ) (info : WavIfstreamInfo) :
    Sim R (Same R) (readInstrumentChunk native length info : Io σ _)
      (readInstrumentChunk native length info : Io τ _) := by
  unfold readInstrumentChunk
  refine Sim.ite ((hR _).bind_same fun r => ?_) (Sim.pure fun _ _ h => ⟨rfl, h⟩)
  cases r with
  | none => exact Sim.throw
  | some instrumentChunk => exact Sim.pure fun _ _ h => ⟨rfl, h⟩

variable (native) in
theorem readChunk_sim (hR : FetchAlike R) (tag : RiffTag) (info : WavIfstreamInfo) :
    Sim R (Same R) (readChunk native tag info : Io σ _)
      (readChunk native tag info : Io τ _) := by
  unfold readChunk
  refine Sim.ite ((readFmtChunk_sim hR _).bind_same fun _ => Sim.pure fun _ _ h => ⟨rfl, h⟩) ?_
  refine Sim.ite ((liftM_sim _).bind_same fun _ => Sim.pure fun _ _ h => ⟨rfl, h⟩) ?_
  refine Sim.ite ((readSampleChunk_sim hR _ _).bind_same fun _ => Sim.pure fun _ _ h => ⟨rfl, h⟩) ?_
  exact Sim.ite ((readInstrumentChunk_sim hR _ _).bind_same fun _ => Sim.pure fun _ _ h => ⟨rfl, h⟩)
    (Sim.pure fun _ _ h => ⟨rfl, h⟩)

end

/-! ## Reading a source is reading a file -/

section
variable {native : EndianType} {σ : Type} [ByteSource σ] {B : Content}

theorem nextOffset_eq (o length : ℕ) :
    nextOffset o length = (o + length + 1) % 2 ^ 32 / 2 * 2 :=
  Words.and_even_mask (Nat.mod_lt _ (by decide))

theorem nextOffset_lt (o length : ℕ) : nextOffset o length < 2 ^ 32 :=
  lt_of_le_of_lt Nat.and_le_left (Nat.mod_lt _ (by decide))

theorem fetchTag_simIn :
    Sim (Rel B) (fun a s b f => a = b ∧ Rel B s f ∧ (a ≠ none → RelIn B s f))
      (fetchTag native : Io σ _) (fetchTag native : Io File _) := by
  refine (fetch₂_simIn _ _).bind_eq fun r => Sim.pure fun s f h => ?_
  exact ⟨rfl, h.1, fun hne => h.2 fun hnone => hne (by rw [hnone]; rfl)⟩

theorem pass_sim (info : WavIfstreamInfo) :
    Sim (Rel B) (SameNext (Rel B) (Rel B)) (pass native info : Io σ _)
      (pass native info : Io File _) := by
  unfold pass
  refine fetchTag_simIn.bind_eq fun r => ?_
  cases r with
  | none => exact Sim.throw
  | some tag =>
    refine Sim.pre (fun _ _ h => h.2 nofun) (Sim.ite Sim.throw ?_)
    refine (tell_sim le_rfl).bind_eq fun o => Sim.pre (fun _ _ h => h.1) ?_
    refine (readChunk_sim native fetchAlike_rel tag info).bind_same fun r => ?_
    cases r with
    | done info => exact Sim.pure fun _ _ h => ⟨rfl, h⟩
    | again info =>
      have hq : ((nextOffset (uint32 o) tag.length : ℕ) : ℤ) ≤ maxPos :=
        le_maxPos ((nextOffset_lt _ _).trans (by decide))
      exact (seek_beg_sim hq).bind fun _ _ => Sim.pure fun _ _ h => ⟨rfl, h.1⟩

theorem readRiff_sim :
    Sim (Rel B) (Same (Rel B)) (readRiff native : Io σ _) (readRiff native : Io File _) := by
  unfold readRiff
  refine (seek_beg_sim (q := 0) (by decide)).bind fun _ _ => ?_
  refine Sim.pre (fun _ _ h => h.1) (fetchTag_simIn.bind_eq fun r => ?_)
  cases r with
  | none => exact Sim.throw
  | some tag =>
    refine Sim.pre (fun _ _ h => h.1) (Sim.ite Sim.throw ((fetch_sim _).bind_same fun r => ?_))
    cases r with
    | none => exact Sim.throw
    | some id => exact Sim.ite Sim.throw (Sim.pure fun _ _ h => ⟨rfl, h⟩)

variable (native) in
/-- **The header reader** does on a source what it does on a file of its
    bytes. -/
theorem readWavHeader_sim (fuel : ℕ) {s : σ} {f : File} (h : Rel B s f) :
    Option.Rel (Agree fun x y => x.1 = y.1 ∧ Rel B x.2 y.2) (readWavHeader native fuel s)
      (readWavHeader native fuel f) :=
  rel_andThen (.some (readRiff_sim s f h)) fun _ _ hxy =>
    iterate_loopStep_sim pass_sim fuel _ hxy.2

end

end NiMedia.Wav
