/-
  What is written through an output stream, and read through an input stream.

  * `wav_streams`, `aiff_streams`: any run of calls on an `ofstream` over a new
    file, and a close, leave a file that streams read the inserted bytes from.
  * `values_streams`: values come back as they were inserted, however they were
    inserted and however they are asked for.
-/
import NiMedia.Audio.CopiedStream
import NiMedia.Audio.SinkStream
import NiMedia.Audio.Reading
import NiMedia.Pcm.Iterator
import NiMedia.Wav.Closing
import NiMedia.Aiff.Closing
import Mathlib.Data.List.SplitLengths

namespace NiMedia

open Bytes Machine

/-! ## What calls insert -/

/-- All characters that the calls insert. -/
def insertedBytes (h : Host) (info : StreamInfo) (calls : List InsertCall) : List UInt8 :=
  calls.flatMap (·.inserted h info)

section
variable {h : Host} {info : StreamInfo} {calls : List InsertCall} {n : ℕ}

theorem GrowingBytes.after_eq (a : GrowingBytes) (calls : List InsertCall) :
    after (GrowingBytes.step h) a calls =
      { a with bytes := a.bytes ++ insertedBytes h a.info calls } := by
  induction calls generalizing a with
  | nil => rw [insertedBytes, List.flatMap_nil, List.append_nil, after]
  | cons call calls ih =>
    rw [after, ih, insertedBytes, insertedBytes, List.flatMap_cons, ← List.append_assoc]
    rfl

/-- Room for everything is room for each call. -/
theorem GrowingBytes.along_room (a : GrowingBytes)
    (hroom : ((n + (a.bytes ++ insertedBytes h a.info calls).length : ℕ) : ℤ) ≤ maxPos) :
    Along (GrowingBytes.step h) (GrowingBytes.Room h n) a calls := by
  induction calls generalizing a with
  | nil => exact trivial
  | cons call calls ih =>
    rw [insertedBytes, List.flatMap_cons, ← List.append_assoc, List.length_append] at hroom
    refine ⟨?_, ih _ ?_⟩
    · rw [GrowingBytes.Room]
      omega
    · rw [List.length_append]
      exact hroom

end

/-! ## Files of streams -/

section
variable {ω : Type}

/-- A stream over a sink serves the calls, out of the bytes that it has been
    given, and leaves `file` when it is closed: wherever its buffer has cut the
    characters. -/
def WritesFile (h : Host) (close : HeaderSink ω File → Except RuntimeError (HeaderSink ω File))
    (sink : HeaderSink ω File) (calls : List InsertCall) (file : List UInt8) : Prop :=
  (∀ answers, (∃ s', Runs (SinkStream.Step h) ⟨sink, []⟩ calls answers s') ↔
      answers = run (GrowingBytes.step h) ⟨[], sink.info⟩ calls) ∧
    ∀ answers s', Runs (SinkStream.Step h) ⟨sink, []⟩ calls answers s' →
      ∀ r, SinkStream.Closes close s' r ↔ r = file

variable {h : Host} {info : StreamInfo} {calls : List InsertCall} {header file : List UInt8}
  {offsets : ω} {close : HeaderSink ω File → Except RuntimeError (HeaderSink ω File)}
  {sink : HeaderSink ω File}

/-- A stream over a new sink. -/
theorem SinkAt.writesFile
    (hat : HeaderSink.SinkAt header info offsets [] (header.length + ([] : List UInt8).length) sink)
    (hroom : ((header.length + (insertedBytes h info calls).length : ℕ) : ℤ) ≤ maxPos)
    (hclose : ∀ sink, HeaderSink.SinkAt header info offsets (insertedBytes h info calls)
      (header.length + (insertedBytes h info calls).length) sink →
        ∃ sink', close sink = .ok sink' ∧ sink'.view.device.bytes = file) :
    WritesFile h close sink calls file := by
  have hinfo : sink.info = info := by rw [hat.eq]
  have htracks : SinkStream.Tracks header offsets ⟨sink, []⟩ (⟨[], info⟩ : GrowingBytes) :=
    ⟨⟨[], hat, rfl⟩, hat.pos_le⟩
  have halong := GrowingBytes.along_room (h := h) (⟨[], info⟩ : GrowingBytes) hroom
  have hserves := SinkStream.serves (h := h) header offsets
  rw [WritesFile, hinfo]
  refine ⟨fun answers => hserves.run_iff htracks halong, ?_⟩
  intro answers s' hrun r
  obtain ⟨-, hlast⟩ := hserves.runs htracks halong hrun
  rw [GrowingBytes.after_eq] at hlast
  exact hlast.closes_iff close hclose r

end

/-- A source on a file has the frames of the data `D`, and streams over it are
    streams over `D`. -/
structure ReadsBack {ι : Type} [ToIfstreamInfo ι] (info : StreamInfo) (D file : List UInt8)
    (src : HeaderSource ι File) : Prop where
  numChannels : (ToIfstreamInfo.toIfstreamInfo src.info).numChannels = info.numChannels
  bitsPerSample : (ToIfstreamInfo.toIfstreamInfo src.info).bitsPerSample = info.bitsPerSample
  numFrames : (ToIfstreamInfo.toIfstreamInfo src.info).numFrames = D.length / info.bytesPerFrame
  audioData : audioData file src = D
  streams : ∀ h order, streamsAudioData h order file src

/-- The data behind a header is the audio data, and is all there. -/
theorem audioData_append {ι : Type} [ToIfstreamInfo ι] (src : HeaderSource ι File)
    (header : List UInt8) {D : List UInt8} (hbeg : src.view.beg = header.length)
    (hnum : (ToIfstreamInfo.toIfstreamInfo src.info).numBytes = D.length) :
    audioData (header ++ D) src = D ∧ hasAudioData (header ++ D) src := by
  have hnat : src.view.beg.toNat = header.length := by rw [hbeg, Int.toNat_natCast]
  refine ⟨?_, ?_⟩
  · rw [audioData, hnat, hnum, slice_skip le_rfl, Nat.sub_self, slice_self]
  · rw [hasAudioData, hnat, hnum, List.length_append]

/-! ### WAV -/

section
variable {native : EndianType} {info : StreamInfo} {D : List UInt8}

/-- Closing a sink that has been written `D`. -/
theorem Wav.close_written {sink : Wav.WavSink File}
    (hat : HeaderSink.SinkAt (Wav.wavHeader native info 0 0) info ⟨44, 40, 4⟩ D
      ((Wav.wavHeader native info 0 0).length + D.length) sink)
    (hmax : 44 + D.length < 2 ^ 63) :
    ∃ sink', Wav.WavSink.close native sink = .ok sink' ∧
      sink'.view.device.bytes = Wav.wavFile native info D := by
  obtain ⟨q, hclose⟩ := Wav.closeWav_wavHeader native info D hat.pos_le hmax
  rw [Wav.wavFile_eq, ← Wav.length_wavHeader native info 0 0]
  exact hat.close (fun _ => Wav.closeWav native) native hclose

/-- The source on the file. -/
theorem Wav.readsBack (hformat : info.format.tag ∈ Wav.wavFormats native)
    (hch : 1 ≤ info.numChannels ∧ info.numChannels ≤ 255)
    (hrate : 1 ≤ info.sampleRate ∧ info.sampleRate < 2 ^ 32) (hne : D ≠ [])
    (hframes : info.bytesPerFrame ∣ D.length) (hsize : 44 + D.length < 2 ^ 32) :
    ∃ src, Wav.WavSource.construct native 2 (File.opened (Wav.wavFile native info D)) =
        some (.ok src) ∧
      src.info.format = info.format ∧ src.info.sampleRate = info.sampleRate ∧
      ReadsBack info D (Wav.wavFile native info D) src := by
  have hnum : Wav.numChannels info = info.numChannels := Nat.mod_eq_of_lt (by omega)
  have hrate' : Wav.sampleRate info = info.sampleRate := Nat.mod_eq_of_lt hrate.2
  have hmod : D.length % 2 ^ 32 = D.length := Nat.mod_eq_of_lt (by omega)
  have hframe : info.bytesPerFrame = info.bytesPerSample * info.numChannels :=
    info.bytesPerFrame_of_le (by omega)
  have hle : info.bytesPerFrame ≤ D.length :=
    Nat.le_of_dvd (List.length_pos_of_ne_nil hne) hframes
  have hok : 1 ≤ Wav.numChannels info ∧ Wav.numChannels info ≤ 255 ∧ 1 ≤ Wav.sampleRate info ∧
      info.bytesPerSample * Wav.numChannels info ≤ D.length % 2 ^ 32 := by
    rw [hnum, hrate', hmod, ← hframe]
    exact ⟨hch.1, hch.2, hrate.1, hle⟩
  have hfits : 44 + D.length + 1 < 2 ^ 63 := by omega
  have hnumFrames : (Wav.headerInfo native info D.length).numFrames =
      D.length / info.bytesPerFrame := by
    rw [Wav.headerInfo, hmod, hframe, hnum]
  have hnumBytes : (Wav.headerInfo native info D.length).numBytes = D.length := by
    have hbytes := Wav.bytesPerFrame_headerInfo native info D.length hok.2.1
    rw [hnum, ← hframe] at hbytes
    refine IfstreamInfo.numBytes_of_dvd _ ?_ ?_ (by omega) (le_trans hok.2.1 (by decide))
    · rw [hnumFrames, hbytes]
    · rw [hbytes]
      exact hframes
  obtain ⟨src, hsrc, hbeg, hinfo⟩ : ∃ src,
      Wav.WavSource.construct native 2 (File.opened (Wav.wavFile native info D)) =
        some (.ok src) ∧ src.view.beg = 44 ∧ src.info = Wav.headerInfo native info D.length := by
    obtain ⟨pos, hsrc⟩ := Wav.construct_wavFile native info hfits hok
    exact ⟨_, hsrc, rfl, rfl⟩
  obtain ⟨f, -, hsized, hat⟩ :=
    Wav.construct_of_file (at_opened (Wav.wavContent native info D hfits)) hsrc
  have hself : src.info.format = info.format := by
    rw [hinfo]
    exact Wav.readFormat_self hformat
  rw [← hinfo] at hnumFrames hnumBytes
  obtain ⟨hdata, hall⟩ := audioData_append src
    (Wav.wavHeader native info (uint32 (uint32 (44 + D.length) - 8)) (D.length % 2 ^ 32))
    (by rw [hbeg, Wav.length_wavHeader]; rfl) hnumBytes
  refine ⟨src, hsrc, hself, ?_, ?_, ?_, hnumFrames, hdata,
    fun h order => hat.streamsAudioData hsized hall h order⟩
  · rw [hinfo]
    exact hrate'
  · change src.info.numChannels = _
    rw [hinfo]
    exact hnum
  · exact congrArg (fun f : RuntimeFormat => f.bitwidth.bits) hself

/-- The file that a stream writes. -/
theorem Wav.writesFile (h : Host) (native : EndianType) (info : StreamInfo)
    (calls : List InsertCall) (hmax : 44 + (insertedBytes h info calls).length < 2 ^ 63) :
    ∃ sink, Wav.WavSink.construct native info (File.opened []) = .ok sink ∧
      WritesFile h (Wav.WavSink.close native) sink calls
        (Wav.wavFile native info (insertedBytes h info calls)) := by
  obtain ⟨sink, hsink, hat⟩ := Wav.construct_sinkAt native info
  refine ⟨sink, hsink, SinkAt.writesFile hat ?_ ?_⟩
  · rw [Wav.length_wavHeader]
    exact le_maxPos (by omega)
  · intro sink' hat'
    exact Wav.close_written hat' (by omega)

/-- **WAV files of streams.**  If the header can express the info: whatever is
    called on an `ofstream` over a new WAV file, and wherever its buffer cuts the
    characters, closing it leaves a file whose source has the same info, and over
    which streams read all that was inserted. -/
theorem wav_streams (h : Host) (native : EndianType) (info : StreamInfo)
    (hformat : info.format.tag ∈ Wav.wavFormats native)
    (hch : 1 ≤ info.numChannels ∧ info.numChannels ≤ 255)
    (hrate : 1 ≤ info.sampleRate ∧ info.sampleRate < 2 ^ 32) (calls : List InsertCall)
    (hne : insertedBytes h info calls ≠ [])
    (hframes : info.bytesPerFrame ∣ (insertedBytes h info calls).length)
    (hsize : 44 + (insertedBytes h info calls).length < 2 ^ 32) :
    ∃ sink file src, Wav.WavSink.construct native info (File.opened []) = .ok sink ∧
      WritesFile h (Wav.WavSink.close native) sink calls file ∧
      Wav.WavSource.construct native 2 (File.opened file) = some (.ok src) ∧
      src.info.format = info.format ∧ src.info.sampleRate = info.sampleRate ∧
      ReadsBack info (insertedBytes h info calls) file src := by
  obtain ⟨sink, hsink, hfile⟩ := Wav.writesFile h native info calls (by omega)
  obtain ⟨src, hsrc, hformat', hrate', hback⟩ :=
    Wav.readsBack hformat hch hrate hne hframes hsize
  exact ⟨sink, _, src, hsink, hfile, hsrc, hformat', hrate', hback⟩

end

/-- A frame of two samples, and the position in frames behind it. -/
theorem wav_streams_s16le :
    ∃ sink file src, Wav.WavSink.construct .littleEndian Wav.s16leStereo (File.opened []) =
        .ok sink ∧
      WritesFile (.ofNative .littleEndian) (Wav.WavSink.close .littleEndian) sink
        [.range (.integer ⟨true, .w16⟩) [1, -2], .frameTellp] file ∧
      Wav.WavSource.construct .littleEndian 2 (File.opened file) = some (.ok src) ∧
      src.info.format = Wav.s16leStereo.format ∧ src.info.sampleRate = 44100 ∧
      ReadsBack Wav.s16leStereo [1, 0, 0xFE, 0xFF] file src := by
  have hbytes : insertedBytes (.ofNative .littleEndian) Wav.s16leStereo
      [.range (.integer ⟨true, .w16⟩) [1, -2], .frameTellp] = [1, 0, 0xFE, 0xFF] := by decide
  have hback := wav_streams (.ofNative .littleEndian) .littleEndian Wav.s16leStereo (by decide)
    (by decide) (by decide) [.range (.integer ⟨true, .w16⟩) [1, -2], .frameTellp]
    (by rw [hbytes]; decide) (by rw [hbytes]; decide) (by rw [hbytes]; decide)
  rwa [hbytes] at hback

/-! ### AIFF -/

section
variable {P : Platform} {native : EndianType} {info : StreamInfo} {D : List UInt8}

theorem Aiff.close_written {d : Aiff.HeaderData P info} {sink : Aiff.AiffSink File}
    (hat : HeaderSink.SinkAt (Aiff.aiffHeader d 0 0 0) info ⟨4, 22, 46, 58⟩ D
      ((Aiff.aiffHeader d 0 0 0).length + D.length) sink)
    (hmax : 58 + D.length < 2 ^ 63) :
    ∃ sink', Aiff.AiffSink.close native sink = .ok sink' ∧
      sink'.view.device.bytes = Aiff.aiffFile d D := by
  obtain ⟨q, hclose⟩ := Aiff.closeAiff_aiffHeader d D hat.pos_le hmax
  rw [Aiff.aiffFile_eq, ← Aiff.length_aiffHeader d 0 0 0]
  exact hat.close (fun info => Aiff.closeAiff info) native hclose

variable (native) in
theorem Aiff.readsBack (d : Aiff.HeaderData P info)
    (hch : 1 ≤ info.numChannels ∧ info.numChannels ≤ 255)
    (hrate : (ieee80ToDouble d.rate).le (Double.ofNat 0) = false) (hne : D ≠ [])
    (hframes : info.bytesPerFrame ∣ D.length) (hsize : 58 + D.length < 2 ^ 32) :
    ∃ src, Aiff.AiffSource.construct P native 3 (File.opened (Aiff.aiffFile d D)) =
        some (.ok src) ∧
      src.info.format = Aiff.readFormat info.format ∧
      ReadsBack info D (Aiff.aiffFile d D) src := by
  have hnum : Aiff.numChannels info = info.numChannels := Nat.mod_eq_of_lt (by omega)
  have hwritten : Aiff.writtenFrames info D.length = D.length / info.bytesPerFrame :=
    Aiff.writtenFrames_of_lt hch.2 (by omega)
  have hok : Aiff.readable d D.length :=
    (Aiff.readable_iff hch hne hframes (by omega)).2 hrate
  have hbytes : (Aiff.headerInfo native (Aiff.headerComm d D.length)).bytesPerFrame =
      info.bytesPerFrame := congrArg (fun n => sizeT (info.bytesPerSample * n)) hnum
  have hnumBytes : (Aiff.headerInfo native (Aiff.headerComm d D.length)).numBytes = D.length := by
    refine IfstreamInfo.numBytes_of_dvd _ ?_ (by rw [hbytes]; exact hframes) (by omega)
      (le_trans hok.2.2.1 (by decide))
    rw [hbytes]
    exact hwritten
  obtain ⟨src, hsrc, hbeg, hinfo⟩ : ∃ src,
      Aiff.AiffSource.construct P native 3 (File.opened (Aiff.aiffFile d D)) = some (.ok src) ∧
        src.view.beg = 58 ∧ src.info = Aiff.headerInfo native (Aiff.headerComm d D.length) := by
    obtain ⟨pos, hsrc⟩ := Aiff.construct_aiffFile native hsize hok
    exact ⟨_, hsrc, rfl, rfl⟩
  obtain ⟨f, -, hsized, hat⟩ := Aiff.construct_of_file (at_opened (Aiff.aiffContent d D hsize)) hsrc
  rw [← hinfo] at hnumBytes
  obtain ⟨hdata, hall⟩ := audioData_append src
    (Aiff.aiffHeader d (uint32 (uint32 (58 + D.length) - 8))
      (D.length % 2 ^ 32 / Aiff.frameSize info % 2 ^ 32) ((D.length + 8) % 2 ^ 32))
    (by rw [hbeg, Aiff.length_aiffHeader]; rfl) hnumBytes
  have hself : src.info.format = Aiff.readFormat info.format := by
    rw [hinfo]
    rfl
  refine ⟨src, hsrc, hself, ?_, ?_, ?_, hdata,
    fun h order => hat.streamsAudioData hsized hall h order⟩
  · change src.info.numChannels = _
    rw [hinfo]
    exact hnum
  · change src.info.format.bitwidth.bits = _
    rw [hself]
    rfl
  · change src.info.numFrames = _
    rw [hinfo]
    exact hwritten

/-- **AIFF files of streams.**  For each info that the sink accepts, if its sample
    rate comes back positive: the same, with the format that the header says. -/
theorem aiff_streams (h : Host) (P : Platform) (native : EndianType) (info : StreamInfo)
    (haccepted : Aiff.accepted P info) (hch : info.numChannels ≤ 255)
    (hrate : ∀ bs, doubleToIeee80 P (.ofNat info.sampleRate) = .ok bs →
      (ieee80ToDouble bs).le (Double.ofNat 0) = false) (calls : List InsertCall)
    (hne : insertedBytes h info calls ≠ [])
    (hframes : info.bytesPerFrame ∣ (insertedBytes h info calls).length)
    (hsize : 58 + (insertedBytes h info calls).length < 2 ^ 32) :
    ∃ sink file src, Aiff.AiffSink.construct P info (File.opened []) = .ok sink ∧
      WritesFile h (Aiff.AiffSink.close native) sink calls file ∧
      Aiff.AiffSource.construct P native 3 (File.opened file) = some (.ok src) ∧
      src.info.format = Aiff.readFormat info.format ∧
      ReadsBack info (insertedBytes h info calls) file src := by
  have hpos : info.numChannels ≠ 0 := (Aiff.accepted_iff.1 haccepted).1
  obtain ⟨sink, hsink⟩ := haccepted
  obtain ⟨d, hat⟩ := Aiff.construct_sinkAt hsink
  obtain ⟨src, hsrc, hformat, hback⟩ := Aiff.readsBack native d ⟨by omega, hch⟩
    (hrate d.rate d.rate_eq) hne hframes hsize
  refine ⟨sink, _, src, hsink, SinkAt.writesFile hat ?_ ?_, hsrc, hformat, hback⟩
  · rw [Aiff.length_aiffHeader]
    exact le_maxPos (by omega)
  · intro sink' hat'
    exact Aiff.close_written hat' (by omega)

end

/-- A frame of two samples of 24 bits. -/
theorem aiff_streams_s24be :
    ∃ sink file src, Aiff.AiffSink.construct .powersOfTwo Aiff.s24beStereo (File.opened []) =
        .ok sink ∧
      WritesFile (.ofNative .littleEndian) (Aiff.AiffSink.close .littleEndian) sink
        [.value (.integer ⟨true, .w32⟩) 256, .sampleTellp, .write [0, 0, 2]] file ∧
      Aiff.AiffSource.construct .powersOfTwo .littleEndian 3 (File.opened file) =
        some (.ok src) ∧
      src.info.format = Aiff.readFormat Aiff.s24beStereo.format ∧
      ReadsBack Aiff.s24beStereo [0, 0, 1, 0, 0, 2] file src := by
  have hbytes : insertedBytes (.ofNative .littleEndian) Aiff.s24beStereo
      [.value (.integer ⟨true, .w32⟩) 256, .sampleTellp, .write [0, 0, 2]] =
        [0, 0, 1, 0, 0, 2] := by decide
  have hback := aiff_streams (.ofNative .littleEndian) .powersOfTwo .littleEndian Aiff.s24beStereo
    (Aiff.accepted_iff.2 ⟨by decide, ⟨Aiff.s24beData⟩⟩) (by decide)
    (fun bs hbs => by rw [Aiff.s24beData.rate_eq] at hbs; cases hbs; decide)
    [.value (.integer ⟨true, .w32⟩) 256, .sampleTellp, .write [0, 0, 2]]
    (by rw [hbytes]; decide) (by rw [hbytes]; decide) (by rw [hbytes]; decide)
  rwa [hbytes] at hback

/-! ## Values -/

namespace Istream.Request

variable {V : ArithType}

/-- The values that a request is about. -/
def values : Request V → List V.Val
  | value val => [val]
  | range rng => rng

/-- `stream << value` or `stream << range`. -/
def inserting : Request V → InsertCall
  | value val => .value V val
  | range rng => .range V rng

/-- `stream >> value` or `stream >> range`. -/
def extracting : Request V → ClientCall
  | value val => .value V val
  | range rng => .range V rng

end Istream.Request

open Istream (Request)

section
variable {h : Host} {V : ArithType} {f : RuntimeFormat}

theorem insertedBytes_values (info : StreamInfo) (ins : List (Request V)) :
    insertedBytes h info (ins.map Request.inserting) =
      (ins.flatMap Request.values).flatMap (h.write V info.format) := by
  rw [insertedBytes, List.flatMap_map, List.flatMap_assoc]
  refine List.flatMap_congr ?_
  intro r _
  cases r with
  | value val => exact (List.flatMap_singleton _ val).symm
  | range rng => rfl

/-- The samples of values that have been written. -/
theorem samples_written {g : RuntimeFormat} (hfg : f.bitwidth.numBytes = g.bitwidth.numBytes)
    (vals : List V.Val) :
    samples h V f (vals.flatMap (h.write V g)) 0 vals.length =
      vals.map fun v => h.read V f (h.write V g v) := by
  refine List.ext_getElem (by rw [length_samples, List.length_map]) ?_
  intro i hi hi'
  rw [List.length_map] at hi'
  have hlen : ∀ v : V.Val, (h.write V g v).length = f.bitwidth.numBytes := by
    intro v
    rw [h.write_eq, Host.length_writeImpl, hfg]
    rfl
  simp only [samples, List.getElem_map, List.getElem_range, Nat.zero_add]
  rw [slice_flatMap hlen vals i hi']

theorem length_written (g : RuntimeFormat) (vals : List V.Val) :
    (vals.flatMap (h.write V g)).length = vals.length * g.bitwidth.numBytes := by
  induction vals with
  | nil => exact (Nat.zero_mul _).symm
  | cons v vals ih =>
    have hlen : (h.write V g v).length = g.bitwidth.numBytes := by
      rw [h.write_eq, Host.length_writeImpl]
      rfl
    rw [List.flatMap_cons, List.length_append, ih, hlen, List.length_cons, Nat.succ_mul,
      Nat.add_comm]

namespace SampleStream

variable {a : SampleStream}

/-- A request for samples that are left. -/
theorem step_request (hgood : a.eofbit = false ∧ a.failbit = false) (r : Request V)
    (hleft : r.count * a.info.bytesPerSample ≤ a.cursor.left.length) :
    ∃ a', a.step h r.extracting =
        (.values V (samples h V a.info.format a.cursor.left 0 r.count), a') ∧
      (a'.eofbit = false ∧ a'.failbit = false) ∧ a'.info = a.info ∧
      a'.cursor.left = a.cursor.left.drop (r.count * a.info.bytesPerSample) := by
  obtain ⟨heof, hfail⟩ := hgood
  have hstay : ¬ (a.eofbit = true ∨ a.failbit = true) := by
    rw [heof, hfail]
    exact fun h => h.elim Bool.false_ne_true Bool.false_ne_true
  have hwidth : a.info.format.bitwidth.numBytes = a.info.bytesPerSample := rfl
  cases r with
  | value val =>
    have hle : a.info.bytesPerSample ≤ a.cursor.left.length := by
      rwa [Request.count, Nat.one_mul] at hleft
    have hlen : (a.cursor.next a.info.bytesPerSample).length = a.info.bytesPerSample := by
      rw [Cursor.next_eq_take, List.length_take, Nat.min_eq_left hle]
    have hread : a.read a.info.bytesPerSample = (a.cursor.next a.info.bytesPerSample,
        { a with cursor := (a.cursor.read a.info.bytesPerSample).2 }) := by
      rw [SampleStream.read, if_neg hstay, if_pos hlen]
    refine ⟨{ a with cursor := (a.cursor.read a.info.bytesPerSample).2 }, ?_, ⟨heof, hfail⟩, rfl,
      ?_⟩
    · simp only [Request.extracting, step, SampleStream.value, hread, hfail, Request.count,
        samples_one, Cursor.next_eq_take, hwidth, Bool.false_eq_true, if_false]
    · rw [Request.count, Nat.one_mul]
      exact a.cursor.left_read _
  | range rng =>
    by_cases hzero : rng.length = 0
    · refine ⟨a, ?_, ⟨heof, hfail⟩, rfl, ?_⟩
      · obtain rfl := List.length_eq_zero_iff.1 hzero
        simp only [Request.extracting, step, SampleStream.range, List.length_nil, or_true, if_true]
        rfl
      · rw [Request.count, hzero, Nat.zero_mul, List.drop_zero]
    · have hle : rng.length ≤ a.remaining :=
        (Nat.le_div_iff_mul_le a.info.bytesPerSample_pos).2 hleft
      have hmin : min rng.length a.remaining = rng.length := Nat.min_eq_left hle
      have hsome : ¬ (a.failbit = true ∨ rng.length = 0) := by
        rw [hfail]
        exact fun h => h.elim Bool.false_ne_true hzero
      have hnot : decide (a.remaining < rng.length) = false := decide_eq_false (by omega)
      refine ⟨{ a with cursor := (a.cursor.read (rng.length * a.info.bytesPerSample)).2 }, ?_,
        ⟨heof, hfail⟩, rfl, a.cursor.left_read _⟩
      simp only [Request.extracting, step, SampleStream.range, if_neg hsome,
        if_neg (show ¬ a.remaining = 0 by omega), hmin, Nat.sub_self, List.replicate_zero,
        List.append_nil, hnot, Bool.or_false, Request.count]

/-- **Requests** get the samples that are left, in order. -/
theorem run_requests (hgood : a.eofbit = false ∧ a.failbit = false) (outs : List (Request V))
    {m : ℕ} (htotal : Istream.total outs ≤ m)
    (hleft : m * a.info.bytesPerSample ≤ a.cursor.left.length) :
    run (SampleStream.step h) a (outs.map Request.extracting) =
      ((outs.map Request.count).splitLengths (samples h V a.info.format a.cursor.left 0 m)).map
        (.values V) := by
  induction outs generalizing a m with
  | nil => rfl
  | cons r outs ih =>
    rw [Istream.total_cons] at htotal
    have hm : r.count * a.info.bytesPerSample + (m - r.count) * a.info.bytesPerSample =
        m * a.info.bytesPerSample := by
      rw [← Nat.add_mul]
      congr 1
      omega
    obtain ⟨a', hstep, hgood', hinfo, hleft'⟩ := step_request (h := h) hgood r (by omega)
    have hrest := ih (m := m - r.count) hgood' (by omega) (by
      rw [hleft', hinfo, List.length_drop]
      omega)
    rw [hinfo] at hrest
    rw [List.map_cons, run, hstep, hrest, List.map_cons, List.splitLengths_cons, List.map_cons,
      samples_cut (show r.count ≤ m by omega) hleft', List.take_left' (length_samples _ _ _),
      List.drop_left' (length_samples _ _ _)]

/-- A client may always ask for samples. -/
theorem along_requests (F start : ℕ) (E : Targets) (a : SampleStream)
    (outs : List (Request V)) :
    Along (SampleStream.step h) (fun a call => a.Allowed F start call ∧ a.Reaches E call) a
      (outs.map Request.extracting) := by
  induction outs generalizing a with
  | nil => exact trivial
  | cons r outs ih =>
    refine ⟨?_, ih _⟩
    cases r with
    | value val => exact ⟨trivial, trivial⟩
    | range rng => exact ⟨trivial, trivial⟩

end SampleStream

/-- A stream over written values delivers them, as they are read, however they are
    asked for. -/
theorem ReadsBack.values {ι : Type} [ToIfstreamInfo ι] {info : StreamInfo} {file : List UInt8}
    {src : HeaderSource ι File} {vals : List V.Val}
    (hback : ReadsBack info (vals.flatMap (h.write V info.format)) file src)
    {outs : List (Request V)} (htotal : Istream.total outs ≤ vals.length) (order : EvaluationOrder)
    {s : SourceStream (HeaderSource ι File)}
    (hs : SourceStream.Opened
      ((ToIfstreamInfo.toIfstreamInfo src.info).bytesPerBuffer framesPerBuffer) src
      (ToIfstreamInfo.toIfstreamInfo src.info).toStreamInfo s) (answers : List ClientAnswer) :
    (∃ s', Runs (SourceStream.Step h order
        ((ToIfstreamInfo.toIfstreamInfo src.info).bytesPerBuffer framesPerBuffer)) s
        (outs.map Request.extracting) answers s') ↔
      answers = ((outs.map Request.count).splitLengths (vals.map fun v =>
        h.read V (ToIfstreamInfo.toIfstreamInfo src.info).format (h.write V info.format v))).map
          (.values V) := by
  obtain ⟨-, hruns⟩ := hback.streams h order
  have hwidth : (ToIfstreamInfo.toIfstreamInfo src.info).bytesPerSample = info.bytesPerSample :=
    congrArg (· / 8) hback.bitsPerSample
  have hleft : (SampleStream.opened (ToIfstreamInfo.toIfstreamInfo src.info).toStreamInfo
      (vals.flatMap (h.write V info.format))).cursor.left =
        vals.flatMap (h.write V info.format) := List.drop_zero
  have hlen : vals.length * (ToIfstreamInfo.toIfstreamInfo src.info).bytesPerSample ≤
      (vals.flatMap (h.write V info.format)).length := by
    rw [hwidth, length_written]
    rfl
  rw [hruns s hs _ (SourceStream.along_anywhere.1 (SampleStream.along_requests _ _ _ _ outs))
      answers, hback.audioData,
    SampleStream.run_requests ⟨rfl, rfl⟩ outs htotal (by rw [hleft]; exact hlen), hleft]
  have hwritten := samples_written (h := h) (V := V)
    (f := (ToIfstreamInfo.toIfstreamInfo src.info).format) (g := info.format) hwidth vals
  rw [← hwritten]
  rfl

/-- **Values** of an integer type that are inserted into a WAV file of an integer
    format, one by one or in ranges, come back one by one or in ranges: as they
    were, or cut to the bits of the format if this has less. -/
theorem wav_values (h : Host) (native : EndianType) (info : StreamInfo)
    (hformat : info.format.tag ∈ Wav.wavFormats native)
    (hinteger : info.format.number ≠ .floatingPoint)
    (hch : 1 ≤ info.numChannels ∧ info.numChannels ≤ 255)
    (hrate : 1 ≤ info.sampleRate ∧ info.sampleRate < 2 ^ 32) (V : IntType)
    (ins outs : List (Request (.integer V)))
    (hne : ins.flatMap Request.values ≠ [])
    (hframes : info.numChannels ∣ (ins.flatMap Request.values).length)
    (hsize : 44 + (ins.flatMap Request.values).length * info.bytesPerSample < 2 ^ 32)
    (htotal : Istream.total outs ≤ (ins.flatMap Request.values).length) :
    ∃ sink file src, Wav.WavSink.construct native info (File.opened []) = .ok sink ∧
      WritesFile h (Wav.WavSink.close native) sink (ins.map Request.inserting) file ∧
      Wav.WavSource.construct native 2 (File.opened file) = some (.ok src) ∧
      ∀ order s, SourceStream.Opened (src.info.bytesPerBuffer framesPerBuffer) src
          src.info.toStreamInfo s →
        ∀ answers, (∃ s', Runs (SourceStream.Step h order
            (src.info.bytesPerBuffer framesPerBuffer)) s (outs.map Request.extracting)
            answers s') ↔
          answers = ((outs.map Request.count).splitLengths
            ((ins.flatMap Request.values).map fun v : V.Val =>
              if info.bitsPerSample < V.bits then
                v &&& (BitVec.allOnes V.bits <<< (V.bits - info.bitsPerSample)) else v)).map
                  (.values (.integer V)) := by
  generalize hvals : ins.flatMap Request.values = vals at *
  have hbytes := insertedBytes_values (h := h) info ins
  rw [hvals] at hbytes
  have hlen : (vals.flatMap (h.write (.integer V) info.format)).length =
      vals.length * info.bytesPerSample := length_written _ _
  have hpos : 0 < vals.length * info.bytesPerSample :=
    Nat.mul_pos (List.length_pos_of_ne_nil hne) info.bytesPerSample_pos
  obtain ⟨sink, hsink, hfile⟩ := Wav.writesFile h native info (ins.map Request.inserting)
    (by rw [hbytes, hlen]; omega)
  rw [hbytes] at hfile
  obtain ⟨src, hsrc, hformat', -, hback⟩ := Wav.readsBack hformat hch hrate
    (List.ne_nil_of_length_pos (by rwa [hlen]))
    (by
      rw [hlen, info.bytesPerFrame_of_le (by omega), Nat.mul_comm]
      exact Nat.mul_dvd_mul_right hframes _)
    (by rwa [hlen])
  refine ⟨sink, _, src, hsink, hfile, hsrc, ?_⟩
  intro order s hs answers
  have hcoded : (fun v => h.read (.integer V) (ToIfstreamInfo.toIfstreamInfo src.info).format
      (h.write (.integer V) info.format v)) = fun v : V.Val =>
        if info.bitsPerSample < V.bits then
          v &&& (BitVec.allOnes V.bits <<< (V.bits - info.bitsPerSample)) else v := by
    funext v
    have hsame : (ToIfstreamInfo.toIfstreamInfo src.info).format = info.format := hformat'
    have hcut : read h.native V _ (write h.native V _ v) = _ :=
      read_write ⟨info.format, hinteger⟩ v
    rw [hsame, h.write_integer V ⟨info.format, hinteger⟩ v,
      h.read_integer V ⟨info.format, hinteger⟩, hcut]
    rfl
  have hall := hback.values htotal order hs answers
  rw [hcoded] at hall
  exact hall

end

/-- Two values of 32 bits, inserted as a range into a file of 16 bits, and read one
    by one: they lose their low bits. -/
theorem wav_values_s16le :
    ∃ sink file src, Wav.WavSink.construct .littleEndian Wav.s16leStereo (File.opened []) =
        .ok sink ∧
      WritesFile (.ofNative .littleEndian) (Wav.WavSink.close .littleEndian) sink
        [.range (.integer ⟨true, .w32⟩) [0x12345678, 0x10000]] file ∧
      Wav.WavSource.construct .littleEndian 2 (File.opened file) = some (.ok src) ∧
      ∀ order s, SourceStream.Opened (src.info.bytesPerBuffer framesPerBuffer) src
          src.info.toStreamInfo s →
        ∀ answers, (∃ s', Runs (SourceStream.Step (.ofNative .littleEndian) order
            (src.info.bytesPerBuffer framesPerBuffer)) s
            [.value (.integer ⟨true, .w32⟩) 0, .value (.integer ⟨true, .w32⟩) 0]
            answers s') ↔
          answers = [.values (.integer ⟨true, .w32⟩) [0x12340000],
            .values (.integer ⟨true, .w32⟩) [0x10000]] :=
  wav_values (.ofNative .littleEndian) .littleEndian Wav.s16leStereo (by decide) (by decide)
    (by decide) (by decide) ⟨true, .w32⟩ [.range [0x12345678, 0x10000]] [.value 0, .value 0]
    (by decide) (by decide) (by decide) (by decide)

end NiMedia
