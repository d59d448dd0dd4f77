/-
  Sources and sinks with a header (`wav_source`, `aiff_source`, `wav_sink` and
  `aiff_sink`): views on a device that are narrowed to the audio data once the
  header has been read or written.
-/
import NiMedia.Audio.StreamInfo
import NiMedia.Iostreams.FileView

namespace NiMedia

open Simulation

/-- The infos of the file formats extend `audio::ifstream_info`. -/
class ToIfstreamInfo (ι : Type) where
  toIfstreamInfo : ι → IfstreamInfo

/-! ## Sources -/

/-- A source with an info of type `ι`. -/
structure HeaderSource (ι δ : Type) where
  view : Subview δ
  info : ι

namespace HeaderSource

variable {ι δ : Type} [ToIfstreamInfo ι]

section
variable [Source δ]

def seek (off : ℤ) (way : SeekDir) (s : HeaderSource ι δ) : ℤ × HeaderSource ι δ :=
  let (pos, view) := s.view.seek off way
  (pos, { s with view })

/-- `m_info.bytes_per_frame()`. -/
def bytesPerFrame (s : HeaderSource ι δ) : ℕ :=
  (ToIfstreamInfo.toIfstreamInfo s.info).bytesPerFrame

/-- The count is rounded down to whole frames. -/
def read (n : ℕ) (s : HeaderSource ι δ) : Option (List UInt8) × HeaderSource ι δ :=
  let (r, view) := s.view.read n
  (r.map fun bs => bs.take (bs.length - bs.length % s.bytesPerFrame), { s with view })

instance : Source (HeaderSource ι δ) where
  seek := seek
  read := read

/-- The constructor, with the reader of the header and the default info. -/
def construct (readHeader : HeaderSource ι δ → Option (Except RuntimeError (ι × HeaderSource ι δ)))
    (info : ι) (device : δ) : Option (Except RuntimeError (HeaderSource ι δ)) :=
  (readHeader ⟨{ device }, info⟩).map fun r => r.map fun (info, s) =>
    let (pos, view) := s.view.seek 0 .cur
    { view := view.setView pos (pos + (ToIfstreamInfo.toIfstreamInfo info).numBytes), info }

end

/-- The source is opened with what the header reader does. -/
theorem construct_map [Source δ] {info : ι} {d : δ}
    {readHeader : HeaderSource ι δ → Option (Except RuntimeError (ι × HeaderSource ι δ))}
    {τ : Type} {R : HeaderSource ι δ → τ → Prop} {r : Except RuntimeError (ι × τ)}
    (h : Option.Rel (Agree fun x y => x.1 = y.1 ∧ R x.2 y.2) (readHeader ⟨{ device := d }, info⟩)
      (some r)) :
    ∃ x, construct readHeader info d = some x ∧ x.map (·.info) = r.map Prod.fst := by
  cases hx : readHeader ⟨{ device := d }, info⟩ with
  | none => rw [hx] at h; cases h
  | some x =>
    rw [hx] at h
    refine ⟨_, congrArg (Option.map _) hx, ?_⟩
    cases h with
    | some hagree =>
      rw [← Agree.map_fst hagree]
      cases x <;> rfl

/-- While the frames of the info are bytes, the rounding does nothing. -/
instance [ByteSource δ] : ByteSource (HeaderSource ι δ) where
  At B p s := ByteSource.At B p s.view ∧ s.bytesPerFrame = 1
  read_at := by
    rintro B p ⟨view, info⟩ n ⟨hat, hframe⟩
    obtain ⟨view', hread, hat'⟩ := ByteSource.read_at n hat
    have hread : view.read n = _ := hread
    refine ⟨⟨view', info⟩, ?_, hat', hframe⟩
    simp only [Source.read, HeaderSource.read, hread, hframe, Nat.mod_one, Nat.sub_zero,
      List.take_length, Option.map_id']
  tell_at := by
    rintro B p ⟨view, info⟩ ⟨hat, hframe⟩
    obtain ⟨r, view', hseek, hat', hr⟩ := ByteSource.tell_at hat
    have hseek : view.seek 0 .cur = _ := hseek
    refine ⟨r, ⟨view', info⟩, ?_, ⟨hat', hframe⟩, hr⟩
    simp only [Device.seek, HeaderSource.seek, hseek]
  seek_beg_at := by
    rintro B p ⟨view, info⟩ q ⟨hat, hframe⟩ hq
    obtain ⟨r, view', hseek, hin, hout⟩ := ByteSource.seek_beg_at q hat hq
    have hseek : view.seek q .beg = _ := hseek
    refine ⟨r, ⟨view', info⟩, ?_, fun h => ?_, fun h => ?_⟩
    · simp only [Device.seek, HeaderSource.seek, hseek]
    · exact ⟨(hin h).1, (hin h).2, hframe⟩
    · exact ⟨(hout h).1, (hout h).2.1, fun p' hp' => ⟨(hout h).2.2 p' hp', hframe⟩⟩
  seek_cur_at := by
    rintro B p ⟨view, info⟩ d ⟨hat, hframe⟩ hp hd
    obtain ⟨r, view', hseek, hat'⟩ := ByteSource.seek_cur_at d hat hp hd
    have hseek : view.seek d .cur = _ := hseek
    refine ⟨r, ⟨view', info⟩, ?_, hat', hframe⟩
    simp only [Device.seek, HeaderSource.seek, hseek]

end HeaderSource

/-- A default info, of signed 8 bit mono. -/
theorem bytesPerFrame_of_default {info : StreamInfo} {native : EndianType}
    (h : info.format = RuntimeFormat.default native) (hch : info.numChannels = 1) :
    info.bytesPerFrame = 1 := by
  have hbits : info.bitsPerSample = 8 := by
    rw [StreamInfo.bitsPerSample, h]; rfl
  rw [StreamInfo.bytesPerFrame, StreamInfo.bytesPerSample, hbits, hch, sizeT_of_lt (by decide)]

section
variable {δ : Type} [ByteSource δ] {B : Content}

theorem at_container (B : Content) : ByteSource.At B 0 (Container.mk' B.bytes) :=
  ⟨rfl, by simp [Container.mk']⟩

theorem at_opened (B : Content) : ByteSource.At B 0 (File.opened B.bytes) :=
  ⟨rfl, fun _ => rfl, fun h => by omega⟩

/-- A source before its header has been read. -/
theorem at_unread {ι : Type} [ToIfstreamInfo ι] {info : ι} {p : ℕ} {d : δ}
    (hframe : (ToIfstreamInfo.toIfstreamInfo info).bytesPerFrame = 1) (h : ByteSource.At B p d) :
    ByteSource.At B p (⟨{ device := d }, info⟩ : HeaderSource ι δ) :=
  ⟨⟨h, rfl, rfl⟩, hframe⟩

end

/-- The source on a file, whose header reader has stopped at position `p`. -/
theorem construct_file {ι : Type} [ToIfstreamInfo ι] {B : Content} {p : ℕ} {info₀ info : ι}
    {s : HeaderSource ι File}
    (readHeader : HeaderSource ι File → Option (Except RuntimeError (ι × HeaderSource ι File)))
    (h : readHeader ⟨{ device := File.opened B.bytes }, info₀⟩ = some (.ok (info, s)))
    (hat : ByteSource.At B p s) (hp : p ≤ B.bytes.length) :
    ∃ pos, HeaderSource.construct readHeader info₀ (File.opened B.bytes) =
      some (.ok
        ⟨⟨⟨B.bytes, pos⟩, p, p + (ToIfstreamInfo.toIfstreamInfo info).numBytes⟩, info⟩) := by
  obtain ⟨r, ⟨⟨bytes, pos⟩, beg, end_⟩, htell, ⟨⟨hbytes, -⟩, -⟩, hr, -⟩ := Subview.tell_at hat.1
  have htell : s.view.seek 0 .cur = _ := htell
  obtain rfl : bytes = B.bytes := hbytes
  obtain rfl : r = p := hr hp
  exact ⟨pos, by simp only [HeaderSource.construct, h, Option.map_some, Except.map, htell,
    Subview.setView]⟩

/-! ## Sinks -/

/-- A sink that remembers positions of its header in an `ω`. -/
structure HeaderSink (ω δ : Type) where
  view : Subview δ
  info : StreamInfo
  offsets : ω

namespace HeaderSink

variable {ω δ : Type} [Sink δ]

/-- The constructor, with the writer of the header. -/
def construct (writeHeader : Io (Subview δ) ω) (info : StreamInfo) (device : δ) :
    Except RuntimeError (HeaderSink ω δ) := do
  let (offsets, view) ← writeHeader { device }
  let (pos, view) := view.tell
  pure ⟨view.setView pos maxPos, info, offsets⟩

def write (bs : List UInt8) (s : HeaderSink ω δ) : Option ℕ × HeaderSink ω δ :=
  let (r, view) := s.view.write bs
  (r, { s with view })

/-- `close`, with what is left to be done with the header. -/
def close (closeHeader : StreamInfo → ω → Io (Subview δ) Unit) (native : EndianType)
    (s : HeaderSink ω δ) : Except RuntimeError (HeaderSink ω δ) := do
  let ((), view) ← closeHeader s.info s.offsets (s.view.setView 0 maxPos)
  pure { s with
    view := { view with device := Sink.close view.device }
    info := { format := RuntimeFormat.default native } }

/-- Blocks written one after the other. -/
def writeAll (ws : List (List UInt8)) (s : HeaderSink ω δ) : HeaderSink ω δ :=
  ws.foldl (fun s bs => (s.write bs).2) s

theorem construct_of {writeHeader : Io (Subview δ) ω} {info : StreamInfo} {device : δ} {offsets : ω}
    {view view' : Subview δ} {pos : ℤ} (h : writeHeader { device } = .ok (offsets, view))
    (htell : view.tell = (pos, view')) :
    construct writeHeader info device = .ok ⟨view'.setView pos maxPos, info, offsets⟩ := by
  rw [construct, h, ok_bind]
  simp only [htell]
  rfl

theorem close_of {closeHeader : StreamInfo → ω → Io (Subview δ) Unit} {native : EndianType}
    {s : HeaderSink ω δ} {view : Subview δ}
    (h : closeHeader s.info s.offsets (s.view.setView 0 maxPos) = .ok ((), view)) :
    close closeHeader native s = .ok { s with
      view := { view with device := Sink.close view.device }
      info := { format := RuntimeFormat.default native } } := by
  rw [close, h, ok_bind]
  rfl

theorem writeAll_eq (ws : List (List UInt8)) (s : HeaderSink ω δ) :
    s.writeAll ws =
      { s with view := ws.foldl (fun s bs => (Subview.write bs s).2) s.view } := by
  unfold writeAll
  induction ws generalizing s with
  | nil => rfl
  | cons bs ws ih => rw [List.foldl_cons, ih]; rfl

section
variable {writeHeader : Io (Subview File) ω} (closeHeader : StreamInfo → ω → Io (Subview File) Unit)
  (native : EndianType) (info : StreamInfo) {offsets : ω} {header : List UInt8}

/-- A sink on a new file. -/
theorem construct_opened (h : Appends writeHeader 0 header offsets)
    (hmax : header.length < 2 ^ 63) :
    construct writeHeader info (File.opened []) =
      .ok ⟨fileView header header.length header.length, info, offsets⟩ := by
  have hrun := h [] rfl (le_maxPos (by rw [Nat.zero_add]; exact hmax))
  rw [Nat.zero_add, List.nil_append, ← fileView_opened] at hrun
  have htell : (fileView header header.length 0).tell = _ :=
    tell_fileView (Nat.zero_le _) (le_maxPos hmax)
  rw [construct_of hrun htell, Nat.sub_zero, setView_fileView rfl]

/-- **The file** that is left when the blocks have been written and the sink has
    been closed. -/
theorem close_writeAll {ws : List (List UInt8)} {file : List UInt8} {p : ℕ}
    (hmax : header.length + ws.flatten.length < 2 ^ 63)
    (h : closeHeader info offsets
      (fileView (header ++ ws.flatten) (header.length + ws.flatten.length) 0) =
        .ok ((), fileView file p 0)) :
    ∃ s, close closeHeader native
      (writeAll ws ⟨fileView header header.length header.length, info, offsets⟩) = .ok s ∧
        s.view.device.bytes = file := by
  have hwrite := foldl_write_fileView ws header le_rfl (le_maxPos hmax)
  rw [List.length_append] at hwrite
  have hview : (fileView (header ++ ws.flatten) (header.length + ws.flatten.length)
      header.length).setView 0 maxPos = fileView (header ++ ws.flatten)
        (header.length + ws.flatten.length) 0 := setView_fileView Nat.cast_zero.symm
  rw [writeAll_eq, hwrite]
  exact ⟨_, close_of (s := ⟨fileView _ _ header.length, info, offsets⟩)
    ((congrArg (closeHeader info offsets) hview).trans h), rfl⟩

end

end HeaderSink

end NiMedia
