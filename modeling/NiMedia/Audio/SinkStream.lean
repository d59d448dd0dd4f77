/-
  Streams into a sink with a header (`audio/ostream.h`, `ostream.cpp`,
  `iostreams/stream_buffer.h`), for any run of calls.

  The buffer of a stream keeps characters back, and writes what it has kept to the
  sink in blocks of its choice; `Step` leaves to the buffer when it does.  All that
  a client can do is to append, and to ask for the position.

  * `serves`: all calls are served, and answered as by a list of bytes that grows.
  * `Tracks.closes`: closing leaves a sink that has been written these bytes.
-/
import NiMedia.Audio.Positions
import NiMedia.Audio.SinkRun
import NiMedia.Lib.Runs

namespace NiMedia

open Machine

/-! ## Calls -/

/-- What a client calls: `write`, `operator<<` for a value and for a range,
    `tellp`, `sample_tellp` and `frame_tellp`. -/
inductive InsertCall where
  | write (bs : List UInt8)
  | value (V : ArithType) (val : V.Val)
  | range (V : ArithType) (rng : List V.Val)
  | tellp
  | sampleTellp
  | frameTellp

namespace InsertCall

variable (h : Host) (info : StreamInfo)

/-- The characters that are put into the buffer. -/
def inserted : InsertCall → List UInt8
  | write bs => bs
  | value V val => h.write V info.format val
  | range V rng => rng.flatMap (h.write V info.format)
  | tellp | sampleTellp | frameTellp => []

/-- A position, in the unit that is asked for. -/
def told (p : ℤ) : InsertCall → Option ℤ
  | sampleTellp => tellUnit p info.bytesPerSample
  | frameTellp => tellUnit p info.bytesPerFrame
  | _ => some p

def tells : InsertCall → Bool
  | tellp | sampleTellp | frameTellp => true
  | _ => false

/-- A call that asks inserts nothing. -/
theorem inserted_of_tells {call : InsertCall} (hcall : call.tells = true) :
    call.inserted h info = [] := by
  cases call <;> first | rfl | cases hcall

end InsertCall

inductive InsertAnswer where
  | nothing
  | position (p : Option ℤ)

/-! ## Bytes that grow -/

/-- What an output stream is for. -/
structure GrowingBytes where
  bytes : List UInt8
  info : StreamInfo

namespace GrowingBytes

variable (h : Host)

def step (a : GrowingBytes) (call : InsertCall) : InsertAnswer × GrowingBytes :=
  (if call.tells then .position (call.told a.info a.bytes.length) else .nothing,
    { a with bytes := a.bytes ++ call.inserted h a.info })

/-- There is room behind a header of `n` bytes. -/
def Room (n : ℕ) (a : GrowingBytes) (call : InsertCall) : Prop :=
  ((n + (a.bytes ++ call.inserted h a.info).length : ℕ) : ℤ) ≤ maxPos

end GrowingBytes

/-! ## Streams -/

/-- An `audio::ostream` with its sink, and the characters that the buffer keeps. -/
structure SinkStream (ω : Type) where
  sink : HeaderSink ω File
  pending : List UInt8

namespace SinkStream

variable {ω : Type}

/-- The sink takes the blocks. -/
def sinkAfter (s : SinkStream ω) (ws : List (List UInt8)) : HeaderSink ω File :=
  after HeaderSink.sinkStep s.sink (ws.map .write)

/-- The buffer gets some characters, and gives some of those that it has to the
    sink, which takes them all. -/
structure Puts (s : SinkStream ω) (bs : List UInt8) (ws : List (List UInt8))
    (s' : SinkStream ω) : Prop where
  kept : ws.flatten ++ s'.pending = s.pending ++ bs
  taken : Along HeaderSink.sinkStep HeaderSink.writesAll s.sink (ws.map .write)
  sink : s'.sink = s.sinkAfter ws

/-- What a call does.  `tellp` empties the buffer before it asks the sink. -/
inductive Step (h : Host) (s : SinkStream ω) : InsertCall → InsertAnswer → SinkStream ω → Prop
  | insert {call : InsertCall} {ws : List (List UInt8)} {s' : SinkStream ω}
    (hcall : call.tells = false) (hputs : Puts s (call.inserted h s.sink.info) ws s') :
    Step h s call .nothing s'
  | tell {call : InsertCall} {ws : List (List UInt8)} {s' : SinkStream ω}
    (hcall : call.tells = true) (hputs : Puts s [] ws s') (hempty : s'.pending = []) :
    Step h s call (.position (call.told s.sink.info (s'.sink.seek 0 .cur).1))
      ⟨(s'.sink.seek 0 .cur).2, []⟩

/-- Closing empties the buffer, and closes the sink. -/
inductive Closes (close : HeaderSink ω File → Except RuntimeError (HeaderSink ω File))
    (s : SinkStream ω) : List UInt8 → Prop
  | mk {ws : List (List UInt8)} {s' : SinkStream ω} {sink : HeaderSink ω File}
    (hputs : Puts s [] ws s') (hempty : s'.pending = []) (hclose : close s'.sink = .ok sink) :
    Closes close s sink.view.device.bytes

/-! ## The invariant -/

/-- What the sink has been written and what the buffer keeps are the bytes. -/
structure Tracks (header : List UInt8) (offsets : ω) (s : SinkStream ω) (a : GrowingBytes) :
    Prop where
  sinkAt : ∃ D, HeaderSink.SinkAt header a.info offsets D (header.length + D.length) s.sink ∧
    D ++ s.pending = a.bytes
  fits : ((header.length + a.bytes.length : ℕ) : ℤ) ≤ maxPos

section
variable {h : Host} {header : List UInt8} {offsets : ω} {s s' : SinkStream ω} {a : GrowingBytes}

theorem Tracks.info_eq (hs : Tracks header offsets s a) : s.sink.info = a.info := by
  obtain ⟨⟨D, hat, -⟩, -⟩ := hs
  rw [hat.eq]

/-- **The buffer** may cut the characters as it likes. -/
theorem Tracks.puts (hs : Tracks header offsets s a) {bs : List UInt8} {ws : List (List UInt8)}
    (hroom : ((header.length + (a.bytes ++ bs).length : ℕ) : ℤ) ≤ maxPos)
    (hputs : Puts s bs ws s') : Tracks header offsets s' { a with bytes := a.bytes ++ bs } := by
  obtain ⟨⟨D, hat, hbytes⟩, -⟩ := hs
  obtain ⟨hkept, htaken, hsink⟩ := hputs
  obtain ⟨hall, hfit⟩ := hat.writes ws
  obtain ⟨-, hat'⟩ := hall (hfit htaken)
  refine ⟨⟨D ++ ws.flatten, ?_, ?_⟩, hroom⟩
  · rw [hsink]
    exact hat'
  · rw [List.append_assoc, hkept, ← List.append_assoc, hbytes]

/-- It may as well give everything to the sink. -/
theorem Tracks.exists_puts (hs : Tracks header offsets s a) {bs : List UInt8}
    (hroom : ((header.length + (a.bytes ++ bs).length : ℕ) : ℤ) ≤ maxPos) :
    ∃ ws s', Puts s bs ws s' ∧ s'.pending = [] := by
  obtain ⟨⟨D, hat, hbytes⟩, -⟩ := hs
  have hone : [s.pending ++ bs].flatten = s.pending ++ bs := List.append_nil _
  obtain ⟨hall, -⟩ := hat.writes [s.pending ++ bs]
  rw [← hbytes, List.append_assoc, List.length_append, ← Nat.add_assoc] at hroom
  rw [hone] at hall
  refine ⟨[s.pending ++ bs], ⟨s.sinkAfter [s.pending ++ bs], []⟩, ⟨?_, (hall hroom).1, rfl⟩, rfl⟩
  rw [hone, List.append_nil]

theorem seek_of (sink : HeaderSink ω File) {off pos : ℤ} {way : SeekDir} {view : Subview File}
    (hseek : sink.view.seek off way = (pos, view)) :
    sink.seek off way = (pos, { sink with view }) :=
  HeaderSink.sinkStep_seek hseek

/-- A sink behind its data. -/
theorem sinkAt_tell {D : List UInt8} {info : StreamInfo} {sink : HeaderSink ω File}
    (hat : HeaderSink.SinkAt header info offsets D (header.length + D.length) sink) :
    sink.seek 0 .cur = ((D.length : ℤ), sink) := by
  obtain ⟨rfl, hle, hmax⟩ := hat
  have hseek : (fileView (header ++ D) (header.length + D.length) header.length).seek 0 .cur = _ :=
    seek_fileView_of (absolutePosition_view_cur hle hmax)
  have hsub : ((header.length + D.length : ℕ) : ℤ) - header.length = D.length := by omega
  rw [hsub] at hseek
  rw [seek_of ⟨fileView _ _ _, info, offsets⟩ hseek]

/-- The position that an empty buffer asks for. -/
theorem Tracks.tell (hs : Tracks header offsets s a) (hempty : s.pending = []) :
    (s.sink.seek 0 .cur).1 = a.bytes.length ∧
      Tracks header offsets ⟨(s.sink.seek 0 .cur).2, []⟩ a := by
  obtain ⟨⟨D, hat, hbytes⟩, hfits⟩ := hs
  rw [hempty, List.append_nil] at hbytes
  rw [sinkAt_tell hat, hbytes]
  exact ⟨rfl, ⟨D, hat, (List.append_nil D).trans hbytes⟩, hfits⟩

/-- **Every call** is served, and answered out of the bytes so far. -/
theorem serves (header : List UInt8) (offsets : ω) :
    Serves (Step h) (GrowingBytes.step h) (GrowingBytes.Room h header.length)
      (Tracks header offsets) where
  total := by
    intro s a call hs hroom
    rcases hcall : call.tells with _ | _
    · obtain ⟨ws, s', hputs, -⟩ := hs.exists_puts hroom
      rw [← hs.info_eq] at hputs
      exact ⟨_, s', .insert hcall hputs⟩
    · rw [GrowingBytes.Room, call.inserted_of_tells h a.info hcall] at hroom
      obtain ⟨ws, s', hputs, hempty⟩ := hs.exists_puts hroom
      exact ⟨_, _, .tell hcall hputs hempty⟩
  answer := by
    intro s a call o s' hs hroom hstep
    cases hstep with
    | insert hcall hputs =>
      rw [hs.info_eq] at hputs
      refine ⟨?_, hs.puts hroom hputs⟩
      rw [GrowingBytes.step, hcall]
      rfl
    | tell hcall hputs hempty =>
      have hnone := call.inserted_of_tells h a.info hcall
      rw [GrowingBytes.Room, hnone] at hroom
      have hs' := hs.puts hroom hputs
      rw [List.append_nil] at hs'
      obtain ⟨hpos, htracks⟩ := hs'.tell hempty
      simp only [GrowingBytes.step, hcall, if_true, hnone, List.append_nil]
      rw [hpos, hs.info_eq]
      exact ⟨rfl, htracks⟩

/-- **Closing** hands the bytes to the sink, behind its header. -/
theorem Tracks.closes_iff (hs : Tracks header offsets s a)
    (close : HeaderSink ω File → Except RuntimeError (HeaderSink ω File)) {file : List UInt8}
    (hclose : ∀ sink, HeaderSink.SinkAt header a.info offsets a.bytes
      (header.length + a.bytes.length) sink →
        ∃ sink', close sink = .ok sink' ∧ sink'.view.device.bytes = file) (r : List UInt8) :
    Closes close s r ↔ r = file := by
  have hroom : ((header.length + (a.bytes ++ []).length : ℕ) : ℤ) ≤ maxPos := by
    rw [List.append_nil]
    exact hs.fits
  have hputs : ∀ ws s', Puts s [] ws s' → s'.pending = [] →
      ∃ sink', close s'.sink = .ok sink' ∧ sink'.view.device.bytes = file := by
    intro ws s' hputs hempty
    have hs' := hs.puts hroom hputs
    rw [List.append_nil] at hs'
    obtain ⟨⟨D, hat, hbytes⟩, -⟩ := hs'
    rw [hempty, List.append_nil] at hbytes
    subst hbytes
    exact hclose _ hat
  constructor
  · intro hcloses
    obtain ⟨hputs', hempty, hok⟩ := hcloses
    obtain ⟨sink', hok', hfile⟩ := hputs _ _ hputs' hempty
    rw [hok'] at hok
    cases hok
    exact hfile
  · rintro rfl
    obtain ⟨ws, s', hputs', hempty⟩ := hs.exists_puts hroom
    obtain ⟨sink', hok, hfile⟩ := hputs _ _ hputs' hempty
    rw [← hfile]
    exact .mk hputs' hempty hok

end

end SinkStream

end NiMedia
