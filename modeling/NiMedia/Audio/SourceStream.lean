/-
  Streams over a source (`audio/istream.h`, `istream.cpp`,
  `iostreams/stream_buffer.h`), for any run of calls.

  The buffer of a stream takes blocks out of its device, keeps what is not
  consumed yet, and may serve a seek out of what it keeps.  `Step` leaves to the
  buffer when it does.  `SampleStream` is what a stream is for: some bytes, a
  position and two bits.

  * `serves`: over a source that acts as a cursor, all calls are served, and
    answered as by a `SampleStream` over the bytes of the source, wherever the
    blocks end and whatever the buffer keeps.
-/
import NiMedia.Audio.Extraction
import NiMedia.Audio.Positions
import NiMedia.Iostreams.Blocks
import NiMedia.Lib.Runs

namespace NiMedia

open Bytes Words StreamBuffer

/-! ## Calls -/

/-- What a client calls: `read`, `operator>>` for a value and for a range,
    `seekg` and its relatives, `tellg`, `clear`, and `rdstate`. -/
inductive ClientCall where
  | read (k : ℕ)
  | value (V : ArithType) (val : V.Val)
  | range (V : ArithType) (rng : List V.Val)
  | seekg (call : SeekCall)
  | tellg
  | clear
  | rdstate

inductive ClientAnswer where
  | bytes (bs : List UInt8)
  | values (V : ArithType) (vs : List V.Val)
  | position (p : ℤ)
  | bits (eofbit failbit : Bool)
  | nothing

/-! ## Samples out of a byte string -/

/-- What a stream is for. -/
structure SampleStream where
  cursor : Cursor
  info : StreamInfo
  eofbit : Bool
  failbit : Bool

namespace SampleStream

variable (h : Host)

/-- How many samples are left. -/
def remaining (a : SampleStream) : ℕ := a.cursor.left.length / a.info.bytesPerSample

/-- The next bytes, and the bits if they are too few. -/
def read (k : ℕ) (a : SampleStream) : List UInt8 × SampleStream :=
  if a.eofbit ∨ a.failbit then ([], { a with failbit := true })
  else if (a.cursor.next k).length = k then
    (a.cursor.next k, { a with cursor := (a.cursor.read k).2 })
  else (a.cursor.next k,
    { a with cursor := (a.cursor.read k).2, eofbit := true, failbit := true })

def value (V : ArithType) (val : V.Val) (a : SampleStream) : V.Val × SampleStream :=
  let r := a.read a.info.bytesPerSample
  (if r.2.failbit then val else h.read V a.info.format r.1, r.2)

/-- The next samples, and zeros if they are too few. -/
def range (V : ArithType) (rng : List V.Val) (a : SampleStream) : List V.Val × SampleStream :=
  if a.failbit ∨ rng.length = 0 then (rng, a)
  else if a.remaining = 0 then (rng, { a with eofbit := true, failbit := true })
  else
    let k := min rng.length a.remaining
    (samples h V a.info.format a.cursor.left 0 k ++ List.replicate (rng.length - k) 0,
      { a with
        cursor := (a.cursor.read (k * a.info.bytesPerSample)).2
        eofbit := a.eofbit || decide (a.remaining < rng.length) })

def seekg (call : SeekCall) (a : SampleStream) : SampleStream :=
  if a.failbit then { a with eofbit := false }
  else { a with eofbit := false, cursor := (a.cursor.seek (call.offset a.info) call.way).2 }

def good (a : SampleStream) : Bool := !a.eofbit && !a.failbit

def step (a : SampleStream) : ClientCall → ClientAnswer × SampleStream
  | .read k => (.bytes (a.read k).1, (a.read k).2)
  | .value V val => (.values V [(a.value h V val).1], (a.value h V val).2)
  | .range V rng => (.values V (a.range h V rng).1, (a.range h V rng).2)
  | .seekg call => (.nothing, a.seekg call)
  | .tellg => (.position (positionIf a.good a.cursor.pos),
      if a.good then a else { a with failbit := true })
  | .clear => (.nothing, { a with eofbit := false, failbit := false })
  | .rdstate => (.bits a.eofbit a.failbit, a)

/-- A stream that has been opened on some bytes. -/
def opened (info : StreamInfo) (D : List UInt8) : SampleStream :=
  ⟨⟨D, 0, Cursor.zero_le D⟩, info, false, false⟩

/-- What a client may ask for: whole samples, and positions of whole frames of `F`
    bytes that are `std::streamoff`s, counted from `start` on. -/
def Allowed (F start : ℕ) (a : SampleStream) : ClientCall → Prop
  | .read k => a.info.bytesPerSample ∣ k
  | .seekg call => a.failbit = false →
      fits start a.cursor (.seek (call.offset a.info) call.way) ∧
        F ∣ a.cursor.sought (call.offset a.info) call.way
  | _ => True

/-- The seeks are to positions that the source comes to. -/
def Reaches (E : Targets) (a : SampleStream) : ClientCall → Prop
  | .seekg call => a.failbit = false →
      E a.cursor call.way (a.cursor.asked (call.offset a.info) call.way)
  | _ => True

theorem reaches_anywhere (a : SampleStream) (call : ClientCall) : a.Reaches anywhere call := by
  cases call with
  | seekg call =>
    intro _
    trivial
  | _ => trivial

end SampleStream

/-! ## Streams -/

/-- An `audio::istream`, its device and what this has delivered since it was
    sought. -/
structure SourceStream (σ : Type) where
  source : σ
  delivered : List UInt8
  stream : Istream

namespace SourceStream

section
variable {σ : Type} [Source σ] (h : Host) (order : EvaluationOrder) (n : ℕ)

/-- How many characters of the get area are to come. -/
def left (s : SourceStream σ) : ℕ := s.stream.buf.area.length - s.stream.buf.gptr

/-- A buffer of `n` characters that has no get area. -/
inductive Fresh (device : σ) : StreamBuffer → Prop
  | mk {bs : List (List UInt8)} (hbs : Refills n device bs) : Fresh device (setg [] bs)

/-- `make_stream_buffer( source )`, and the stream with it. -/
structure Opened (device : σ) (info : StreamInfo) (s : SourceStream σ) : Prop where
  source : s.source = device
  delivered : s.delivered = []
  buf : Fresh n device s.stream.buf
  info : s.stream.info = info
  eofbit : s.stream.eofbit = false
  failbit : s.stream.failbit = false

/-- How many blocks a read has taken. -/
def taken (s : SourceStream σ) (t : Istream) : ℕ := s.stream.buf.blocks.length - t.buf.blocks.length

/-- The stream after a read: the device stands behind the blocks that were taken,
    and has been asked for more only at its end. -/
inductive Takes (s : SourceStream σ) (t : Istream) : SourceStream σ → Prop
  | mk {k : ℕ} (hk : s.taken t ≤ k) (hmore : t.buf.blocks ≠ [] → k = s.taken t) :
    Takes s t ⟨refilled n k s.source,
      s.delivered ++ (s.stream.buf.blocks.take (s.taken t)).flatten, t⟩

/-- A seek that drops the get area; the device is ahead by what is left of it. -/
def deviceOffset (s : SourceStream σ) (off : ℤ) : SeekDir → ℤ
  | .cur => off - s.left
  | _ => off

inductive Repositions (s : SourceStream σ) (off : ℤ) (way : SeekDir) : SourceStream σ → Prop
  | mk {buf : StreamBuffer}
    (hbuf : Fresh n (Device.seek (s.deviceOffset off way) way s.source).2 buf) :
    Repositions s off way
      ⟨(Device.seek (s.deviceOffset off way) way s.source).2, [],
        { s.stream with
          buf
          eofbit := false
          failbit := decide ((Device.seek (s.deviceOffset off way) way s.source).1 = -1) }⟩

/-- A get area with `k` characters to come, the last that the device has
    delivered; the device is asked where it stands. -/
structure KeepsArea (s : SourceStream σ) (k : ℕ) (buf : StreamBuffer) : Prop where
  le_delivered : k ≤ s.delivered.length
  area : buf.area.drop buf.gptr = s.delivered.drop (s.delivered.length - k)
  length : buf.area.length ≤ n + 4
  blocks : Refills n (Device.seek 0 .cur s.source).2 buf.blocks

/-- Where a stream with `k` characters to come stands. -/
def toldBefore (s : SourceStream σ) (k : ℕ) : ℤ := (Device.seek 0 .cur s.source).1 - k

/-- What a call does; a seek from the current position may be served out of what
    has been delivered. -/
inductive Step (s : SourceStream σ) : ClientCall → ClientAnswer → SourceStream σ → Prop
  | read {k : ℕ} {s' : SourceStream σ} (ht : Takes n s (s.stream.read k).2 s') :
    Step s (.read k) (.bytes (s.stream.read k).1) s'
  | value {V : ArithType} {val : V.Val} {s' : SourceStream σ}
    (ht : Takes n s (s.stream.extractValue h V val).2 s') :
    Step s (.value V val) (.values V [(s.stream.extractValue h V val).1]) s'
  | range {V : ArithType} {rng rng' : List V.Val} {fuel : ℕ} {t : Istream} {s' : SourceStream σ}
    (hf : rng.length < fuel) (hext : s.stream.extractRange h order V fuel rng = some (rng', t))
    (ht : Takes n s t s') : Step s (.range V rng) (.values V rng') s'
  | failed {call : SeekCall} (hfail : s.stream.failbit = true) :
    Step s (.seekg call) .nothing { s with stream := { s.stream with eofbit := false } }
  | seek {call : SeekCall} {s' : SourceStream σ} (hfail : s.stream.failbit = false)
    (hs : Repositions n s (call.offset s.stream.info) call.way s') :
    Step s (.seekg call) .nothing s'
  | move {call : SeekCall} {k : ℕ} {buf : StreamBuffer} (hfail : s.stream.failbit = false)
    (hcur : call.way = .cur) (hk : (k : ℤ) = s.left - call.offset s.stream.info)
    (hbuf : KeepsArea n s k buf) :
    Step s (.seekg call) .nothing
      ⟨(Device.seek 0 .cur s.source).2, s.delivered,
        { s.stream with buf, eofbit := false, failbit := decide (s.toldBefore k = -1) }⟩
  | tellg {bs : List (List UInt8)} (hgood : s.stream.eofbit = false ∧ s.stream.failbit = false)
    (hbs : Refills n (Device.seek 0 .cur s.source).2 bs) :
    Step s .tellg (.position (s.toldBefore s.left))
      ⟨(Device.seek 0 .cur s.source).2, s.delivered,
        { s.stream with buf := { s.stream.buf with blocks := bs } }⟩
  | untold (hbad : ¬ (s.stream.eofbit = false ∧ s.stream.failbit = false)) :
    Step s .tellg (.position (-1)) { s with stream := { s.stream with failbit := true } }
  | clear :
    Step s .clear .nothing { s with stream := { s.stream with eofbit := false, failbit := false } }
  | rdstate : Step s .rdstate (.bits s.stream.eofbit s.stream.failbit) s

end

end SourceStream

/-! ## Reading characters -/

namespace StreamBuffer

/-- The get area is not greater than `N`, and blocks of `bs` are to come. -/
structure Within (N : ℕ) (bs : List (List UInt8)) (sb : StreamBuffer) : Prop where
  length : sb.area.length ≤ N
  blocks : sb.blocks <:+ bs

section
variable {N : ℕ} {bs : List (List UInt8)} {sb : StreamBuffer}

theorem Within.underflow (h : Within N bs sb) (hbs : ∀ b ∈ bs, b.length ≤ N) :
    Within N bs sb.underflow.2 := by
  unfold StreamBuffer.underflow
  split_ifs
  · exact h
  · have hblocks := h.blocks
    cases hb : sb.blocks with
    | nil =>
      rw [hb] at hblocks
      exact ⟨Nat.zero_le N, hblocks⟩
    | cons b blocks =>
      rw [hb] at hblocks
      exact ⟨hbs b (hblocks.subset List.mem_cons_self),
        (List.suffix_cons b blocks).trans hblocks⟩

theorem Within.take1 (h : Within N bs sb) : Within N bs sb.take1.2 := by
  unfold StreamBuffer.take1
  split_ifs
  · exact ⟨h.length, h.blocks⟩
  · exact h

theorem Within.sbumpc (h : Within N bs sb) (hbs : ∀ b ∈ bs, b.length ≤ N) :
    Within N bs sb.sbumpc.2 := by
  unfold StreamBuffer.sbumpc
  split_ifs
  · exact h.take1
  · exact (h.underflow hbs).take1

theorem Within.xsgetn (h : Within N bs sb) (hbs : ∀ b ∈ bs, b.length ≤ N) (k : ℕ) :
    Within N bs (sb.xsgetn k).2 := by
  induction k generalizing sb with
  | zero => exact h
  | succ k ih =>
    have hnext := h.sbumpc hbs
    rcases hb : sb.sbumpc with ⟨_ | c, sb'⟩
    · rw [hb] at hnext
      simp only [StreamBuffer.xsgetn, hb]
      exact hnext
    · rw [hb] at hnext
      simp only [StreamBuffer.xsgetn, hb]
      exact ih hnext

/-- **Characters**, as many as there are. -/
theorem xsgetn_eq (hf : sb.Filled) (k : ℕ) :
    (sb.xsgetn k).1 = sb.rest.take k ∧ (sb.xsgetn k).2.rest = sb.rest.drop k := by
  induction k generalizing sb with
  | zero => exact ⟨rfl, rfl⟩
  | succ k ih =>
    by_cases hnil : sb.rest = []
    · have hc := sbumpc_rest sb
      rw [hnil, List.append_eq_nil_iff] at hc
      rcases hb : sb.sbumpc with ⟨_ | c, sb'⟩
      · rw [hb] at hc
        simp only [StreamBuffer.xsgetn, hb, hnil, List.take_nil, List.drop_nil]
        exact ⟨trivial, hc.2⟩
      · rw [hb] at hc
        cases hc.1
    · obtain ⟨c, sb', hb, hcons, hf', -⟩ := sbumpc_spec hf hnil
      obtain ⟨h1, h2⟩ := ih hf'
      simp only [StreamBuffer.xsgetn, hb, hcons, List.take_succ_cons, List.drop_succ_cons]
      exact ⟨congrArg (c :: ·) h1, h2⟩

/-- The parts that are cut from some pieces are not longer than these. -/
theorem cut_lt {L : ℕ} {as : List ℕ} (has : ∀ a ∈ as, a < L) (m : ℕ) : ∀ c ∈ cut as m, c < L := by
  induction as generalizing m with
  | nil =>
    intro c hc
    cases hc
  | cons a as ih =>
    obtain ⟨ha, has⟩ := List.forall_mem_cons.1 has
    rw [cut]
    split_ifs with hle
    · rw [List.forall_mem_singleton]
      omega
    · exact List.forall_mem_cons.2 ⟨ha, ih has (m - a)⟩

end

end StreamBuffer

/-! ## The invariant -/

namespace SampleStream

variable {h : Host} {a : SampleStream}

/-- `a'` reads the bytes of `a`, and stands at a sample. -/
structure Behind (a a' : SampleStream) : Prop where
  bytes : a'.cursor.bytes = a.cursor.bytes
  info : a'.info = a.info
  sample : a.info.bytesPerSample ∣ a'.cursor.pos

/-- Whole samples, and those that are left where there are not as many. -/
theorem dvd_pos_read (hpos : a.info.bytesPerSample ∣ a.cursor.pos)
    (hall : a.info.bytesPerSample ∣ a.cursor.bytes.length) {k : ℕ}
    (hk : a.info.bytesPerSample ∣ k) : a.info.bytesPerSample ∣ (a.cursor.read k).2.pos :=
  Nat.dvd_add hpos (Cursor.dvd_next hpos hall hk)

theorem behind_read (hpos : a.info.bytesPerSample ∣ a.cursor.pos)
    (hall : a.info.bytesPerSample ∣ a.cursor.bytes.length) {k : ℕ}
    (hk : a.info.bytesPerSample ∣ k) : Behind a (a.read k).2 := by
  have hread := dvd_pos_read hpos hall hk
  unfold read
  split_ifs
  · exact ⟨rfl, rfl, hpos⟩
  · exact ⟨rfl, rfl, hread⟩
  · exact ⟨rfl, rfl, hread⟩

theorem behind_range {V : ArithType} {rng : List V.Val}
    (hpos : a.info.bytesPerSample ∣ a.cursor.pos)
    (hall : a.info.bytesPerSample ∣ a.cursor.bytes.length) : Behind a (a.range h V rng).2 := by
  unfold range
  split_ifs
  · exact ⟨rfl, rfl, hpos⟩
  · exact ⟨rfl, rfl, hpos⟩
  · exact ⟨rfl, rfl, dvd_pos_read hpos hall (Nat.dvd_mul_left _ _)⟩

/-- A call changes neither the bytes nor the info. -/
theorem step_keeps (h : Host) (a : SampleStream) (call : ClientCall) :
    (a.step h call).2.cursor.bytes = a.cursor.bytes ∧ (a.step h call).2.info = a.info := by
  cases call with
  | read k =>
    simp only [step, read]
    split_ifs <;> exact ⟨rfl, rfl⟩
  | value V val =>
    simp only [step, value, read]
    split_ifs <;> exact ⟨rfl, rfl⟩
  | range V rng =>
    simp only [step, range]
    split_ifs <;> exact ⟨rfl, rfl⟩
  | seekg call =>
    simp only [step, seekg]
    split_ifs <;> exact ⟨rfl, rfl⟩
  | tellg =>
    simp only [step]
    split_ifs <;> exact ⟨rfl, rfl⟩
  | clear => exact ⟨rfl, rfl⟩
  | rdstate => exact ⟨rfl, rfl⟩

theorem info_step (h : Host) (a : SampleStream) (call : ClientCall) :
    (a.step h call).2.info = a.info := (a.step_keeps h call).2

/-- Whatever a client has called, the stream is over the same bytes. -/
theorem bytes_after (h : Host) (a : SampleStream) (calls : List ClientCall) :
    (Machine.after (SampleStream.step h) a calls).cursor.bytes = a.cursor.bytes := by
  refine Machine.after_of_inv (fun a' : SampleStream => a'.cursor.bytes = a.cursor.bytes) ?_ rfl
    calls
  intro a' call ha'
  rw [(a'.step_keeps h call).1]
  exact ha'

end SampleStream

namespace SourceStream

/-- A source that acts as a cursor, and a buffer of `n` characters for it: whole
    frames of whole samples of `w` bytes, less than an `int` holds. -/
structure Buffers {σ : Type} [Source σ] (F start n w : ℕ) (E : Targets)
    (R : Cursor → σ → Prop) : Prop where
  acts : ActsAsCursor F start E R
  sample : w ∣ F
  frames : F ∣ n
  pos : 0 < n
  int : n + 4 < 2 ^ 31

theorem Buffers.size {σ : Type} [Source σ] {F start n w : ℕ} {E : Targets}
    {R : Cursor → σ → Prop} (hb : Buffers F start n w E R) : BufferSize F n :=
  ⟨hb.frames, hb.pos, (Nat.le_add_right n 4).trans_lt hb.int⟩

/-- A stream with its device at the cursor `c`: the get area holds what is between
    the position of the stream and that of the device. -/
structure TracksAt {σ : Type} [Source σ] (start n : ℕ) (R : Cursor → σ → Prop)
    (s : SourceStream σ) (a : SampleStream) (c : Cursor) : Prop where
  rel : R c s.source
  bytes : c.bytes = a.cursor.bytes
  blocks : Refills n s.source s.stream.buf.blocks
  ahead : a.cursor.pos ≤ c.pos
  area : s.stream.buf.area.drop s.stream.buf.gptr =
    slice a.cursor.bytes a.cursor.pos (c.pos - a.cursor.pos)
  delivered : ∃ p, p + s.delivered.length = c.pos ∧
    s.delivered = slice a.cursor.bytes p s.delivered.length
  length : s.stream.buf.area.length ≤ n + 4
  sample : a.info.bytesPerSample ∣ a.cursor.pos
  fits : start + a.cursor.bytes.length < 2 ^ 63
  info : s.stream.info = a.info
  eofbit : s.stream.eofbit = a.eofbit
  failbit : s.stream.failbit = a.failbit

/-- A stream that reads the bytes of `a`, and stands where `a` does. -/
def Tracks {σ : Type} [Source σ] (start n : ℕ) (R : Cursor → σ → Prop) (s : SourceStream σ)
    (a : SampleStream) : Prop :=
  ∃ c, TracksAt start n R s a c

section
variable {σ : Type} [Source σ] {h : Host} {order : EvaluationOrder} {F start n : ℕ}
  {E : Targets} {R : Cursor → σ → Prop} {s s' : SourceStream σ} {a a' : SampleStream}
  {c : Cursor}

theorem TracksAt.flatten (hs : TracksAt start n R s a c)
    (hb : Buffers F start n a.info.bytesPerSample E R) :
    s.stream.buf.blocks.flatten = a.cursor.bytes.drop c.pos := by
  obtain ⟨hflatten, -⟩ := hs.blocks.spec hb.acts hs.rel hb.size
  rw [hflatten, Cursor.left, hs.bytes]

/-- The characters to come are the bytes that are left. -/
theorem TracksAt.rest (hs : TracksAt start n R s a c)
    (hb : Buffers F start n a.info.bytesPerSample E R) : s.stream.buf.rest = a.cursor.left := by
  have hdrop : a.cursor.bytes.drop c.pos =
      (a.cursor.bytes.drop a.cursor.pos).drop (c.pos - a.cursor.pos) := by
    rw [List.drop_drop, Nat.add_sub_cancel' hs.ahead]
  rw [StreamBuffer.rest, hs.area, hs.flatten hb, slice, hdrop, List.take_append_drop, Cursor.left]

theorem TracksAt.left_eq (hs : TracksAt start n R s a c) :
    s.left = c.pos - a.cursor.pos := by
  have hlen := congrArg List.length hs.area
  have hle := c.pos_le
  rw [hs.bytes] at hle
  rw [List.length_drop, length_slice_min] at hlen
  rw [SourceStream.left, hlen]
  omega

theorem TracksAt.blocks_spec (hs : TracksAt start n R s a c)
    (hb : Buffers F start n a.info.bytesPerSample E R) :
    ∀ b ∈ s.stream.buf.blocks, b ≠ [] ∧ F ∣ b.length ∧ b.length ≤ n :=
  (hs.blocks.spec hb.acts hs.rel hb.size).2

theorem TracksAt.dvd_left (hs : TracksAt start n R s a c)
    (hb : Buffers F start n a.info.bytesPerSample E R) : a.info.bytesPerSample ∣ s.left := by
  rw [hs.left_eq]
  exact Nat.dvd_sub (hb.sample.trans (hb.acts.aligned hs.rel).1) hs.sample

theorem TracksAt.whole (hs : TracksAt start n R s a c)
    (hb : Buffers F start n a.info.bytesPerSample E R) :
    s.stream.buf.Whole s.stream.info.bytesPerSample := by
  have hblocks := hs.blocks_spec hb
  rw [hs.info]
  refine ⟨?_, fun b hmem => (hblocks b hmem).1⟩
  rw [StreamBuffer.lengths, List.forall_mem_cons]
  refine ⟨hs.dvd_left hb, ?_⟩
  intro m hm
  obtain ⟨b, hmem, rfl⟩ := List.mem_map.1 hm
  exact hb.sample.trans (hblocks b hmem).2.1

theorem TracksAt.within (hs : TracksAt start n R s a c) :
    Within (n + 4) s.stream.buf.blocks s.stream.buf := ⟨hs.length, List.suffix_rfl⟩

theorem TracksAt.cut (hs : TracksAt start n R s a c)
    (hb : Buffers F start n a.info.bytesPerSample E R) (m : ℕ) :
    ∀ k ∈ StreamBuffer.cut s.stream.buf.lengths m, k < 2 ^ 31 := by
  have hint := hb.int
  have hlength := hs.length
  refine cut_lt ?_ m
  rw [StreamBuffer.lengths, List.forall_mem_cons]
  refine ⟨by omega, ?_⟩
  intro m hm
  obtain ⟨b, hmem, rfl⟩ := List.mem_map.1 hm
  have hle := (hs.blocks_spec hb b hmem).2.2
  omega

theorem TracksAt.remaining (hs : TracksAt start n R s a c)
    (hb : Buffers F start n a.info.bytesPerSample E R) : s.stream.remaining = a.remaining := by
  rw [Istream.remaining, SampleStream.remaining, hs.rest hb, hs.info]

/-! ### Taking blocks -/

/-- The device behind the blocks that a read has taken. -/
theorem TracksAt.refilled (hs : TracksAt start n R s a c)
    (hb : Buffers F start n a.info.bytesPerSample E R) {t : Istream}
    (hsuffix : t.buf.blocks <:+ s.stream.buf.blocks) {k : ℕ} (hk : s.taken t ≤ k)
    (hmore : t.buf.blocks ≠ [] → k = s.taken t) :
    Refills n (NiMedia.refilled n k s.source) t.buf.blocks ∧
      ∃ c', R c' (NiMedia.refilled n k s.source) ∧ c'.bytes = c.bytes ∧
        c'.pos = c.pos + (s.stream.buf.blocks.take (s.taken t)).flatten.length := by
  have hdrop : s.stream.buf.blocks.drop (s.taken t) = t.buf.blocks :=
    (List.suffix_iff_eq_drop.1 hsuffix).symm
  obtain ⟨hrest, c', hrel, hbytes, hpos⟩ := hs.blocks.refilled hb.acts hs.rel hb.size
    (show s.taken t ≤ s.stream.buf.blocks.length from Nat.sub_le _ _)
  rw [hdrop] at hrest
  by_cases hend : t.buf.blocks = []
  · -- behind the last block, the device may have been asked again
    obtain ⟨j, rfl⟩ := Nat.exists_eq_add_of_le hk
    obtain ⟨hflatten, -⟩ := hrest.spec hb.acts hrel hb.size
    rw [hend, List.flatten_nil] at hflatten
    obtain ⟨hagain, hrel'⟩ := Refills.refilled_end (k := j) hb.acts hrel hb.size hflatten.symm
    rw [refilled_add, hend]
    exact ⟨hagain, c', hrel', hbytes, hpos⟩
  · rw [hmore hend]
    exact ⟨hrest, c', hrel, hbytes, hpos⟩

/-- What a read makes of a stream and its buffer. -/
structure ReadsTo (n : ℕ) (s : SourceStream σ) (a' : SampleStream) (t : Istream) : Prop where
  within : Within (n + 4) s.stream.buf.blocks t.buf
  rest : t.buf.rest = a'.cursor.left
  info : t.info = a'.info
  eofbit : t.eofbit = a'.eofbit
  failbit : t.failbit = a'.failbit

/-- **A read** that leaves the stream at some of the bytes that were left. -/
theorem TracksAt.takes (hs : TracksAt start n R s a c)
    (hb : Buffers F start n a.info.bytesPerSample E R) {t : Istream} (hbehind : a.Behind a')
    (hreads : ReadsTo n s a' t) (ht : Takes n s t s') : Tracks start n R s' a' := by
  obtain ⟨hk, hmore⟩ := ht
  obtain ⟨hbytes, hinfo', hsample⟩ := hbehind
  obtain ⟨hwithin, hrest, hinfo, heof, hfail⟩ := hreads
  obtain ⟨hblocks, c', hrel, hbytes', hpos⟩ := hs.refilled hb hwithin.blocks hk hmore
  have hc' := c'.pos_le
  have ha' := a'.cursor.pos_le
  have hflatten : t.buf.blocks.flatten = a.cursor.bytes.drop c'.pos := by
    obtain ⟨h1, -⟩ := hblocks.spec hb.acts hrel hb.size
    rw [h1, Cursor.left, hbytes', hs.bytes]
  rw [hbytes', hs.bytes] at hc'
  rw [hbytes] at ha'
  rw [StreamBuffer.rest, hflatten, Cursor.left, hbytes] at hrest
  have hahead : a'.cursor.pos ≤ c'.pos := by
    have hlen := congrArg List.length hrest
    rw [List.length_append, List.length_drop, List.length_drop, List.length_drop] at hlen
    omega
  refine ⟨c', hrel, (hbytes'.trans hs.bytes).trans hbytes.symm, hblocks, hahead, ?_, ?_,
    hwithin.length, by rwa [hinfo'], by rw [hbytes]; exact hs.fits, hinfo, heof, hfail⟩
  · -- the get area is what the blocks to come leave of the bytes
    have hdrop : a.cursor.bytes.drop c'.pos =
        (a.cursor.bytes.drop a'.cursor.pos).drop (c'.pos - a'.cursor.pos) := by
      rw [List.drop_drop, Nat.add_sub_cancel' hahead]
    have hsplit := List.take_append_drop (c'.pos - a'.cursor.pos)
      (a.cursor.bytes.drop a'.cursor.pos)
    rw [← hdrop, ← hrest] at hsplit
    rw [hbytes, slice]
    exact (List.append_cancel_right hsplit).symm.trans (by rw [hrest])
  · obtain ⟨p, hp, hdelivered⟩ := hs.delivered
    refine ⟨p, ?_, ?_⟩
    · rw [List.length_append, hpos]
      omega
    · have htaken : (s.stream.buf.blocks.take (s.taken t)).flatten =
          slice a.cursor.bytes c.pos
            (s.stream.buf.blocks.take (s.taken t)).flatten.length := by
        have hall := hs.flatten hb
        rw [← List.take_append_drop (s.taken t) s.stream.buf.blocks, List.flatten_append] at hall
        rw [slice, ← hall, List.take_left' rfl]
      rw [hbytes, List.length_append, slice_add, ← hdelivered, hp, ← htaken]

/-! ### Reads -/

theorem TracksAt.dvd_bytes (hs : TracksAt start n R s a c)
    (hb : Buffers F start n a.info.bytesPerSample E R) :
    a.info.bytesPerSample ∣ a.cursor.bytes.length := by
  rw [← hs.bytes]
  exact hb.sample.trans (hb.acts.aligned hs.rel).2

theorem TracksAt.block_le (hs : TracksAt start n R s a c)
    (hb : Buffers F start n a.info.bytesPerSample E R) :
    ∀ b ∈ s.stream.buf.blocks, b.length ≤ n + 4 := by
  intro b hmem
  have hle := (hs.blocks_spec hb b hmem).2.2
  omega

/-- `istream::read`. -/
theorem TracksAt.read (hs : TracksAt start n R s a c)
    (hb : Buffers F start n a.info.bytesPerSample E R) (k : ℕ) :
    (s.stream.read k).1 = (a.read k).1 ∧ ReadsTo n s (a.read k).2 (s.stream.read k).2 := by
  have hrest := hs.rest hb
  obtain ⟨hget, hget'⟩ := xsgetn_eq (hs.whole hb).filled k
  have hwithin := hs.within.xsgetn (hs.block_le hb) k
  rw [hrest] at hget hget'
  rw [← a.cursor.left_read k] at hget'
  rw [← a.cursor.next_eq_take k] at hget
  unfold Istream.read SampleStream.read
  rw [hs.eofbit, hs.failbit]
  simp only [hget]
  split_ifs
  · exact ⟨rfl, hs.within, hrest, hs.info, rfl, rfl⟩
  · exact ⟨rfl, hwithin, hget', hs.info, rfl, rfl⟩
  · exact ⟨rfl, hwithin, hget', hs.info, rfl, rfl⟩

/-- `operator>>( Value& )`. -/
theorem TracksAt.value (hs : TracksAt start n R s a c)
    (hb : Buffers F start n a.info.bytesPerSample E R) {V : ArithType} (val : V.Val) :
    (s.stream.extractValue h V val).1 = (a.value h V val).1 ∧
      ReadsTo n s (a.value h V val).2 (s.stream.extractValue h V val).2 := by
  obtain ⟨hanswer, hreads⟩ := hs.read hb a.info.bytesPerSample
  refine ⟨?_, ?_⟩
  · have hfail := hreads.failbit
    unfold Istream.extractValue SampleStream.value
    rw [hs.info]
    dsimp only
    rw [← hanswer, ← hfail]
    split_ifs <;> rfl
  · rw [Istream.extractValue_snd, hs.info]
    exact hreads

variable (h order) in
/-- A range that is not read: the stream has failed, or there is nothing to
    fill. -/
theorem TracksAt.range_none (hs : TracksAt start n R s a c)
    (hb : Buffers F start n a.info.bytesPerSample E R) {V : ArithType} {rng : List V.Val}
    (hnone : a.failbit = true ∨ rng.length = 0) (fuel : ℕ) :
    s.stream.extractRange h order V fuel rng = some (rng, s.stream) ∧
      a.range h V rng = (rng, a) ∧ ReadsTo n s a s.stream := by
  refine ⟨?_, if_pos hnone, hs.within, hs.rest hb, hs.info, hs.eofbit, hs.failbit⟩
  rw [Istream.extractRange, hs.failbit, if_pos hnone]

variable (h order) in
/-- At the end. -/
theorem TracksAt.range_end (hs : TracksAt start n R s a c)
    (hb : Buffers F start n a.info.bytesPerSample E R) {V : ArithType} {rng : List V.Val}
    (hsome : ¬ (a.failbit = true ∨ rng.length = 0)) (hzero : a.remaining = 0) (fuel : ℕ) :
    ∃ t, s.stream.extractRange h order V fuel rng = some (rng, t) ∧
      a.range h V rng = (rng, { a with eofbit := true, failbit := true }) ∧
      ReadsTo n s { a with eofbit := true, failbit := true } t := by
  have hlen := Istream.length_rest_of_whole (hs.whole hb)
  rw [hs.remaining hb, hzero, Nat.zero_mul, List.length_eq_zero_iff] at hlen
  obtain ⟨sb, hunder, hrest⟩ := underflow_end hlen
  have hwithin := hs.within.underflow (hs.block_le hb)
  rw [hunder] at hwithin
  refine ⟨{ s.stream with buf := sb, eofbit := true, failbit := true }, ?_, ?_,
    ⟨hwithin, ?_, hs.info, rfl, rfl⟩⟩
  · rw [Istream.extractRange, hs.failbit, if_neg hsome, hunder]
  · rw [SampleStream.range, if_neg hsome, if_pos hzero]
  · rw [hrest, ← hlen]
    exact hs.rest hb

variable (h order) in
/-- The samples that are left, or some of them. -/
theorem TracksAt.range_some (hs : TracksAt start n R s a c)
    (hb : Buffers F start n a.info.bytesPerSample E R) {V : ArithType} {rng : List V.Val}
    (hsome : ¬ (a.failbit = true ∨ rng.length = 0)) (hpos : a.remaining ≠ 0) {fuel : ℕ}
    (hf : rng.length < fuel) :
    ∃ t, s.stream.extractRange h order V fuel rng = some ((a.range h V rng).1, t) ∧
      t.buf.rest = (a.range h V rng).2.cursor.left ∧ t.info = a.info ∧
      t.eofbit = (a.range h V rng).2.eofbit ∧ t.failbit = (a.range h V rng).2.failbit := by
  have hwhole := hs.whole hb
  have hrest := hs.rest hb
  have hrem := hs.remaining hb
  obtain ⟨hfail, hlen⟩ := not_or.1 hsome
  have hfail' : s.stream.failbit = false := by
    rw [hs.failbit]
    exact Bool.eq_false_of_not_eq_true hfail
  rw [SampleStream.range, if_neg hsome, if_neg hpos]
  rcases Nat.lt_or_ge a.remaining rng.length with hlt | hle
  · -- zeros behind the samples
    have hshort := Istream.extractRange_short h order hfail' hwhole (by omega)
      (show s.stream.remaining < rng.length by omega) (hs.cut hb _) hf
    obtain ⟨sb, hext, hnil⟩ := hshort
    have hmin : min rng.length a.remaining = a.remaining := Nat.min_eq_right hlt.le
    rw [hrem, hrest, hs.info] at hext
    refine ⟨{ buf := sb, info := a.info, eofbit := true, failbit := s.stream.failbit }, ?_, ?_,
      rfl, ?_, ?_⟩
    · simp only [hmin, hext]
    · have hall := Istream.length_rest_of_whole hwhole
      rw [hrem, hrest, hs.info] at hall
      dsimp only
      rw [hmin, Cursor.left_read, ← hall, List.drop_length]
      exact hnil
    · simp only [hlt, decide_true, Bool.or_true]
    · exact hs.failbit
  · have hfull := Istream.extractRange_full h order hfail' (show 0 < rng.length by omega) hwhole
      (by omega) (hs.cut hb _) hf
    obtain ⟨sb, hext, hdrop⟩ := hfull
    have hmin : min rng.length a.remaining = rng.length := Nat.min_eq_left hle
    have hnot : ¬ a.remaining < rng.length := Nat.not_lt.2 hle
    rw [hrest, hs.info] at hext hdrop
    refine ⟨{ buf := sb, info := a.info, eofbit := s.stream.eofbit, failbit := s.stream.failbit },
      ?_, ?_, rfl, ?_, ?_⟩
    · simp only [hmin, Nat.sub_self, List.replicate_zero, List.append_nil, hext]
    · dsimp only
      rw [hmin, Cursor.left_read]
      exact hdrop
    · simp only [hnot, decide_false, Bool.or_false]
      exact hs.eofbit
    · exact hs.failbit

variable (h order) in
/-- `operator>>( Range&& )`. -/
theorem TracksAt.range (hs : TracksAt start n R s a c)
    (hb : Buffers F start n a.info.bytesPerSample E R) {V : ArithType} {rng : List V.Val} {fuel : ℕ}
    (hf : rng.length < fuel) :
    ∃ t, s.stream.extractRange h order V fuel rng = some ((a.range h V rng).1, t) ∧
      ReadsTo n s (a.range h V rng).2 t := by
  by_cases hsome : a.failbit = true ∨ rng.length = 0
  · obtain ⟨hext, heq, hreads⟩ := hs.range_none h order hb hsome fuel
    rw [heq]
    exact ⟨_, hext, hreads⟩
  by_cases hpos : a.remaining = 0
  · obtain ⟨t, hext, heq, hreads⟩ := hs.range_end h order hb hsome hpos fuel
    rw [heq]
    exact ⟨t, hext, hreads⟩
  obtain ⟨t, hext, hrest, hinfo, heof, hfail⟩ :=
    hs.range_some h order hb hsome hpos hf
  have hblocks : ∀ b ∈ s.stream.buf.blocks,
      s.stream.info.bytesPerSample ∣ b.length ∧ b.length ≤ n + 4 := by
    intro b hmem
    rw [hs.info]
    exact ⟨hb.sample.trans (hs.blocks_spec hb b hmem).2.1, hs.block_le hb b hmem⟩
  have hfits : Fits s.stream.info.bytesPerSample (n + 4) s.stream.buf.rest.length
      s.stream.buf.blocks s.stream.buf :=
    ⟨(hs.whole hb).dvd _ List.mem_cons_self, hs.length, List.suffix_rfl, le_rfl⟩
  obtain ⟨hfits', -⟩ := Istream.extractRange_fits h order hblocks hb.int hfits hf hext
  have hsame : (a.range h V rng).2.info = a.info :=
    (SampleStream.behind_range hs.sample (hs.dvd_bytes hb)).info
  refine ⟨t, hext, ⟨hfits'.length, hfits'.blocks⟩, hrest, ?_, heof, hfail⟩
  rw [hinfo, hsame]

/-! ### Seeks -/

/-- The offset that reaches the device for a seek of the stream. -/
theorem TracksAt.seekBase_deviceOffset (hs : TracksAt start n R s a c) (b : ℤ) (off : ℤ)
    (way : SeekDir) :
    seekBase (b + c.pos) b (b + c.bytes.length) way + s.deviceOffset off way =
      seekBase (b + a.cursor.pos) b (b + a.cursor.bytes.length) way + off := by
  have hleft := hs.left_eq
  have hahead := hs.ahead
  rw [hs.bytes]
  cases way with
  | beg => rfl
  | cur =>
    simp only [seekBase, deviceOffset]
    omega
  | end_ => rfl

theorem TracksAt.asked_eq (hs : TracksAt start n R s a c) (off : ℤ) (way : SeekDir) :
    c.asked (s.deviceOffset off way) way = a.cursor.asked off way := by
  have hbase := hs.seekBase_deviceOffset 0 off way
  simp only [zero_add] at hbase
  exact hbase

theorem TracksAt.sought_eq (hs : TracksAt start n R s a c) (off : ℤ) (way : SeekDir) :
    c.sought (s.deviceOffset off way) way = a.cursor.sought off way := by
  have hasked := hs.asked_eq off way
  unfold Cursor.asked at hasked
  rw [Cursor.sought, Cursor.sought, hasked, hs.bytes]

/-- The device where it stands. -/
theorem TracksAt.told (hs : TracksAt start n R s a c)
    (hb : Buffers F start n a.info.bytesPerSample E R) :
    (Device.seek 0 .cur s.source).1 = c.pos ∧
      ∃ c', R c' (Device.seek 0 .cur s.source).2 ∧ c'.bytes = c.bytes ∧ c'.pos = c.pos := by
  have hle := c.pos_le
  have hfits := hs.fits
  have hsame : c.sought 0 .cur = c.pos := by
    simp only [Cursor.sought, seekBase]
    omega
  have hbytes := hs.bytes
  have hin : NiMedia.fits start c (.seek 0 .cur) := by
    rw [hbytes] at hle
    simp only [NiMedia.fits, seekBase]
    omega
  obtain ⟨hanswer, hrel⟩ := hb.acts.seek 0 .cur hs.rel hin
    (by rw [hsame]; exact (hb.acts.aligned hs.rel).1)
    (.inl ⟨rfl, rfl⟩)
  refine ⟨?_, _, hrel, rfl, hsame⟩
  rw [hanswer]
  exact congrArg Nat.cast hsame

/-- What is left of the delivered bytes is before the position of the device. -/
theorem TracksAt.drop_delivered (hs : TracksAt start n R s a c) {k : ℕ}
    (hk : k ≤ s.delivered.length) :
    k ≤ c.pos ∧ s.delivered.drop (s.delivered.length - k) =
      slice a.cursor.bytes (c.pos - k) k := by
  obtain ⟨p, hp, hdelivered⟩ := hs.delivered
  refine ⟨by omega, ?_⟩
  have hdrop : s.delivered.drop (s.delivered.length - k) =
      slice s.delivered (s.delivered.length - k) k := by
    rw [slice, List.take_of_length_le (by rw [List.length_drop]; omega)]
  rw [hdrop, hdelivered, length_slice (by
    have hle := c.pos_le
    rw [hs.bytes] at hle
    omega), slice_slice (by omega)]
  congr 1
  omega

/-- The device after a seek that drops the get area. -/
theorem TracksAt.seek_device (hs : TracksAt start n R s a c)
    (hb : Buffers F start n a.info.bytesPerSample E R) {off : ℤ} {way : SeekDir}
    (hfits : NiMedia.fits start a.cursor (.seek off way)) (hdvd : F ∣ a.cursor.sought off way)
    (hreach : E a.cursor way (a.cursor.asked off way)) :
    (Device.seek (s.deviceOffset off way) way s.source).1 = a.cursor.sought off way ∧
      R (c.seek (s.deviceOffset off way) way).2
        (Device.seek (s.deviceOffset off way) way s.source).2 := by
  have hsought := hs.sought_eq off way
  have hin : NiMedia.fits start c (.seek (s.deviceOffset off way) way) := by
    simp only [NiMedia.fits] at hfits ⊢
    rwa [hs.seekBase_deviceOffset]
  obtain ⟨hanswer, hrel⟩ := hb.acts.seek (s.deviceOffset off way) way hs.rel hin
    (by rwa [hsought])
    (.inr (by rw [hs.asked_eq]; exact hb.acts.reach.ahead hreach hs.bytes hs.ahead))
  refine ⟨?_, hrel⟩
  rw [hanswer]
  exact congrArg Nat.cast hsought

/-- A seek that drops the get area. -/
theorem TracksAt.seek (hs : TracksAt start n R s a c)
    (hb : Buffers F start n a.info.bytesPerSample E R) {call : SeekCall}
    (hfail : a.failbit = false)
    (hfits : NiMedia.fits start a.cursor (.seek (call.offset a.info) call.way))
    (hdvd : F ∣ a.cursor.sought (call.offset a.info) call.way)
    (hreach : E a.cursor call.way (a.cursor.asked (call.offset a.info) call.way))
    (hrep : Repositions n s (call.offset a.info) call.way s') :
    Tracks start n R s' (a.seekg call) := by
  obtain ⟨hanswer, hrel⟩ := hs.seek_device hb hfits hdvd hreach
  obtain ⟨⟨hbs⟩⟩ := hrep
  generalize hoff : call.offset a.info = off at *
  generalize hway : call.way = way at *
  have hsought := hs.sought_eq off way
  have hnone : ¬ a.failbit = true := by
    rw [hfail]
    exact Bool.false_ne_true
  have hne : ¬ ((a.cursor.sought off way : ℤ) = -1) := by omega
  unfold SampleStream.seekg
  rw [if_neg hnone, hoff, hway]
  refine ⟨_, hrel, hs.bytes, hbs, hsought.ge, ?_, ⟨_, Nat.add_zero _, rfl⟩, Nat.zero_le _,
    hb.sample.trans hdvd, hs.fits, hs.info, rfl, ?_⟩
  · change [] = slice a.cursor.bytes (a.cursor.sought off way)
      (c.sought (s.deviceOffset off way) way - a.cursor.sought off way)
    rw [hsought, Nat.sub_self]
    rfl
  · rw [hanswer, hfail]
    exact decide_eq_false hne

/-- A seek that is served out of what has been delivered. -/
theorem TracksAt.move (hs : TracksAt start n R s a c)
    (hb : Buffers F start n a.info.bytesPerSample E R) {call : SeekCall} {k : ℕ}
    {buf : StreamBuffer} (hfail : a.failbit = false) (hcur : call.way = .cur)
    (hdvd : F ∣ a.cursor.sought (call.offset a.info) call.way)
    (hk : (k : ℤ) = s.left - call.offset a.info) (hbuf : KeepsArea n s k buf) :
    Tracks start n R ⟨(Device.seek 0 .cur s.source).2, s.delivered,
      { s.stream with
        buf
        eofbit := false
        failbit := decide (s.toldBefore k = -1) }⟩ (a.seekg call) := by
  obtain ⟨hdel, harea, hlength, hblocks⟩ := hbuf
  obtain ⟨htold, c', hrel, hbytes, hpos⟩ := hs.told hb
  obtain ⟨hle, hdrop⟩ := hs.drop_delivered hdel
  have hahead := hs.ahead
  have hleft := hs.left_eq
  have hend := c.pos_le
  rw [hs.bytes] at hend
  have hnone : ¬ a.failbit = true := by
    rw [hfail]
    exact Bool.false_ne_true
  have hsought : a.cursor.sought (call.offset a.info) call.way = c.pos - k := by
    rw [hcur, Cursor.sought, seekBase]
    omega
  unfold SampleStream.seekg
  rw [if_neg hnone]
  refine ⟨c', hrel, hbytes.trans hs.bytes, hblocks, ?_, ?_, ?_, hlength,
    hb.sample.trans hdvd, hs.fits, hs.info, rfl, ?_⟩
  · rw [Cursor.pos_seek, hsought, hpos]
    exact Nat.sub_le _ _
  · rw [Cursor.pos_seek, Cursor.bytes_seek, hsought, hpos, Nat.sub_sub_self hle, harea, hdrop]
  · rw [hpos]
    exact hs.delivered
  · rw [toldBefore, htold, hfail]
    exact decide_eq_false (by omega)

/-- `tellg`. -/
theorem TracksAt.tellg (hs : TracksAt start n R s a c)
    (hb : Buffers F start n a.info.bytesPerSample E R) {bs : List (List UInt8)}
    (hbs : Refills n (Device.seek 0 .cur s.source).2 bs) :
    s.toldBefore s.left = a.cursor.pos ∧
      Tracks start n R ⟨(Device.seek 0 .cur s.source).2, s.delivered,
        { s.stream with buf := { s.stream.buf with blocks := bs } }⟩ a := by
  obtain ⟨htold, c', hrel, hbytes, hpos⟩ := hs.told hb
  have hahead := hs.ahead
  have hleft := hs.left_eq
  refine ⟨?_, c', hrel, hbytes.trans hs.bytes, hbs, ?_, ?_, ?_, hs.length, hs.sample, hs.fits,
    hs.info, hs.eofbit, hs.failbit⟩
  · rw [toldBefore, htold]
    omega
  · rw [hpos]
    exact hs.ahead
  · rw [hpos]
    exact hs.area
  · rw [hpos]
    exact hs.delivered

/-- The bits alone. -/
theorem TracksAt.withBits (hs : TracksAt start n R s a c) {e f e' f' : Bool} (he : e = e')
    (hf : f = f') :
    Tracks start n R { s with stream := { s.stream with eofbit := e, failbit := f } }
      { a with eofbit := e', failbit := f' } :=
  ⟨c, hs.rel, hs.bytes, hs.blocks, hs.ahead, hs.area, hs.delivered, hs.length, hs.sample, hs.fits,
    hs.info, he, hf⟩

theorem TracksAt.good_iff (hs : TracksAt start n R s a c) :
    a.good = true ↔ s.stream.eofbit = false ∧ s.stream.failbit = false := by
  rw [SampleStream.good, ← hs.eofbit, ← hs.failbit]
  simp

/-! ### Any run -/

/-- The seek of a client, out of what has been delivered or not. -/
theorem TracksAt.exists_seek (hs : TracksAt start n R s a c)
    (hb : Buffers F start n a.info.bytesPerSample E R) {call : SeekCall}
    (hfits : NiMedia.fits start a.cursor (.seek (call.offset a.info) call.way))
    (hdvd : F ∣ a.cursor.sought (call.offset a.info) call.way)
    (hreach : E a.cursor call.way (a.cursor.asked (call.offset a.info) call.way)) :
    ∃ s', Repositions n s (call.offset s.stream.info) call.way s' := by
  obtain ⟨-, hrel⟩ := hs.seek_device hb hfits hdvd hreach
  rw [hs.info]
  obtain ⟨bs, hbs⟩ := Refills.exists hb.acts hrel hb.size
  exact ⟨_, ⟨⟨hbs⟩⟩⟩

theorem exists_takes (n : ℕ) (s : SourceStream σ) (t : Istream) : ∃ s', Takes n s t s' :=
  ⟨_, .mk le_rfl fun _ => rfl⟩

variable (h order) in
/-- Each call is served. -/
theorem TracksAt.total (hs : TracksAt start n R s a c)
    (hb : Buffers F start n a.info.bytesPerSample E R) {call : ClientCall}
    (hcall : a.Allowed F start call) (hreach : a.Reaches E call) :
    ∃ o s', Step h order n s call o s' := by
  cases call with
  | read k =>
    obtain ⟨s', ht⟩ := exists_takes n s (s.stream.read k).2
    exact ⟨_, s', .read ht⟩
  | value V val =>
    obtain ⟨s', ht⟩ := exists_takes n s (s.stream.extractValue h V val).2
    exact ⟨_, s', .value ht⟩
  | range V rng =>
    obtain ⟨t, hext, -⟩ := hs.range h order hb (Nat.lt_succ_self rng.length)
    obtain ⟨s', ht⟩ := exists_takes n s t
    exact ⟨_, s', .range (Nat.lt_succ_self _) hext ht⟩
  | seekg call =>
    rcases Bool.eq_false_or_eq_true a.failbit with hfail | hfail
    · exact ⟨_, _, .failed (hs.failbit.trans hfail)⟩
    · obtain ⟨hfits, hdvd⟩ := hcall hfail
      obtain ⟨s', hrep⟩ := hs.exists_seek hb hfits hdvd (hreach hfail)
      exact ⟨_, s', .seek (hs.failbit.trans hfail) hrep⟩
  | tellg =>
    by_cases hgood : s.stream.eofbit = false ∧ s.stream.failbit = false
    · obtain ⟨-, c', hrel, -⟩ := hs.told hb
      obtain ⟨bs, hbs⟩ := Refills.exists hb.acts hrel hb.size
      exact ⟨_, _, .tellg hgood hbs⟩
    · exact ⟨_, _, .untold hgood⟩
  | clear => exact ⟨_, _, .clear⟩
  | rdstate => exact ⟨_, _, .rdstate⟩

/-- Each call is answered out of the bytes. -/
theorem TracksAt.answer (hs : TracksAt start n R s a c)
    (hb : Buffers F start n a.info.bytesPerSample E R) {call : ClientCall} {o : ClientAnswer}
    (hcall : a.Allowed F start call) (hreach : a.Reaches E call)
    (hstep : Step h order n s call o s') :
    o = (a.step h call).1 ∧ Tracks start n R s' (a.step h call).2 := by
  have hall := hs.dvd_bytes hb
  cases hstep with
  | read ht =>
    obtain ⟨hbytes, hreads⟩ := hs.read hb _
    exact ⟨congrArg ClientAnswer.bytes hbytes,
      hs.takes hb (SampleStream.behind_read hs.sample hall hcall) hreads ht⟩
  | value ht =>
    obtain ⟨hval, hreads⟩ := hs.value (h := h) hb _
    rw [hval]
    exact ⟨rfl, hs.takes hb (SampleStream.behind_read hs.sample hall (dvd_refl _)) hreads ht⟩
  | range hf hext ht =>
    obtain ⟨t', hext', hreads⟩ := hs.range h order hb hf
    rw [hext'] at hext
    obtain ⟨rfl, rfl⟩ := Prod.mk.inj (Option.some.inj hext)
    exact ⟨rfl, hs.takes hb (SampleStream.behind_range hs.sample hall) hreads ht⟩
  | failed hfail =>
    have hfail' : a.failbit = true := hs.failbit.symm.trans hfail
    refine ⟨rfl, ?_⟩
    rw [SampleStream.step, SampleStream.seekg, if_pos hfail']
    exact hs.withBits rfl hs.failbit
  | seek hfail hrep =>
    have hfail' : a.failbit = false := hs.failbit.symm.trans hfail
    obtain ⟨hfits, hdvd⟩ := hcall hfail'
    rw [hs.info] at hrep
    exact ⟨rfl, hs.seek hb hfail' hfits hdvd (hreach hfail') hrep⟩
  | move hfail hcur hk hbuf =>
    have hfail' : a.failbit = false := hs.failbit.symm.trans hfail
    rw [hs.info] at hk
    exact ⟨rfl, hs.move hb hfail' hcur (hcall hfail').2 hk hbuf⟩
  | tellg hgood hbs =>
    obtain ⟨htold, htracks⟩ := hs.tellg hb hbs
    have hgood' := hs.good_iff.2 hgood
    rw [htold, SampleStream.step, hgood']
    exact ⟨rfl, htracks⟩
  | untold hbad =>
    have hbad' : a.good = false := Bool.eq_false_of_not_eq_true (mt hs.good_iff.1 hbad)
    rw [SampleStream.step, hbad']
    exact ⟨rfl, hs.withBits hs.eofbit rfl⟩
  | clear => exact ⟨rfl, hs.withBits rfl rfl⟩
  | rdstate =>
    rw [hs.eofbit, hs.failbit]
    exact ⟨rfl, c, hs⟩

/-- **Every call is served**, and is answered out of the bytes. -/
theorem serves {w : ℕ} (hb : Buffers F start n w E R) :
    Machine.Serves (Step h order n) (SampleStream.step h)
      (fun a call => a.Allowed F start call ∧ a.Reaches E call)
      (fun (s : SourceStream σ) a => a.info.bytesPerSample = w ∧ Tracks start n R s a) where
  total := by
    rintro s a call ⟨rfl, c, hs⟩ ⟨hcall, hreach⟩
    exact hs.total h order hb hcall hreach
  answer := by
    rintro s a call o s' ⟨rfl, c, hs⟩ ⟨hcall, hreach⟩ hstep
    obtain ⟨ho, htracks⟩ := hs.answer hb hcall hreach hstep
    exact ⟨ho, congrArg StreamInfo.bytesPerSample (a.info_step h call), htracks⟩

/-- A stream that has been opened. -/
theorem Opened.tracks {device : σ} {info : StreamInfo} (ho : Opened n device info s)
    (hrel : R c device) (hpos : c.pos = 0) (hfits : start + c.bytes.length < 2 ^ 63) :
    Tracks start n R s (SampleStream.opened info c.bytes) := by
  obtain ⟨source, delivered, ⟨buf, info', eofbit, failbit⟩⟩ := s
  obtain ⟨rfl, rfl, hbuf, rfl, rfl, rfl⟩ := ho
  obtain ⟨hbs⟩ := hbuf
  refine ⟨c, hrel, rfl, hbs, Nat.zero_le _, ?_, ⟨_, Nat.add_zero _, rfl⟩, Nat.zero_le _,
    dvd_zero _, hfits, rfl, rfl, rfl⟩
  rw [hpos]
  rfl

/-- There is a stream for each source. -/
theorem exists_opened (hR : ActsAsCursor F start E R) (hn : BufferSize F n) {device : σ}
    (hrel : R c device) (info : StreamInfo) : ∃ s, Opened n device info s := by
  obtain ⟨bs, hbs⟩ := Refills.exists hR hrel hn
  exact ⟨⟨device, [], ⟨StreamBuffer.setg [] bs, info, false, false⟩⟩, rfl, rfl, ⟨hbs⟩, rfl, rfl,
    rfl⟩

/-- A stream that is opened on a device is one over the bytes `D`: it serves each
    run of calls, and always with the same answers. -/
def StreamsOver (h : Host) (order : EvaluationOrder) (F start n : ℕ) (device : σ)
    (info : StreamInfo) (D : List UInt8) : Prop :=
  (∃ s, Opened n device info s) ∧ ∀ s, Opened n device info s → ∀ calls,
    Machine.Along (SampleStream.step h) (SampleStream.Allowed F start)
      (SampleStream.opened info D) calls →
    ∀ answers, (∃ s', Machine.Runs (Step h order n) s calls answers s') ↔
      answers = Machine.run (SampleStream.step h) (SampleStream.opened info D) calls

/-- The same, as long as the seeks are to positions that the device comes to. -/
def StreamsOverTo (E : Targets) (h : Host) (order : EvaluationOrder) (F start n : ℕ)
    (device : σ) (info : StreamInfo) (D : List UInt8) : Prop :=
  (∃ s, Opened n device info s) ∧ ∀ s, Opened n device info s → ∀ calls,
    Machine.Along (SampleStream.step h) (fun a call => a.Allowed F start call ∧ a.Reaches E call)
      (SampleStream.opened info D) calls →
    ∀ answers, (∃ s', Machine.Runs (Step h order n) s calls answers s') ↔
      answers = Machine.run (SampleStream.step h) (SampleStream.opened info D) calls

variable (h order) in
/-- **Streams** over a source that acts as a cursor are streams over its bytes. -/
theorem streamsOverTo {device : σ} {info : StreamInfo}
    (hb : Buffers F start n info.bytesPerSample E R) (hrel : R c device) (hpos : c.pos = 0)
    (hfits : start + c.bytes.length < 2 ^ 63) :
    StreamsOverTo E h order F start n device info c.bytes := by
  refine ⟨exists_opened hb.acts hb.size hrel info, ?_⟩
  intro s ho calls hcalls answers
  exact (serves hb).run_iff ⟨rfl, ho.tracks hrel hpos hfits⟩ hcalls

/-- Where all positions are reached, nothing is added. -/
theorem along_anywhere {a : SampleStream} {calls : List ClientCall} :
    Machine.Along (SampleStream.step h)
        (fun a call => a.Allowed F start call ∧ a.Reaches anywhere call) a calls ↔
      Machine.Along (SampleStream.step h) (SampleStream.Allowed F start) a calls :=
  Machine.along_congr (fun a call => by simp [SampleStream.reaches_anywhere]) a calls

theorem streamsOver {device : σ} {info : StreamInfo}
    (hb : Buffers F start n info.bytesPerSample anywhere R) (hrel : R c device) (hpos : c.pos = 0)
    (hfits : start + c.bytes.length < 2 ^ 63) :
    StreamsOver h order F start n device info c.bytes := by
  obtain ⟨hopened, hruns⟩ := streamsOverTo h order hb hrel hpos hfits
  refine ⟨hopened, ?_⟩
  intro s ho calls hcalls answers
  exact hruns s ho calls (along_anywhere.2 hcalls) answers

end

end SourceStream

end NiMedia
