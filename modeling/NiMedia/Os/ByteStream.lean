/-
  The byte stream through which WMF reads a source
  (`audio/os/win/media_foundation_helper.h`: `SyncronousByteStream`).

  A read that is begun is done at once; WMF then calls back with its result, at a
  time of its own, and the client ends the read with this result.  The calls are
  taken one at a time (`m_reading`).  If WMF does not queue the callback, nobody
  gets to know the result, and nobody releases it.

  * `Transfers`: what the stream is for, a position in a byte string and the
    counts of the reads that are not ended.
  * `byteStream_transfers`: any calls in any order, reads being ended once and
    before or after other calls, are answered as by `Transfers`; no call reaches
    a dead object, and the objects that live are those of the reads that are
    still open, and of those that are lost.
-/
import NiMedia.Iostreams.OpenFile
import NiMedia.Lib.Runs
import NiMedia.Os.AsyncResults

namespace NiMedia

open Bytes Words Counted Machine

namespace ByteStream

/-! ## Calls and answers -/

/-- What the source throws. -/
inductive Thrown where
  | systemError
  | other

/-- `MFBYTESTREAM_SEEK_ORIGIN`. -/
inductive Origin where
  | msoBegin
  | msoCurrent

/-- The calls of a client, and the return of a callback that WMF made.  A read
    says whether the source throws; the rest of a read that is begun is what WMF
    answers: where a result is made, if one is, and whether the callback is
    queued. -/
inductive Call where
  | read (toRead : ℕ) (thrown : Option Thrown)
  | beginRead (callback buffer : Bool) (toRead : ℕ) (thrown : Option Thrown)
      (result : ℕ) (created invoked : HResult)
  | endRead (result : Option ℕ)
  | callbackReturns (result : ℕ)
  | getCapabilities
  | getCurrentPosition
  | getLength
  | isEndOfStream
  | seek (origin : Origin) (offset : ℤ)
  | setCurrentPosition (position : ℕ)
  | unimplemented

/-- A result is made, and its callback is not queued. -/
def Call.loses : Call → Bool
  | .beginRead callback buffer _ _ _ created invoked =>
    callback && buffer && created.succeeded && !invoked.succeeded
  | _ => false

/-- The status, the bytes that are put into the buffer, and the value that is
    written through a pointer; for a read that is begun, the result with which
    the client is called back. -/
structure Answer where
  status : HResult
  bytes : List UInt8 := []
  value : Option ℕ := none

/-- `MFBYTESTREAM_IS_READABLE | MFBYTESTREAM_IS_SEEKABLE`. -/
def capabilities : ℕ := 1 ||| 4

/-! ## The stream -/

/-- `SyncronousByteStream`, without its references. -/
structure SyncronousByteStream (σ : Type) where
  source : σ
  size : ℤ

section
variable {σ : Type} [Source σ]

namespace SyncronousByteStream

def tell (s : SyncronousByteStream σ) : ℤ × SyncronousByteStream σ :=
  let (pos, source) := Device.seek 0 .cur s.source
  (if pos = -1 then s.size else pos, { s with source := source })

/-- The constructor. -/
def mk' (buffer : σ) : SyncronousByteStream σ :=
  let (size, s) := tell ⟨(Device.seek 0 .end_ buffer).2, 0⟩
  ⟨(Device.seek 0 .beg s.source).2, size⟩

/-- `Read`.  A source that throws is left as it is. -/
def read (toRead : ℕ) (thrown : Option Thrown) (s : SyncronousByteStream σ) :
    Answer × SyncronousByteStream σ :=
  match thrown with
  | some .systemError => ({ status := .unexpected }, s)
  | some .other => ({ status := .fail }, s)
  | none =>
    let (result, source) := Source.read toRead s.source
    let bytes := result.getD []
    ({ status := .ok, bytes := bytes, value := some (bytes.length % 2 ^ 32) },
      { s with source := source })

/-- A position as it is written through a `QWORD*`. -/
def qword (pos : ℤ) : ℕ := (pos % 2 ^ 64).toNat

def getCurrentPosition (s : SyncronousByteStream σ) : Answer × SyncronousByteStream σ :=
  let (pos, s) := s.tell
  ({ status := .ok, value := some (qword pos) }, s)

def getLength (s : SyncronousByteStream σ) : Answer × SyncronousByteStream σ :=
  ({ status := .ok, value := some (qword s.size) }, s)

def isEndOfStream (s : SyncronousByteStream σ) : Answer × SyncronousByteStream σ :=
  let (pos, t) := s.tell
  ({ status := .ok, value := some (if s.size ≤ pos then 1 else 0) }, t)

def seek (origin : Origin) (offset : ℤ) (s : SyncronousByteStream σ) :
    Answer × SyncronousByteStream σ :=
  let (base, s) := match origin with
    | .msoBegin => (0, s)
    | .msoCurrent => s.tell
  let (pos, source) := Device.seek (wrap 64 (base + offset)) .beg s.source
  ({ status := .ok, value := some (qword pos) }, { s with source := source })

def setCurrentPosition (position : ℕ) (s : SyncronousByteStream σ) :
    Answer × SyncronousByteStream σ :=
  ({ status := .ok },
    { s with source := (Device.seek (wrap 64 position) .beg s.source).2 })

end SyncronousByteStream

end

/-! ## Sessions -/

/-- A stream, and the objects that live. -/
structure Session (σ ω : Type) where
  stream : SyncronousByteStream σ
  objects : Objects ω

namespace Session

section
variable {σ ω : Type} [Source σ] (W : Wmf ω)

def mk' (buffer : σ) (wmf : ω) : Session σ ω := ⟨.mk' buffer, ⟨.empty, wmf⟩⟩

/-- A call on the stream only. -/
def onStream (f : SyncronousByteStream σ → Answer × SyncronousByteStream σ) (s : Session σ ω) :
    Option (Answer × Session σ ω) :=
  some ((f s.stream).1, { s with stream := (f s.stream).2 })

/-- `BeginRead`.  What `Read` returns is lost: the count is 0 if it fails. -/
def beginRead (callback buffer : Bool) (toRead : ℕ) (thrown : Option Thrown) (result : ℕ)
    (created invoked : HResult) (s : Session σ ω) : Option (Answer × Session σ ω) :=
  if !callback || !buffer then some ({ status := .invalidArg }, s)
  else do
    let (done, stream) := s.stream.read toRead thrown
    let (object, readResults) := s.objects.readResults.alloc ⟨done.value.getD 0⟩
    let ((), o) ← { s.objects with readResults := readResults }.ask
      (W.createAsyncResult object result created)
    let o ← o.releaseRead object
    if created.succeeded then
      let ((), o) ← o.ask (W.setStatus result .ok)
      let ((), o) ← o.ask (W.invokeCallback result invoked)
      pure ({ status := invoked, bytes := done.bytes,
              value := if invoked.succeeded then some result else none }, ⟨stream, o⟩)
    else pure ({ status := created, bytes := done.bytes }, ⟨stream, o⟩)

/-- `EndRead`: the reference of `BeginRead` is released. -/
def endRead (result : Option ℕ) (s : Session σ ω) : Option (Answer × Session σ ω) :=
  match result with
  | none => some ({ status := .invalidArg }, s)
  | some result => do
    let ((found, unknown), o) ← s.objects.ask (W.getObject result)
    match if found.succeeded then unknown else none with
    | none => pure ({ status := .invalidArg }, { s with objects := o })
    | some object =>
      let readResult ← o.readResults.get object
      let o ← o.releaseRead object
      let (status, o) ← o.ask (W.getStatus result)
      let ((), o) ← o.ask (W.release result)
      pure ({ status := status, value := some readResult.bytesRead }, { s with objects := o })

/-- WMF is done with the callback. -/
def callbackReturns (result : ℕ) (s : Session σ ω) : Option (Answer × Session σ ω) :=
  (s.objects.ask (W.release result)).map fun ((), o) => ({ status := .ok }, { s with objects := o })

/-- A call; it fails if it reaches a dead object. -/
def step (s : Session σ ω) : Call → Option (Answer × Session σ ω)
  | .read toRead thrown => s.onStream (·.read toRead thrown)
  | .beginRead callback buffer toRead thrown result created invoked =>
    s.beginRead W callback buffer toRead thrown result created invoked
  | .endRead result => s.endRead W result
  | .callbackReturns result => s.callbackReturns W result
  | .getCapabilities => some ({ status := .ok, value := some capabilities }, s)
  | .getCurrentPosition => s.onStream (·.getCurrentPosition)
  | .getLength => s.onStream (·.getLength)
  | .isEndOfStream => s.onStream (·.isEndOfStream)
  | .seek origin offset => s.onStream (·.seek origin offset)
  | .setCurrentPosition position => s.onStream (·.setCurrentPosition position)
  | .unimplemented => some ({ status := .notImpl }, s)

/-- A call that is answered. -/
def Answers (s : Session σ ω) (c : Call) (a : Answer) (s' : Session σ ω) : Prop :=
  s.step W c = some (a, s')

end

end Session

/-! ## Transfers -/

/-- A read that was begun: its count, whether the client still has to end it,
    whether its callback runs, and whether it is lost. -/
structure Transfer where
  count : ℕ
  owed : Bool
  running : Bool
  lost : Bool

/-- A read whose callback is not queued is lost. -/
def Transfer.begun (count : ℕ) (queued : Bool) : Transfer := ⟨count, queued, queued, !queued⟩

def Transfer.references (t : Transfer) : ℕ := t.owed.toNat + t.running.toNat + t.lost.toNat

/-- A position in a byte string, and the reads that are open or lost, by their
    results. -/
structure Transfers where
  bytes : List UInt8
  pos : ℕ
  transfers : ℕ → Option Transfer

namespace Transfers

def opened (bytes : List UInt8) : Transfers := ⟨bytes, 0, fun _ => none⟩

/-- What is left of a read: it is closed when it is ended and its callback has
    returned. -/
def settle (r : ℕ) (t : Transfer) (s : Transfers) : Transfers :=
  { s with
    transfers := Function.update s.transfers r (if t.references = 0 then none else some t) }

/-- The next bytes, none of them if the source throws. -/
def fetched (toRead : ℕ) (thrown : Option Thrown) (s : Transfers) : List UInt8 :=
  if thrown.isNone then slice s.bytes s.pos toRead else []

/-- The position that is asked for. -/
def target (origin : Origin) (offset : ℤ) (s : Transfers) : ℤ :=
  match origin with
  | .msoBegin => offset
  | .msoCurrent => s.pos + offset

def read (toRead : ℕ) (thrown : Option Thrown) (s : Transfers) : Answer × Transfers :=
  match thrown with
  | some .systemError => ({ status := .unexpected }, s)
  | some .other => ({ status := .fail }, s)
  | none =>
    let bytes := slice s.bytes s.pos toRead
    ({ status := .ok, bytes := bytes, value := some bytes.length },
      { s with pos := s.pos + bytes.length })

/-- The bytes are there at once; the count is kept for the end of the read. -/
def beginRead (callback buffer : Bool) (toRead : ℕ) (thrown : Option Thrown) (result : ℕ)
    (created invoked : HResult) (s : Transfers) : Answer × Transfers :=
  if !callback || !buffer then ({ status := .invalidArg }, s)
  else
    let bytes := s.fetched toRead thrown
    let s := { s with pos := s.pos + bytes.length }
    if created.succeeded then
      ({ status := invoked, bytes := bytes,
         value := if invoked.succeeded then some result else none },
        { s with
          transfers := Function.update s.transfers result
            (some (.begun bytes.length invoked.succeeded)) })
    else ({ status := created, bytes := bytes }, s)

/-- The count of the read, whatever happened in between. -/
def endRead (result : Option ℕ) (s : Transfers) : Answer × Transfers :=
  match result with
  | none => ({ status := .invalidArg }, s)
  | some r =>
    match s.transfers r with
    | none => ({ status := .invalidArg }, s)
    | some t => ({ status := .ok, value := some t.count }, s.settle r { t with owed := false })

def callbackReturns (r : ℕ) (s : Transfers) : Answer × Transfers :=
  match s.transfers r with
  | none => ({ status := .invalidArg }, s)
  | some t => ({ status := .ok }, s.settle r { t with running := false })

/-- A call, on a source whose seeks land as `land` says. -/
def step (land : List UInt8 → ℕ → ℕ) (s : Transfers) : Call → Answer × Transfers
  | .read toRead thrown => s.read toRead thrown
  | .beginRead callback buffer toRead thrown result created invoked =>
    s.beginRead callback buffer toRead thrown result created invoked
  | .endRead result => s.endRead result
  | .callbackReturns result => s.callbackReturns result
  | .getCapabilities => ({ status := .ok, value := some capabilities }, s)
  | .getCurrentPosition => ({ status := .ok, value := some s.pos }, s)
  | .getLength => ({ status := .ok, value := some s.bytes.length }, s)
  | .isEndOfStream =>
    ({ status := .ok, value := some (if s.bytes.length ≤ s.pos then 1 else 0) }, s)
  | .seek origin offset =>
    let q := land s.bytes (s.target origin offset).toNat
    ({ status := .ok, value := some q }, { s with pos := q })
  | .setCurrentPosition position => ({ status := .ok }, { s with pos := land s.bytes position })
  | .unimplemented => ({ status := .notImpl }, s)

/-- What the client and WMF promise: counts are `ULONG`s, positions are in
    `[0, 2 ^ 63)`, a new result is none that lives, a read is ended once, and its
    callback returns once. -/
def Promised (s : Transfers) : Call → Prop
  | .read toRead _ => toRead < 2 ^ 32
  | .beginRead _ _ toRead _ result _ _ => toRead < 2 ^ 32 ∧ s.transfers result = none
  | .endRead (some r) => ∃ t, s.transfers r = some t ∧ t.owed = true
  | .callbackReturns r => ∃ t, s.transfers r = some t ∧ t.running = true
  | .seek origin offset => 0 ≤ s.target origin offset ∧ s.target origin offset ≤ maxPos
  | .setCurrentPosition position => position ≤ maxPos
  | _ => True

end Transfers

/-! ## The stream stands where the transfers do -/

section
variable {σ : Type} [SizedSource σ]

/-- The file that is transferred. -/
def Transfers.file (t : Transfers) : OpenFile := ⟨t.bytes, t.pos⟩

structure Stands (t : Transfers) (s : SyncronousByteStream σ) : Prop where
  file : t.file.At s.source
  size : s.size = t.bytes.length

variable {t : Transfers} {s : SyncronousByteStream σ}

theorem Stands.pos_le (h : Stands t s) : t.pos ≤ maxPos := h.file.pos_le

theorem Stands.length_le (h : Stands t s) : t.bytes.length ≤ maxPos := h.file.length_le

theorem qword_eq {n : ℕ} (h : n ≤ maxPos) : SyncronousByteStream.qword n = n := by
  unfold maxPos at h
  unfold SyncronousByteStream.qword
  omega

theorem Stands.tell (h : Stands t s) : s.tell.1 = t.pos ∧ Stands t s.tell.2 := by
  obtain ⟨h1, h2⟩ := h.file.tell
  have hne : ¬ (t.file.pos : ℤ) = -1 := by omega
  refine ⟨?_, h2, h.size⟩
  simp only [SyncronousByteStream.tell, h1, if_neg hne]
  rfl

/-- The read moves the position, to the end at most. -/
theorem Stands.fetch (h : Stands t s) (n : ℕ) :
    (Source.read n s.source).1.getD [] = slice t.bytes t.pos n ∧
      Stands { t with pos := t.pos + (slice t.bytes t.pos n).length }
        { s with source := (Source.read n s.source).2 } := by
  obtain ⟨h1, h2⟩ := h.file.read n
  exact ⟨by rw [h1, getD_deliver]; rfl, h2, h.size⟩

theorem Stands.land (h : Stands t s) {q : ℕ} (hq : q ≤ maxPos) :
    (Device.seek (wrap 64 q) .beg s.source).1 = ExactSource.land σ t.bytes q ∧
      Stands { t with pos := ExactSource.land σ t.bytes q }
        { s with source := (Device.seek (wrap 64 q) .beg s.source).2 } := by
  have hwrap : wrap 64 (q : ℤ) = q := by
    unfold maxPos at hq
    exact wrap_of_range (by norm_num) (by norm_num; omega)
  obtain ⟨h1, h2⟩ := h.file.seek hq
  rw [hwrap]
  exact ⟨h1, h2, h.size⟩

end

/-! ## The objects that live are those of the reads -/

/-- The result of each read lives with its references, and is the only one to
    keep its read result, `object`; nothing else lives. -/
structure Holds {ω : Type} (table : ω → ℕ → Option AsyncResult) (object : ℕ → ℕ) (o : Objects ω)
    (t : Transfers) : Prop where
  results : ∀ r, table o.wmf r = (t.transfers r).map fun u => ⟨object r, .ok, u.references⟩
  kept : ∀ r u, t.transfers r = some u → o.readResults.cells (object r) = some (1, ⟨u.count⟩)
  apart : ∀ r r', t.transfers r ≠ none → t.transfers r' ≠ none → object r = object r' → r = r'
  owned : ∀ p, o.readResults.cells p ≠ none → ∃ r, t.transfers r ≠ none ∧ object r = p

section
variable {ω : Type} {table : ω → ℕ → Option AsyncResult} {W : Wmf ω} {object : ℕ → ℕ}
  {o o' : Objects ω} {t t' : Transfers} {r : ℕ} {u v : Transfer}

theorem holds_empty (object : ℕ → ℕ) (bytes : List UInt8) {wmf : ω} (h : ∀ r, table wmf r = none) :
    Holds table object ⟨.empty, wmf⟩ (.opened bytes) where
  results r := h r
  kept _ _ h := by cases h
  apart _ _ h := absurd rfl h
  owned _ h := absurd rfl h

theorem Holds.congr (h : Holds table object o t)
    (hcells : o'.readResults.cells = o.readResults.cells)
    (htable : table o'.wmf = table o.wmf) (htransfers : t'.transfers = t.transfers) :
    Holds table object o' t' := by
  obtain ⟨h1, h2, h3, h4⟩ := h
  rw [← htable, ← htransfers] at h1
  rw [← hcells, ← htransfers] at h2 h4
  rw [← htransfers] at h3
  exact ⟨h1, h2, h3, h4⟩

theorem Holds.result (h : Holds table object o t) (hr : t.transfers r = some u) :
    table o.wmf r = some ⟨object r, .ok, u.references⟩ := by
  rw [h.results, hr]
  rfl

/-- **Nothing lives** iff there are no reads. -/
theorem Holds.vacant_iff (h : Holds table object o t) :
    o.Vacant table ↔ ∀ r, t.transfers r = none := by
  constructor
  · intro hvacant r
    have hresult := (hvacant r).2
    rw [h.results] at hresult
    exact Option.map_eq_none_iff.1 hresult
  · intro hclosed p
    constructor
    · by_contra hp
      obtain ⟨r, hr, -⟩ := h.owned p hp
      exact hr (hclosed r)
    · rw [h.results, hclosed]
      rfl

/-- The results, where one read is another or none. -/
theorem Holds.results_update (h : Holds table object o t) {object' : ℕ → ℕ}
    (hsame : ∀ q, q ≠ r → object' q = object q) (v : Option Transfer) (q : ℕ) :
    Function.update (table o.wmf) r (v.map fun u => ⟨object' r, .ok, u.references⟩) q =
      (Function.update t.transfers r v q).map fun u => ⟨object' q, .ok, u.references⟩ := by
  by_cases hq : q = r
  · subst hq
    simp only [Function.update_self]
  · simp only [Function.update_of_ne hq, hsame q hq, h.results]

/-- A result and its object are new. -/
theorem Holds.create (h : Holds table object o t) (hfree : t.transfers r = none) (n : ℕ)
    (htable : table o'.wmf = Function.update (table o.wmf) r
      (some ⟨o.readResults.next, .ok, u.references⟩))
    (hread : o'.readResults.cells = Function.update o.readResults.cells o.readResults.next
      (some (1, ⟨u.count⟩))) :
    Holds table (Function.update object r o.readResults.next) o'
      { t with pos := n, transfers := Function.update t.transfers r (some u) } := by
  have hne : ∀ q v, t.transfers q = some v → q ≠ r := by
    rintro q v hq rfl
    rw [hfree] at hq
    cases hq
  -- the address is not in use
  have hobject : ∀ q v, t.transfers q = some v → object q ≠ o.readResults.next := by
    intro q v hq hp
    have := Heap.lt_next (h.kept q v hq)
    omega
  refine ⟨fun q => ?_, fun q v hv => ?_, fun q q' hq hq' hp => ?_, fun p hp => ?_⟩
  · have hsame : ∀ q, q ≠ r → Function.update object r o.readResults.next q = object q :=
      fun q hq => Function.update_of_ne hq _ _
    have hresult := h.results_update hsame (some u) q
    rwa [Option.map_some, Function.update_self, ← htable] at hresult
  · rw [hread]
    by_cases hqr : q = r
    · subst hqr
      simp only [Function.update_self, Option.some.injEq] at hv ⊢
      rw [hv]
    · simp only [Function.update_of_ne hqr] at hv ⊢
      rw [Function.update_of_ne (hobject q v hv)]
      exact h.kept q v hv
  · simp only at hq hq'
    by_cases hqr : q = r
    · by_cases hqr' : q' = r
      · rw [hqr, hqr']
      · rw [Function.update_of_ne hqr'] at hq'
        obtain ⟨v, hv⟩ := Option.ne_none_iff_exists'.1 hq'
        rw [hqr, Function.update_self, Function.update_of_ne hqr'] at hp
        exact absurd hp.symm (hobject q' v hv)
    · rw [Function.update_of_ne hqr] at hq
      obtain ⟨v, hv⟩ := Option.ne_none_iff_exists'.1 hq
      by_cases hqr' : q' = r
      · rw [hqr', Function.update_self, Function.update_of_ne hqr] at hp
        exact absurd hp (hobject q v hv)
      · rw [Function.update_of_ne hqr'] at hq'
        rw [Function.update_of_ne hqr, Function.update_of_ne hqr'] at hp
        exact h.apart q q' hq hq' hp
  · rw [hread] at hp
    by_cases hpn : p = o.readResults.next
    · refine ⟨r, ?_, ?_⟩
      · simp only [Function.update_self]
        exact Option.some_ne_none u
      · rw [Function.update_self, hpn]
    · rw [Function.update_of_ne hpn] at hp
      obtain ⟨q, hq, hqp⟩ := h.owned p hp
      obtain ⟨v, hv⟩ := Option.ne_none_iff_exists'.1 hq
      refine ⟨q, ?_, ?_⟩
      · simp only [Function.update_of_ne (hne q v hv)]
        exact hq
      · rw [Function.update_of_ne (hne q v hv), hqp]

/-- A result has other references. -/
theorem Holds.keep (h : Holds table object o t) (hr : t.transfers r = some u)
    (hcount : v.count = u.count) (hcells : o'.readResults = o.readResults)
    (htable : table o'.wmf = Function.update (table o.wmf) r
      (some ⟨object r, .ok, v.references⟩)) :
    Holds table object o' { t with transfers := Function.update t.transfers r (some v) } := by
  -- the same reads are open
  have hopen : ∀ q, Function.update t.transfers r (some v) q ≠ none ↔ t.transfers q ≠ none := by
    intro q
    by_cases hq : q = r
    · subst hq
      rw [Function.update_self, hr]
      exact iff_of_true (Option.some_ne_none _) (Option.some_ne_none _)
    · rw [Function.update_of_ne hq]
  refine ⟨fun q => ?_, fun q v hv => ?_, fun q q' hq hq' => ?_, fun p hp => ?_⟩
  · rw [htable]
    exact h.results_update (fun _ _ => rfl) (some v) q
  · rw [hcells]
    simp only at hv
    by_cases hq : q = r
    · subst hq
      rw [Function.update_self] at hv
      cases hv
      rw [hcount]
      exact h.kept q u hr
    · rw [Function.update_of_ne hq] at hv
      exact h.kept q v hv
  · exact h.apart q q' ((hopen q).1 hq) ((hopen q').1 hq')
  · rw [hcells] at hp
    obtain ⟨q, hq, hqp⟩ := h.owned p hp
    exact ⟨q, (hopen q).2 hq, hqp⟩

/-- A result dies, and its object with it. -/
theorem Holds.drop (h : Holds table object o t) (hr : t.transfers r = some u)
    (htable : table o'.wmf = Function.update (table o.wmf) r none)
    (hread : o'.readResults.cells = Function.update o.readResults.cells (object r) none) :
    Holds table object o' { t with transfers := Function.update t.transfers r none } := by
  have hopen : ∀ q, Function.update t.transfers r none q ≠ none →
      q ≠ r ∧ t.transfers q ≠ none := by
    intro q hq
    have hqr : q ≠ r := by
      rintro rfl
      exact hq (Function.update_self _ _ _)
    rw [Function.update_of_ne hqr] at hq
    exact ⟨hqr, hq⟩
  have hsome : t.transfers r ≠ none := by
    rw [hr]
    exact Option.some_ne_none u
  refine ⟨fun q => ?_, fun q v hv => ?_, fun q q' hq hq' => ?_, fun p hp => ?_⟩
  · rw [htable]
    exact h.results_update (fun _ _ => rfl) none q
  · simp only at hv
    obtain ⟨hqr, hq⟩ := hopen q (by rw [hv]; exact Option.some_ne_none v)
    rw [Function.update_of_ne hqr] at hv
    rw [hread, Function.update_of_ne fun hp => hqr (h.apart q r hq hsome hp)]
    exact h.kept q v hv
  · exact h.apart q q' (hopen q hq).2 (hopen q' hq').2
  · rw [hread] at hp
    have hpr : p ≠ object r := by
      rintro rfl
      exact hp (Function.update_self _ _ _)
    rw [Function.update_of_ne hpr] at hp
    obtain ⟨q, hq, hqp⟩ := h.owned p hp
    have hqr : q ≠ r := by
      rintro rfl
      exact hpr hqp.symm
    refine ⟨q, ?_, hqp⟩
    simp only [Function.update_of_ne hqr]
    exact hq

/-- **A reference is released**: the result stays while someone needs it. -/
theorem Holds.release (h : Holds table object o t) (hW : W.Documented table)
    (hr : t.transfers r = some u) (hcount : v.count = u.count)
    (hrefs : u.references = v.references + 1) :
    ∃ o', o.ask (W.release r) = some ((), o') ∧ Holds table object o' (t.settle r v) := by
  have hresult := h.result hr
  rw [hrefs] at hresult
  rcases Nat.eq_zero_or_pos v.references with hzero | hpos
  · rw [hzero] at hresult
    have hcall : perform [.release (object r)] o.readResults =
        some (o.readResults.free (object r)) := by
      rw [perform, Heap.release_one (h.kept r u hr)]
      rfl
    obtain ⟨wmf, hask, htable⟩ := Objects.ask_eq (hW.release_last hresult rfl) hcall
    refine ⟨_, hask, ?_⟩
    rw [Transfers.settle, if_pos hzero]
    exact h.drop hr htable rfl
  · obtain ⟨wmf, hask, htable⟩ :=
      Objects.ask_silent (hW.release hresult (Nat.lt_add_of_pos_left hpos))
    refine ⟨_, hask, ?_⟩
    rw [Transfers.settle, if_neg hpos.ne']
    exact h.keep hr hcount rfl htable

end

/-! ## WMF calls a read result -/

section
variable {ω α : Type} {table : ω → ℕ → Option AsyncResult} {W : Wmf ω} {R : Heap ReadResult} {w : ω}
  {p r n : ℕ} {x : ReadResult}

/-- A reference that WMF takes, and that the stream gives back. -/
theorem ask_addRef {f : Asked ω α} {a : α} {results : ℕ → Option AsyncResult}
    (h : R.cells p = some (n, x)) (hf : f.Does table w a [.addRef p] results) :
    ∃ o : Objects ω, Objects.ask f ⟨R, w⟩ = some (a, o) ∧ o.readResults.get p = some x ∧
      o.releaseRead p = some ⟨R, o.wmf⟩ ∧ table o.wmf = results := by
  obtain ⟨R', haddRef, hrelease⟩ := Option.bind_eq_some_iff.1 (Heap.addRef_release h)
  have hget : R'.get p = some x := by
    rw [Heap.addRef_eq h] at haddRef
    obtain rfl := Option.some.inj haddRef
    exact Heap.get_eq (Function.update_self _ _ _)
  have hcall : perform [.addRef p] R = some R' := by
    rw [perform, haddRef]
    rfl
  obtain ⟨w', hask, htable⟩ := Objects.ask_eq (o := ⟨R, w⟩) hf hcall
  refine ⟨⟨R', w'⟩, hask, hget, ?_, htable⟩
  rw [Objects.releaseRead, hrelease]
  rfl

/-- The status is set, and the callback takes a reference if it is queued; else
    the one of the stream is never released. -/
theorem ask_begun (hW : W.Documented table) {status : HResult}
    (h : table w r = some ⟨p, status, 1⟩) (count : ℕ) (invoked : HResult) :
    ∃ w₁ w₂, Objects.ask (W.setStatus r .ok) ⟨R, w⟩ = some ((), ⟨R, w₁⟩) ∧
      Objects.ask (W.invokeCallback r invoked) ⟨R, w₁⟩ = some ((), ⟨R, w₂⟩) ∧
      table w₂ = Function.update (table w) r
        (some ⟨p, .ok, (Transfer.begun count invoked.succeeded).references⟩) := by
  obtain ⟨w₁, hset, htable₁⟩ := Objects.ask_silent (o := ⟨R, w⟩) (hW.setStatus (s := .ok) h)
  have h₁ : table w₁ r = some ⟨p, .ok, 1⟩ := by rw [htable₁, Function.update_self]
  cases hinvoked : invoked.succeeded with
  | true =>
    obtain ⟨w₂, hinvoke, htable₂⟩ := Objects.ask_silent (o := ⟨R, w₁⟩) (hW.invoke h₁ hinvoked)
    refine ⟨w₁, w₂, hset, hinvoke, ?_⟩
    rw [htable₂, htable₁, Function.update_idem]
    rfl
  | false =>
    obtain ⟨w₂, hinvoke, htable₂⟩ :=
      Objects.ask_silent (o := ⟨R, w₁⟩) (hW.invoke_failed h₁ hinvoked)
    refine ⟨w₁, w₂, hset, hinvoke, ?_⟩
    rw [htable₂, htable₁]
    rfl

end

/-! ## Calls -/

section
variable {σ ω : Type} [SizedSource σ] {t t' : Transfers} {stream : SyncronousByteStream σ}
  {table : ω → ℕ → Option AsyncResult} {W : Wmf ω} {s : Session σ ω}

theorem Stands.congr (h : Stands t stream) (hbytes : t'.bytes = t.bytes)
    (hpos : t'.pos = t.pos) : Stands t' stream := by
  obtain ⟨hfile, hsize⟩ := h
  rw [← hbytes] at hsize
  rw [Transfers.file, ← hbytes, ← hpos] at hfile
  exact ⟨hfile, hsize⟩

theorem stands_mk' {source : σ} (hB : (ExactSource.bytes source).length ≤ maxPos) :
    Stands (.opened (ExactSource.bytes source)) (SyncronousByteStream.mk' source) := by
  obtain ⟨-, h1, h2⟩ := SizedSource.seek_end source hB
  -- the size is the position at the end, whatever it was before
  have hend : OpenFile.At ⟨ExactSource.bytes source, (ExactSource.bytes source).length⟩
      (Device.seek 0 .end_ source).2 := ⟨h1, h2, hB, hB⟩
  obtain ⟨h3, htold⟩ := hend.tell
  have hne : ¬ ((ExactSource.bytes source).length : ℤ) = -1 := by omega
  obtain ⟨-, hbegin⟩ := htold.seek (le_maxPos (n := 0) (by norm_num))
  rw [land_of_le (Nat.zero_le _)] at hbegin
  refine ⟨hbegin, ?_⟩
  simp only [SyncronousByteStream.mk', SyncronousByteStream.tell, h3, if_neg hne, Transfers.opened]

theorem Stands.read (h : Stands t stream) {toRead : ℕ} (hlt : toRead < 2 ^ 32)
    (thrown : Option Thrown) :
    (stream.read toRead thrown).1 = (t.read toRead thrown).1 ∧
      Stands (t.read toRead thrown).2 (stream.read toRead thrown).2 := by
  match thrown with
  | some .systemError => exact ⟨rfl, h⟩
  | some .other => exact ⟨rfl, h⟩
  | none =>
    obtain ⟨hbytes, hstands⟩ := h.fetch toRead
    have hlen := length_slice_min t.bytes t.pos toRead
    have hmod : (slice t.bytes t.pos toRead).length % 2 ^ 32 =
        (slice t.bytes t.pos toRead).length := Nat.mod_eq_of_lt (by omega)
    refine ⟨?_, hstands⟩
    simp only [SyncronousByteStream.read, Transfers.read, hbytes, hmod]

/-- What a read fetches, and what it is said to. -/
theorem Transfers.read_eq_fetched (t : Transfers) (toRead : ℕ) (thrown : Option Thrown) :
    (t.read toRead thrown).1.bytes = t.fetched toRead thrown ∧
      (t.read toRead thrown).1.value.getD 0 = (t.fetched toRead thrown).length ∧
      (t.read toRead thrown).2 = { t with pos := t.pos + (t.fetched toRead thrown).length } := by
  match thrown with
  | some .systemError => exact ⟨rfl, rfl, rfl⟩
  | some .other => exact ⟨rfl, rfl, rfl⟩
  | none => exact ⟨rfl, rfl, rfl⟩

theorem Stands.seek (h : Stands t stream) (origin : Origin) (offset : ℤ)
    (hpromised : t.Promised (.seek origin offset)) :
    (stream.seek origin offset).1 =
        (t.step (ExactSource.land σ) (.seek origin offset)).1 ∧
      Stands (t.step (ExactSource.land σ) (.seek origin offset)).2
        (stream.seek origin offset).2 := by
  obtain ⟨hnonneg, hmax⟩ := hpromised
  obtain ⟨q, hq⟩ := Int.eq_ofNat_of_zero_le hnonneg
  rw [hq] at hmax
  simp only [Transfers.step, hq, Int.toNat_natCast]
  cases origin with
  | msoBegin =>
    obtain rfl : offset = q := hq
    obtain ⟨h1, h2⟩ := h.land hmax
    simp only [SyncronousByteStream.seek, zero_add, h1]
    exact ⟨by rw [qword_eq h2.pos_le], h2⟩
  | msoCurrent =>
    obtain ⟨htell, hstands⟩ := h.tell
    obtain ⟨h1, h2⟩ := hstands.land hmax
    have hsum : stream.tell.1 + offset = q := by
      rw [htell]
      exact hq
    simp only [SyncronousByteStream.seek, hsum, h1]
    exact ⟨by rw [qword_eq h2.pos_le], h2⟩

/-- The stream and the objects are those of the transfers. -/
def Represents (table : ω → ℕ → Option AsyncResult) (s : Session σ ω) (t : Transfers) : Prop :=
  Stands t s.stream ∧ ∃ object, Holds table object s.objects t

/-- A call that the stream answers, without objects. -/
theorem Represents.onStream (h : Represents table s t)
    {f : SyncronousByteStream σ → Answer × SyncronousByteStream σ} {a : Answer}
    (ha : (f s.stream).1 = a) (hf : Stands t' (f s.stream).2)
    (htransfers : t'.transfers = t.transfers) :
    ∃ s', s.onStream f = some (a, s') ∧ Represents table s' t' := by
  obtain ⟨-, object, hholds⟩ := h
  refine ⟨{ s with stream := (f s.stream).2 }, ?_, hf, object, hholds.congr rfl rfl htransfers⟩
  rw [Session.onStream, ha]

theorem Represents.beginRead (h : Represents table s t) (hW : W.Documented table)
    (callback buffer : Bool) {toRead : ℕ} (hlt : toRead < 2 ^ 32) (thrown : Option Thrown)
    {result : ℕ} (hfree : t.transfers result = none) (created invoked : HResult) :
    ∃ s', s.beginRead W callback buffer toRead thrown result created invoked =
        some ((t.beginRead callback buffer toRead thrown result created invoked).1, s') ∧
      Represents table s'
        (t.beginRead callback buffer toRead thrown result created invoked).2 := by
  obtain ⟨hstands, object, hholds⟩ := h
  unfold Session.beginRead Transfers.beginRead
  by_cases hnull : (!callback || !buffer) = true
  · rw [if_pos hnull, if_pos hnull]
    exact ⟨s, rfl, hstands, object, hholds⟩
  rw [if_neg hnull, if_neg hnull]
  obtain ⟨hanswer, hread⟩ := hstands.read hlt thrown
  obtain ⟨hbytes, hcount, hpos⟩ := t.read_eq_fetched toRead thrown
  rw [← hanswer] at hbytes hcount
  rw [hpos] at hread
  simp only [hbytes, hcount]
  generalize hfetched : t.fetched toRead thrown = bytes at *
  have hobject := Heap.cells_alloc_self (ReadResult.mk bytes.length) s.objects.readResults
  by_cases hcreated : created.succeeded = true
  · have hresult : table s.objects.wmf result = none := by
      rw [hholds.results, hfree]
      rfl
    obtain ⟨status, hdoes⟩ := hW.create (p := s.objects.readResults.next) hresult hcreated
    obtain ⟨o, hcreate, -, hrelease, htable⟩ := ask_addRef hobject hdoes
    obtain ⟨w₁, w₂, hset, hinvoke, htable₂⟩ := ask_begun
      (R := (s.objects.readResults.alloc ⟨bytes.length⟩).2) hW
      (show table o.wmf result = some ⟨_, status, 1⟩ by rw [htable, Function.update_self])
      bytes.length invoked
    rw [htable, Function.update_idem] at htable₂
    simp only [Heap.alloc_fst, hcreate, hcreated, hset, hinvoke, Option.bind_eq_bind,
      Option.bind_some, hrelease, if_true]
    exact ⟨_, rfl, hread.congr rfl rfl, _, hholds.create hfree _ htable₂ rfl⟩
  · -- the read result dies with the only reference to it
    obtain ⟨w, hcreate, htable⟩ := Objects.ask_silent
      (o := { s.objects with readResults := (s.objects.readResults.alloc ⟨bytes.length⟩).2 })
      (hW.create_failed (p := s.objects.readResults.next) (r := result)
        (Bool.not_eq_true _ ▸ hcreated))
    simp only [Heap.alloc_fst, hcreate, if_neg hcreated, Objects.releaseRead,
      Heap.release_one hobject, Option.bind_eq_bind, Option.bind_some, Option.map_some]
    exact ⟨_, rfl, hread, object, hholds.congr (Heap.cells_alloc_free _ _) htable rfl⟩

theorem Represents.endRead (h : Represents table s t) (hW : W.Documented table)
    (result : Option ℕ) (hpromised : t.Promised (.endRead result)) :
    ∃ s', s.endRead W result = some ((t.endRead result).1, s') ∧
      Represents table s' (t.endRead result).2 := by
  obtain ⟨hstands, object, hholds⟩ := h
  cases result with
  | none => exact ⟨s, rfl, hstands, object, hholds⟩
  | some r =>
    obtain ⟨u, hu, howed⟩ := hpromised
    have hrefs : u.references = ({ u with owed := false } : Transfer).references + 1 := by
      simp only [Transfer.references, howed, Bool.toNat_true, Bool.toNat_false]
      omega
    have hresult := hholds.result hu
    -- the reference of `GetObject` is given back
    obtain ⟨o₁, hobject, hget, hrelease, htable₁⟩ :=
      ask_addRef (hholds.kept r u hu) (hW.getObject hresult)
    rw [← htable₁] at hresult
    obtain ⟨w₂, hstatus, htable₂⟩ := Objects.ask_silent
      (o := ⟨s.objects.readResults, o₁.wmf⟩) (hW.getStatus hresult)
    have hholds₂ : Holds table object ⟨s.objects.readResults, w₂⟩ t :=
      hholds.congr rfl (htable₂.trans htable₁) rfl
    obtain ⟨o', hlast, hholds'⟩ := hholds₂.release hW hu (v := { u with owed := false }) rfl hrefs
    have hok : (if HResult.ok.succeeded = true then some (object r) else none) =
        some (object r) := rfl
    simp only [Session.endRead, Transfers.endRead, hu, hobject, Option.bind_eq_bind,
      Option.bind_some, hok, hget, hrelease, hstatus, hlast]
    exact ⟨_, rfl, hstands.congr rfl rfl, object, hholds'⟩

theorem Represents.callbackReturns (h : Represents table s t) (hW : W.Documented table) {r : ℕ}
    (hpromised : t.Promised (.callbackReturns r)) :
    ∃ s', s.callbackReturns W r = some ((t.callbackReturns r).1, s') ∧
      Represents table s' (t.callbackReturns r).2 := by
  obtain ⟨hstands, object, hholds⟩ := h
  obtain ⟨u, hu, hrunning⟩ := hpromised
  have hrefs : u.references = ({ u with running := false } : Transfer).references + 1 := by
    simp only [Transfer.references, hrunning, Bool.toNat_true, Bool.toNat_false]
    omega
  obtain ⟨o', hrelease, hholds'⟩ :=
    hholds.release hW hu (v := { u with running := false }) rfl hrefs
  simp only [Session.callbackReturns, Transfers.callbackReturns, hu, hrelease, Option.map_some]
  exact ⟨_, rfl, hstands.congr rfl rfl, object, hholds'⟩

/-- **One call** reaches no dead object, and is answered as the transfers say. -/
theorem Represents.step (h : Represents table s t) (hW : W.Documented table) (c : Call)
    (hpromised : t.Promised c) :
    ∃ s', s.step W c = some ((t.step (ExactSource.land σ) c).1, s') ∧
      Represents table s' (t.step (ExactSource.land σ) c).2 := by
  cases c with
  | read toRead thrown =>
    obtain ⟨hanswer, hstands⟩ := h.1.read hpromised thrown
    have hread := (t.read_eq_fetched toRead thrown).2.2
    have htransfers : (t.read toRead thrown).2.transfers = t.transfers := by rw [hread]
    exact h.onStream hanswer hstands htransfers
  | beginRead callback buffer toRead thrown result created invoked =>
    exact h.beginRead hW callback buffer hpromised.1 thrown hpromised.2 created invoked
  | endRead result => exact h.endRead hW result hpromised
  | callbackReturns r => exact h.callbackReturns hW hpromised
  | getCapabilities => exact ⟨s, rfl, h⟩
  | unimplemented => exact ⟨s, rfl, h⟩
  | getCurrentPosition =>
    obtain ⟨htell, hstands⟩ := h.1.tell
    refine h.onStream ?_ hstands rfl
    simp only [SyncronousByteStream.getCurrentPosition, htell, qword_eq h.1.pos_le]
    rfl
  | getLength =>
    refine h.onStream ?_ h.1 rfl
    simp only [SyncronousByteStream.getLength, h.1.size, qword_eq h.1.length_le]
    rfl
  | isEndOfStream =>
    obtain ⟨htell, hstands⟩ := h.1.tell
    refine h.onStream ?_ hstands rfl
    simp only [SyncronousByteStream.isEndOfStream, htell, h.1.size, Nat.cast_le]
    rfl
  | seek origin offset =>
    obtain ⟨hanswer, hstands⟩ := h.1.seek origin offset hpromised
    exact h.onStream hanswer hstands rfl
  | setCurrentPosition position =>
    obtain ⟨-, hstands⟩ := h.1.land hpromised
    exact h.onStream rfl hstands rfl

theorem serves_transfers (hW : W.Documented table) :
    Serves (Session.Answers W) (Transfers.step (ExactSource.land σ)) Transfers.Promised
      (Represents (σ := σ) table) where
  total hR hP := by
    obtain ⟨s', h, -⟩ := hR.step hW _ hP
    exact ⟨_, s', h⟩
  answer hR hP h := by
    obtain ⟨s'', h', hR'⟩ := hR.step hW _ hP
    obtain ⟨rfl, rfl⟩ := Prod.mk.inj (Option.some.inj (h.symm.trans h'))
    exact ⟨rfl, hR'⟩

end

/-! ## Reads that are lost -/

/-- Some read is lost. -/
def Transfers.Lost (t : Transfers) : Prop := ∃ r u, t.transfers r = some u ∧ u.lost = true

section
variable {t t' : Transfers} {r : ℕ} {u v : Transfer}

/-- What has been lost is not closed. -/
theorem lost_settle (hu : t.transfers r = some u) (hlost : v.lost = u.lost) :
    (t.settle r v).Lost ↔ t.Lost := by
  unfold Transfers.Lost Transfers.settle
  refine exists_congr fun q => ?_
  by_cases hq : q = r
  · subst hq
    simp only [Function.update_self, hu, Option.some.injEq, exists_eq_left', ← hlost]
    split_ifs with hzero
    · have hno : v.lost ≠ true := by
        intro h
        simp only [Transfer.references, h, Bool.toNat_true] at hzero
        omega
      exact iff_of_false (by simp) hno
    · simp only [Option.some.injEq, exists_eq_left']
  · simp only [Function.update_of_ne hq]

theorem lost_begun (hfree : t.transfers r = none) (p : ℕ) :
    Transfers.Lost { t with pos := p, transfers := Function.update t.transfers r (some u) } ↔
      t.Lost ∨ u.lost = true := by
  constructor
  · rintro ⟨q, v, hv, hlost⟩
    by_cases hq : q = r
    · subst hq
      simp only [Function.update_self, Option.some.injEq] at hv
      subst hv
      exact .inr hlost
    · simp only [Function.update_of_ne hq] at hv
      exact .inl ⟨q, v, hv, hlost⟩
  · rintro (⟨q, v, hv, hlost⟩ | hlost)
    · have hq : q ≠ r := by
        rintro rfl
        rw [hfree] at hv
        cases hv
      exact ⟨q, v, by simp only [Function.update_of_ne hq, hv], hlost⟩
    · exact ⟨r, u, by simp only [Function.update_self], hlost⟩

/-- A call that loses no read. -/
theorem lost_iff_of_not_loses {c : Call} (hc : c.loses = false) (h : t'.Lost ↔ t.Lost) :
    t'.Lost ↔ t.Lost ∨ c.loses = true := by
  rw [h, hc, or_iff_left Bool.false_ne_true]

theorem lost_congr (h : t'.transfers = t.transfers) : t'.Lost ↔ t.Lost := by
  unfold Transfers.Lost
  rw [h]

theorem lost_beginRead (callback buffer : Bool) (toRead : ℕ) (thrown : Option Thrown)
    (hfree : t.transfers r = none) (created invoked : HResult) :
    (t.beginRead callback buffer toRead thrown r created invoked).2.Lost ↔ t.Lost ∨
      (callback && buffer && created.succeeded && !invoked.succeeded) = true := by
  unfold Transfers.beginRead
  by_cases hnull : (!callback || !buffer) = true
  · have hno : (callback && buffer) = false := by
      rw [← Bool.not_eq_true', Bool.not_and, hnull]
    rw [if_pos hnull, hno, Bool.false_and, Bool.false_and, or_iff_left Bool.false_ne_true]
  · have hyes : (callback && buffer) = true := by
      rw [← Bool.not_eq_false', Bool.not_and, Bool.eq_false_iff.2 hnull]
    rw [if_neg hnull, hyes, Bool.true_and]
    by_cases hcreated : created.succeeded = true
    · simp only [hcreated, if_true, Bool.true_and]
      exact lost_begun hfree _
    · rw [Bool.not_eq_true] at hcreated
      simp only [hcreated, Bool.false_and, Bool.false_eq_true, if_false, or_false]
      exact lost_congr rfl

/-- **One call** loses a read or not. -/
theorem lost_step (land : List UInt8 → ℕ → ℕ) (c : Call) (hpromised : t.Promised c) :
    (t.step land c).2.Lost ↔ t.Lost ∨ c.loses = true := by
  cases c with
  | beginRead callback buffer toRead thrown result created invoked =>
    exact lost_beginRead callback buffer toRead thrown hpromised.2 created invoked
  | endRead result =>
    refine lost_iff_of_not_loses rfl ?_
    cases result with
    | none => rfl
    | some r =>
      obtain ⟨u, hu, -⟩ := hpromised
      simp only [Transfers.step, Transfers.endRead, hu]
      exact lost_settle hu rfl
  | callbackReturns r =>
    refine lost_iff_of_not_loses rfl ?_
    obtain ⟨u, hu, -⟩ := hpromised
    simp only [Transfers.step, Transfers.callbackReturns, hu]
    exact lost_settle hu rfl
  | read toRead thrown =>
    have hread := (t.read_eq_fetched toRead thrown).2.2
    exact lost_iff_of_not_loses rfl (lost_congr (by rw [Transfers.step, hread]))
  | _ => exact lost_iff_of_not_loses rfl (lost_congr rfl)

/-- **Any calls.** -/
theorem lost_after (land : List UInt8 → ℕ → ℕ) {calls : List Call}
    (h : Along (Transfers.step land) Transfers.Promised t calls) :
    (after (Transfers.step land) t calls).Lost ↔ t.Lost ∨ ∃ c ∈ calls, c.loses = true := by
  induction calls generalizing t with
  | nil => simp [after]
  | cons c calls ih =>
    obtain ⟨hc, hcalls⟩ := h
    rw [after, ih hcalls, lost_step land c hc, or_assoc]
    simp only [List.exists_mem_cons_iff]

end

section
variable {σ ω : Type} [SizedSource σ] {table : ω → ℕ → Option AsyncResult} {W : Wmf ω} {wmf : ω}

/-- **Transfers.**  Calls in any order, as they are promised, are all answered,
    by the bytes at the position and, for a read that is ended, by the count of
    its own bytes.  The objects that live then are the results of the reads that
    are open or lost, with one read result each; if there are none, nothing lives.
    A read is lost iff its callback was not queued. -/
theorem byteStream_transfers (hW : W.Documented table) (hwmf : ∀ r, table wmf r = none)
    (source : σ) (calls : List Call)
    (hlength : (ExactSource.bytes source).length ≤ maxPos)
    (hpromised : Along (Transfers.step (ExactSource.land σ)) Transfers.Promised
      (.opened (ExactSource.bytes source)) calls) :
    let transfers := after (Transfers.step (ExactSource.land σ))
      (.opened (ExactSource.bytes source)) calls
    ∃ s', Runs (Session.Answers W) (Session.mk' source wmf) calls
        (run (Transfers.step (ExactSource.land σ)) (.opened (ExactSource.bytes source)) calls) s' ∧
      (∃ object, Holds table object s'.objects transfers) ∧
      (s'.objects.Vacant table ↔ ∀ r, transfers.transfers r = none) ∧
      (transfers.Lost ↔ ∃ c ∈ calls, c.loses = true) := by
  have hR : Represents table (Session.mk' source wmf) (.opened (ExactSource.bytes source)) :=
    ⟨stands_mk' hlength, id, holds_empty id _ hwmf⟩
  obtain ⟨os, s', hrun⟩ := (serves_transfers hW).exists_runs hR hpromised
  obtain ⟨hos, -, object, hholds⟩ := (serves_transfers hW).runs hR hpromised hrun
  rw [hos] at hrun
  refine ⟨s', hrun, ⟨object, hholds⟩, hholds.vacant_iff, ?_⟩
  rw [lost_after _ hpromised]
  refine or_iff_right ?_
  rintro ⟨r, u, hu, -⟩
  cases hu

end

theorem byteStream_transfers_two :
    ∃ s', Runs (Session.Answers .counting) (Session.mk' (Container.mk' [1, 2, 3]) fun _ => none)
      [.beginRead true true 2 none 0 .ok .ok, .beginRead true true 2 none 1 .ok .ok,
        .endRead (some 1), .callbackReturns 1, .endRead (some 0), .callbackReturns 0]
      [⟨.ok, [1, 2], some 0⟩, ⟨.ok, [3], some 1⟩, ⟨.ok, [], some 1⟩, ⟨.ok, [], none⟩,
        ⟨.ok, [], some 2⟩, ⟨.ok, [], none⟩] s' ∧ s'.objects.Vacant id := by
  obtain ⟨s', hrun, -, hvacant, -⟩ := byteStream_transfers Wmf.counting_documented
    (fun _ => rfl) (Container.mk' [1, 2, 3])
    [.beginRead true true 2 none 0 .ok .ok, .beginRead true true 2 none 1 .ok .ok,
      .endRead (some 1), .callbackReturns 1, .endRead (some 0), .callbackReturns 0]
    (le_maxPos (by decide))
    ⟨⟨(by decide : 2 < 2 ^ 32), rfl⟩, ⟨(by decide : 2 < 2 ^ 32), rfl⟩, ⟨_, rfl, rfl⟩,
      ⟨_, rfl, rfl⟩, ⟨_, rfl, rfl⟩, ⟨_, rfl, rfl⟩, trivial⟩
  refine ⟨s', hrun, hvacant.2 fun r => ?_⟩
  match r with
  | 0 => rfl
  | 1 => rfl
  | _ + 2 => rfl

end ByteStream

end NiMedia
