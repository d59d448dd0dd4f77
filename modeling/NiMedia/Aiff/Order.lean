/-
  The order of the chunks of AIFF files.

  A `FormFile` is a file as a list of chunks, padded to even sizes.  What the
  handlers look for fits into the chunks (`WellFormed`), so that what a handler
  finds (`Finding`) depends on the payload of its chunk only.

  * `firstWalk_chunks`, `secondWalk_chunks`: the walks over such a file;
  * `foldlM_handle_perm`: the findings of different handlers commute;
  * `chunkOrder`: permuting the chunks and adding unknown ones changes neither
    the outcome nor the bytes at the beginning of the view.
-/
import NiMedia.Aiff.Extent
import NiMedia.Aiff.SoundData
import NiMedia.Audio.Chunk

namespace NiMedia.Aiff

open Bytes Loop Simulation

/-! ## Files as lists of chunks -/

def tagOf (c : Chunk) : Tag := ⟨c.id, c.payload.length⟩

/-- The offset in a `SSND` chunk. -/
def offsetOf (c : Chunk) : ℕ := field .bigEndian c.payload 0 4

/-- The payload of a `SSND` chunk after its offset. -/
def audioOf (c : Chunk) : List UInt8 := c.payload.drop (8 + offsetOf c)

/-- A file: the head of the `FORM` chunk, and the chunks in it. -/
structure FormFile where
  length : ℕ
  subType : ℕ
  subType_lt : subType < 2 ^ 32
  chunks : List Chunk

namespace FormFile

variable (F : FormFile)

def head : List UInt8 :=
  EndianType.bigEndian.toBytes 4 form ++
    (EndianType.bigEndian.toBytes 4 F.length ++ EndianType.bigEndian.toBytes 4 F.subType)

def bytes : List UInt8 := F.head ++ F.chunks.flatMap (Chunk.bytes .bigEndian)

/-- How many chunks have the id. -/
def count (id : ℕ) : ℕ := F.chunks.countP (·.id = id)

/-- What the handlers look for is in their chunks, and there are as many chunks
    of their kinds as there are to be. -/
structure WellFormed : Prop where
  length_lt : F.bytes.length < 2 ^ 32
  fits : ∀ c ∈ F.chunks, fits c.payload F.subType c.id
  soundData : ∀ c ∈ F.chunks, c.id = ssnd → 8 ≤ c.payload.length
  comm_eq : F.count comm = 1
  ssnd_eq : F.count ssnd = 1
  mark_le : F.count mark ≤ 1
  inst_le : F.count inst ≤ 1

theorem length_head : F.head.length = 12 := by
  simp only [head, List.length_append, EndianType.length_toBytes]

theorem isForm_bytes : isForm F.bytes := by
  constructor
  · rw [bytes, List.length_append, F.length_head]
    omega
  · rw [bytes, head, List.append_assoc, field, slice_head (EndianType.length_toBytes _ _ _),
      EndianType.ofBytes_toBytes]
    rfl

theorem subTypeOf_bytes : subTypeOf F.bytes = F.subType := by
  have hlt : F.subType % 256 ^ 4 = F.subType := Nat.mod_eq_of_lt F.subType_lt
  simp (disch := simp) only [subTypeOf, field, bytes, head, List.append_assoc, slice_skip,
    slice_head, EndianType.length_toBytes, Nat.reduceSub]
  rw [EndianType.ofBytes_toBytes, hlt]

end FormFile

section
variable {P : Platform} {native : EndianType} {pre post : List UInt8} {c : Chunk}

/-! ## A chunk in a file -/

theorem tagAt_chunk (h : (pre ++ (c.bytes .bigEndian ++ post)).length < 2 ^ 32) :
    tagAt (pre ++ (c.bytes .bigEndian ++ post)) pre.length = some (tagOf c) := by
  rw [c.length_in_file] at h
  rw [tagAt, if_pos (by rw [c.length_in_file]; omega), c.field_id,
    c.field_length _ _ _ (by omega)]
  rfl

/-- The chunk behind it is where its header leads. -/
theorem target_chunk (h : (pre ++ (c.bytes .bigEndian ++ post)).length < 2 ^ 32) :
    target ((pre.length + 8) % 2 ^ 32) (tagOf c).length = (pre ++ c.bytes .bigEndian).length := by
  rw [c.length_in_file] at h
  have hlen : (tagOf c).length = c.payload.length := rfl
  rw [List.length_append, c.length_bytes, target, hlen]
  split_ifs <;> omega

theorem tagAt_eof (B : List UInt8) : tagAt B B.length = none := if_neg (by omega)

end

/-! ## What the handlers find -/

/-- What a handler finds. -/
inductive Finding where
  | comm : Comm → Finding
  | markers : List (ℤ × ℕ) → Finding
  | instrument : InstrumentChunk → Finding
  | nothing

/-- The chunks in which it may be found. -/
def Finding.isIn : Finding → ℕ → Prop
  | comm _, id => id = Aiff.comm
  | markers _, id => id = mark
  | instrument _, id => id = inst
  | nothing, _ => True

def Found.add (s : Found) : Finding → Found
  | .comm c => ⟨s.info.setComm c, true⟩
  | .markers markerMap => { s with info := { s.info with markerMap } }
  | .instrument instChunk => { s with info := { s.info with instrumentChunk := some instChunk } }
  | .nothing => s

/-- Findings of different chunks commute. -/
theorem Found.add_comm (s : Found) {x y : Finding} {a b : ℕ} (hx : x.isIn a) (hy : y.isIn b)
    (hne : a ≠ b) : (s.add x).add y = (s.add y).add x := by
  cases x with
  | nothing => rfl
  | comm c => cases y with
    | comm c' => exact absurd (hx.trans hy.symm) hne
    | _ => rfl
  | markers m => cases y with
    | markers m' => exact absurd (hx.trans hy.symm) hne
    | _ => rfl
  | instrument i => cases y with
    | instrument i' => exact absurd (hx.trans hy.symm) hne
    | _ => rfl

section
variable (P : Platform) (native : EndianType) (subType : ℕ)

/-- The handler of a chunk, over its payload. -/
def handle (c : Chunk) (s : Found) : Except RuntimeError Found :=
  (readChunk P native subType (tagOf c) s (⟨c.payload, 0⟩ : File)).map Prod.fst

end

/-- What the reader makes of what has been found. -/
def Found.outcome (s : Found) : Except RuntimeError AiffIfstreamInfo :=
  if s.commChunkFound then .ok s.info.setBitRate else .error ⟨"Could not find 'COMM' chunk."⟩

/-- The info that is read of a file, or the error that is thrown. -/
def FormFile.outcome (P : Platform) (native : EndianType) (F : FormFile) :
    Except RuntimeError AiffIfstreamInfo :=
  F.chunks.foldlM (fun s c => handle P native F.subType c s)
    ⟨AiffIfstreamInfo.default native, false⟩ >>= Found.outcome

section
variable {P : Platform} {native : EndianType} {subType : ℕ} {c d : Chunk}

theorem handle_mark (hid : c.id = mark) (hfit : fits c.payload subType c.id) :
    ∃ x : Finding, x.isIn c.id ∧ ∀ s, handle P native subType c s = .ok (s.add x) := by
  obtain ⟨h2, hmarkers⟩ := hfit.2.1 hid
  obtain ⟨n, hn⟩ : ∃ n, bigUint16.get c.payload 0 = some n :=
    ⟨_, Layout.get_of_le (by rw [bigUint16_size]; omega)⟩
  by_cases hpos : 0 < n
  · obtain ⟨x, hx⟩ := readMarkers_long n 2 [] (hmarkers n hn)
    refine ⟨.markers x.1, hid, fun s => ?_⟩
    rw [handle, readChunk_of_mark (by exact hid), readMarkChunk_run hn hpos, hx]
    rfl
  · refine ⟨.nothing, trivial, fun s => ?_⟩
    obtain ⟨f, hread⟩ : ∃ f, readMarkChunk s.info (⟨c.payload, 0⟩ : File) = .ok (s.info, f) := by
      simp only [readMarkChunk, run_bind, fetch_file, hn, Except.bind, if_neg hpos, run_pure]
      exact ⟨_, rfl⟩
    rw [handle, readChunk_of_mark (by exact hid), hread]
    rfl

theorem handle_inst (hid : c.id = inst) (hfit : fits c.payload subType c.id) :
    ∃ x : Finding, x.isIn c.id ∧ ∀ s, handle P native subType c s = .ok (s.add x) := by
  obtain ⟨i, hi⟩ : ∃ i, InstrumentChunk.layout.get c.payload 0 = some i :=
    ⟨_, Layout.get_of_le (by rw [Nat.zero_add]; exact hfit.2.2 hid)⟩
  refine ⟨.instrument i, hid, fun s => ?_⟩
  obtain ⟨f, hread⟩ : ∃ f, readInstrumentChunk s.info (⟨c.payload, 0⟩ : File) =
      .ok ({ s.info with instrumentChunk := some i }, f) := by
    simp only [readInstrumentChunk, run_bind, fetch_file, hi, Except.bind, run_pure]
    exact ⟨_, rfl⟩
  rw [handle, readChunk_of_inst (by exact hid), hread]
  rfl

variable (P native subType) in
/-- The other handlers do nothing. -/
theorem handle_unknown (hcomm : c.id ≠ comm) (hmark : c.id ≠ mark) (hinst : c.id ≠ inst)
    (s : Found) : handle P native subType c s = .ok s := by
  simp only [handle, readChunk, if_neg (show (tagOf c).id ≠ comm from hcomm),
    if_neg (show (tagOf c).id ≠ mark from hmark), if_neg (show (tagOf c).id ≠ inst from hinst),
    run_pure]
  rfl

variable (P native) in
/-- **What a handler does**: only the one of `COMM` chunks may throw. -/
theorem handle_cases (hfit : fits c.payload subType c.id) :
    (∃ e, c.id = comm ∧ ∀ s, handle P native subType c s = .error e) ∨
      ∃ x : Finding, x.isIn c.id ∧ ∀ s, handle P native subType c s = .ok (s.add x) := by
  by_cases hcomm : c.id = comm
  · cases hx : readCommonChunk P native subType (tagOf c).length (⟨c.payload, 0⟩ : File) with
    | error e =>
      refine .inl ⟨e, hcomm, fun s => ?_⟩
      rw [handle, readChunk_of_comm (by exact hcomm), hx]
      rfl
    | ok x =>
      refine .inr ⟨.comm x.1, hcomm, fun s => ?_⟩
      rw [handle, readChunk_of_comm (by exact hcomm), hx]
      rfl
  · by_cases hmark : c.id = mark
    · exact .inr (handle_mark hmark hfit)
    · by_cases hinst : c.id = inst
      · exact .inr (handle_inst hinst hfit)
      · exact .inr ⟨.nothing, trivial, handle_unknown P native subType hcomm hmark hinst⟩

variable (P native) in
/-- **The handlers of different chunks commute.** -/
theorem handle_comm (hc : fits c.payload subType c.id) (hd : fits d.payload subType d.id)
    (hne : c.id ≠ d.id) (s : Found) :
    (handle P native subType c s >>= handle P native subType d) =
      (handle P native subType d s >>= handle P native subType c) := by
  rcases handle_cases P native hc with ⟨e, hid, hc⟩ | ⟨x, hx, hc⟩
  · rcases handle_cases P native hd with ⟨e', hid', hd⟩ | ⟨y, hy, hd⟩
    · exact absurd (hid.trans hid'.symm) hne
    · rw [hc, hd, ok_bind, hc]
      rfl
  · rcases handle_cases P native hd with ⟨e', hid', hd⟩ | ⟨y, hy, hd⟩
    · rw [hc, hd, ok_bind, hd]
      rfl
    · rw [hc, hd, ok_bind, ok_bind, hc, hd, s.add_comm hx hy hne]

/-! ## All chunks -/

theorem FormFile.WellFormed.commute {F : FormFile} (h : F.WellFormed) (hc : c ∈ F.chunks)
    (hd : d ∈ F.chunks) (s : Found) :
    (handle P native F.subType c s >>= handle P native F.subType d) =
      (handle P native F.subType d s >>= handle P native F.subType c) := by
  by_cases hne : c.id = d.id
  · by_cases hcomm : c.id = comm
    · rw [eq_of_countP_le_one h.comm_eq.le hc hd hcomm (hne ▸ hcomm)]
    · by_cases hmark : c.id = mark
      · rw [eq_of_countP_le_one h.mark_le hc hd hmark (hne ▸ hmark)]
      · by_cases hinst : c.id = inst
        · rw [eq_of_countP_le_one h.inst_le hc hd hinst (hne ▸ hinst)]
        · have hc' := handle_unknown P native F.subType hcomm hmark hinst
          have hd' := handle_unknown P native F.subType (hne ▸ hcomm) (hne ▸ hmark)
            (hne ▸ hinst : d.id ≠ inst)
          rw [hc', hd', ok_bind, ok_bind, hc', hd']
  · exact handle_comm P native (h.fits c hc) (h.fits d hd) hne s

/-- What is found in all chunks does not depend on their order. -/
theorem foldlM_handle_perm {F : FormFile} (h : F.WellFormed) {cs : List Chunk}
    (hperm : F.chunks.Perm cs) (s : Found) :
    F.chunks.foldlM (fun s c => handle P native F.subType c s) s =
      cs.foldlM (fun s c => handle P native F.subType c s) s := by
  rw [List.foldlM_eq_foldl, List.foldlM_eq_foldl]
  refine hperm.foldl_eq' (fun c hc d hd z => ?_) _
  rw [bind_assoc, bind_assoc]
  exact congrArg (z >>= ·) (funext fun s => h.commute hc hd s)

/-- Nothing is found in unknown chunks. -/
theorem foldlM_handle_unknown : ∀ (cs : List Chunk) (s : Found),
    (∀ c ∈ cs, c.id ≠ comm ∧ c.id ≠ mark ∧ c.id ≠ inst) →
    cs.foldlM (fun s c => handle P native subType c s) s = .ok s
  | [], _, _ => rfl
  | c :: cs, s, h => by
    obtain ⟨⟨hcomm, hmark, hinst⟩, hrest⟩ := List.forall_mem_cons.1 h
    rw [List.foldlM_cons, handle_unknown P native subType hcomm hmark hinst, ok_bind]
    exact foldlM_handle_unknown cs s hrest

/-! ## The walks -/

variable (P native) in
/-- **A pass of the first walk** does what the handler does over the payload,
    and goes on to the next chunk. -/
theorem firstPass_handle {pre post : List UInt8} (s : Found)
    (hlt : (pre ++ (c.bytes .bigEndian ++ post)).length < 2 ^ 32)
    (hfit : fits c.payload subType c.id) :
    firstPass P native subType s (⟨pre ++ (c.bytes .bigEndian ++ post), pre.length⟩ : File) =
      (handle P native subType c s).map fun s =>
        (.again s, ⟨pre ++ (c.bytes .bigEndian ++ post), (pre ++ c.bytes .bigEndian).length⟩) := by
  have htag := tagAt_chunk hlt
  have hsim := readChunk_window P native (show _ = (tagOf c).length from rfl) hfit s _ _
    (window_whole (c.slice_payload .bigEndian pre post))
  rw [firstPass_chunk htag, target_chunk hlt, handle]
  cases hx : readChunk P native subType (tagOf c) s
      (⟨pre ++ (c.bytes .bigEndian ++ post), pre.length + 8⟩ : File) with
  | error e =>
    cases hy : readChunk P native subType (tagOf c) s (⟨c.payload, 0⟩ : File) with
    | error e' =>
      rw [hx, hy] at hsim
      exact congrArg Except.error hsim
    | ok y => rw [hx, hy] at hsim; exact hsim.elim
  | ok x =>
    have hB : x.2.bytes = pre ++ (c.bytes .bigEndian ++ post) :=
      readChunk_bytes (B := ⟨_, by omega⟩) htag hx
    cases hy : readChunk P native subType (tagOf c) s (⟨c.payload, 0⟩ : File) with
    | error e' => rw [hx, hy] at hsim; exact hsim.elim
    | ok y =>
      rw [hx, hy] at hsim
      have hvalue : x.1 = y.1 := hsim.1
      simp only [Except.map, hB, hvalue]

variable (P native) in
/-- **The first walk** finds what is in the chunks. -/
theorem firstWalk_chunks : ∀ (cs : List Chunk) (pre : List UInt8) (s : Found),
    (pre ++ cs.flatMap (Chunk.bytes .bigEndian)).length < 2 ^ 32 →
    (∀ c ∈ cs, fits c.payload subType c.id) →
    ∃ r : Except RuntimeError (Found × File), Returns (loopStep (firstPass P native subType))
        (s, (⟨pre ++ cs.flatMap (Chunk.bytes .bigEndian), pre.length⟩ : File)) r ∧
      (r.map fun x => (x.1, x.2.bytes)) =
        (cs.foldlM (fun s (c : Chunk) => handle P native subType c s) s).map fun s =>
          (s, pre ++ cs.flatMap (Chunk.bytes .bigEndian))
  | [], pre, s, _, _ => by
    rw [List.flatMap_nil, List.append_nil]
    obtain ⟨p, hp⟩ := firstPass_end P native subType s (tagAt_eof pre)
    refine ⟨.ok (s, ⟨pre, p⟩), .done ?_, rfl⟩
    simp only [loopStep, hp]
  | c :: cs, pre, s, hlt, hfit => by
    obtain ⟨hc, hrest⟩ := List.forall_mem_cons.1 hfit
    rw [List.flatMap_cons] at hlt ⊢
    have hpass := firstPass_handle P native s hlt hc
    rw [List.foldlM_cons]
    cases hx : handle P native subType c s with
    | error e =>
      refine ⟨.error e, .done ?_, rfl⟩
      simp only [loopStep, hpass, hx, Except.map]
    | ok s' =>
      obtain ⟨r, hr, hmap⟩ := firstWalk_chunks cs (pre ++ c.bytes .bigEndian) s'
        (by rw [List.append_assoc]; exact hlt) hrest
      rw [List.append_assoc] at hr hmap
      refine ⟨r, .again ?_ hr, ?_⟩
      · simp only [loopStep, hpass, hx, Except.map]
      · rw [ok_bind]
        exact hmap

/-- **The second walk** stops in the `SSND` chunk, behind its offset. -/
theorem secondWalk_chunks {post : List UInt8} (hid : c.id = ssnd) (h8 : 8 ≤ c.payload.length) :
    ∀ (cs : List Chunk) (pre : List UInt8), (∀ d ∈ cs, d.id ≠ ssnd) →
    (pre ++ (cs.flatMap (Chunk.bytes .bigEndian) ++ (c.bytes .bigEndian ++ post))).length < 2 ^ 32 →
    Returns (loopStep secondPass)
      ((), (⟨pre ++ (cs.flatMap (Chunk.bytes .bigEndian) ++ (c.bytes .bigEndian ++ post)),
        pre.length⟩ : File))
      (.ok ((), ⟨pre ++ (cs.flatMap (Chunk.bytes .bigEndian) ++ (c.bytes .bigEndian ++ post)),
        (pre ++ cs.flatMap (Chunk.bytes .bigEndian)).length + 16 + offsetOf c⟩))
  | [], pre, _, hlt => by
    rw [List.flatMap_nil, List.nil_append, List.append_nil] at *
    have htag := tagAt_chunk hlt
    obtain ⟨r, htell, -⟩ := tell_header (pre ++ (c.bytes .bigEndian ++ post)) pre.length
    have hget : SoundDataChunk.layout.get (pre ++ (c.bytes .bigEndian ++ post)) (pre.length + 8) =
        some ⟨offsetOf c, field .bigEndian c.payload 4 4⟩ := by
      have hsize : SoundDataChunk.layout.size = 8 := rfl
      have hwin := get_of_window (k := 0) (c.slice_payload .bigEndian pre post)
        (L := SoundDataChunk.layout) (by omega)
      rw [Nat.add_zero] at hwin
      rw [hwin, Layout.get_of_le (by omega)]
      simp (disch := decide) only [SoundDataChunk.layout, field, slice_slice]
      rfl
    obtain ⟨-, hlen, -⟩ := Layout.get_eq_some hget
    have h16 : pre.length + 8 + SoundDataChunk.layout.size = pre.length + 16 := rfl
    have hseek : (seek (offsetOf c : ℕ) .cur : Io File ℤ)
        ⟨pre ++ (c.bytes .bigEndian ++ post), pre.length + 16⟩ =
        .ok (_, ⟨pre ++ (c.bytes .bigEndian ++ post), pre.length + 16 + offsetOf c⟩) :=
      congrArg Except.ok (File.seek_cur _ _)
    refine .done ?_
    simp only [loopStep, secondPass, run_bind, fetchTag_some htag, Except.bind, htell,
      if_pos (show (tagOf c).id = ssnd from hid), fetch_file, hget, hlen, h16, hseek, run_pure]
  | d :: cs, pre, hno, hlt => by
    obtain ⟨hd, hrest⟩ := List.forall_mem_cons.1 hno
    rw [List.flatMap_cons, List.append_assoc] at hlt ⊢
    have hih := secondWalk_chunks hid h8 cs (pre ++ d.bytes .bigEndian) hrest
      (by rw [List.append_assoc]; exact hlt)
    rw [List.append_assoc, List.append_assoc] at hih
    refine .again ?_ hih
    simp only [loopStep, secondPass_chunk (tagAt_chunk hlt) hd, target_chunk hlt]

/-! ## The reader -/

/-- The first walk over a file, and its outcome. -/
theorem firstWalk_outcome (P : Platform) (native : EndianType) {F : FormFile} (h : F.WellFormed) :
    ∃ r : Except RuntimeError (Found × File),
      Returns (loopStep (firstPass P native F.subType))
        (⟨AiffIfstreamInfo.default native, false⟩, (⟨F.bytes, 12⟩ : File)) r ∧
      F.outcome P native = (r >>= fun x => x.1.outcome) ∧ ∀ x, r = .ok x → x.2.bytes = F.bytes := by
  obtain ⟨r, hr, hmap⟩ := firstWalk_chunks P native F.chunks F.head
    ⟨AiffIfstreamInfo.default native, false⟩ h.length_lt h.fits
  rw [F.length_head] at hr
  refine ⟨r, hr, ?_, ?_⟩
  · unfold FormFile.outcome
    cases hs : F.chunks.foldlM (fun s (c : Chunk) => handle P native F.subType c s)
        ⟨AiffIfstreamInfo.default native, false⟩ with
    | error e =>
      rw [hs] at hmap
      cases r with
      | error e' => cases hmap; rfl
      | ok x => cases hmap
    | ok s =>
      rw [hs] at hmap
      cases r with
      | error e' => cases hmap
      | ok x => exact congrArg (fun x => x.1.outcome) (Except.ok.inj hmap).symm
  · rintro x rfl
    cases hs : F.chunks.foldlM (fun s (c : Chunk) => handle P native F.subType c s)
        ⟨AiffIfstreamInfo.default native, false⟩ with
    | error e => rw [hs] at hmap; cases hmap
    | ok s =>
      rw [hs] at hmap
      exact congrArg Prod.snd (Except.ok.inj hmap)

variable (P native) in
/-- Over a file, the reader comes to its outcome, and stops in the `SSND` chunk. -/
theorem readAiffHeader_bytes {F : FormFile} (h : F.WellFormed) {cs cs' : List Chunk}
    (hchunks : F.chunks = cs ++ c :: cs') (hid : c.id = ssnd) (hno : ∀ d ∈ cs, d.id ≠ ssnd) :
    ∃ fuel r, readAiffHeader P native fuel (⟨F.bytes, 0⟩ : File) = some r ∧
      r.map Prod.fst = F.outcome P native ∧ ∀ x, r = .ok x →
        x.2 = ⟨F.bytes,
          (F.head ++ cs.flatMap (Chunk.bytes .bigEndian)).length + 16 + offsetOf c⟩ := by
  obtain ⟨r, hr, houtcome, hbytes⟩ := firstWalk_outcome P native h
  obtain ⟨n, hn⟩ := returns_iff.1 hr
  cases r with
  | error e =>
    refine ⟨n, .error e, ?_, houtcome.symm, fun x hx => by cases hx⟩
    rw [readAiffHeader_isForm F.isForm_bytes, F.subTypeOf_bytes, hn, andThen_error]
  | ok x =>
    obtain ⟨found, ⟨B, p⟩⟩ := x
    have hB : B = F.bytes := hbytes (found, ⟨B, p⟩) rfl
    subst hB
    rw [ok_bind, Found.outcome] at houtcome
    by_cases hfound : found.commChunkFound = true
    · have hmem : c ∈ F.chunks := by
        rw [hchunks]
        exact List.mem_append_right _ List.mem_cons_self
      have hsplit : F.bytes = F.head ++ (cs.flatMap (Chunk.bytes .bigEndian) ++
          (c.bytes .bigEndian ++ cs'.flatMap (Chunk.bytes .bigEndian))) := by
        rw [FormFile.bytes, hchunks, List.flatMap_append, List.flatMap_cons]
      have hsecond := secondWalk_chunks hid (h.soundData c hmem hid) cs F.head hno
        (hsplit ▸ h.length_lt)
      rw [← hsplit, F.length_head] at hsecond
      obtain ⟨m, hm⟩ := returns_iff.1 hsecond
      have hm' := iterate_mono hm n
      rw [Nat.add_comm m n] at hm'
      rw [if_pos hfound] at houtcome
      refine ⟨n + m, .ok (found.info.setBitRate, _), ?_, houtcome.symm,
        fun x hx => by cases hx; rfl⟩
      rw [readAiffHeader_isForm F.isForm_bytes, F.subTypeOf_bytes, iterate_mono hn m, andThen_ok]
      simp only [findSoundData, startAgain_file, if_pos hfound, andThen_ok, hm']
    · rw [if_neg hfound] at houtcome
      refine ⟨n, .error ⟨"Could not find 'COMM' chunk."⟩, ?_, houtcome.symm,
        fun x hx => by cases hx⟩
      rw [readAiffHeader_isForm F.isForm_bytes, F.subTypeOf_bytes, hn, andThen_ok]
      simp only [findSoundData, startAgain_file, if_neg hfound, andThen_error]

/-! ## The source -/

/-- The audio is where the reader stops. -/
theorem slice_audio {δ : Type} [ExactSource δ] (pre post : List UInt8) (c : Chunk) :
    slice (pre ++ (c.bytes .bigEndian ++ post))
      (ExactSource.land δ (pre ++ (c.bytes .bigEndian ++ post)) (pre.length + 16 + offsetOf c))
      (audioOf c).length = audioOf c := by
  rcases Nat.lt_or_ge c.payload.length (8 + offsetOf c) with hlt | hle
  · -- there is none
    have hnil : audioOf c = [] := List.drop_eq_nil_of_le hlt.le
    rw [hnil]
    exact List.take_zero
  · have hlen : (audioOf c).length = c.payload.length - (8 + offsetOf c) := List.length_drop
    have haudio : slice c.payload (8 + offsetOf c) (audioOf c).length = audioOf c := by
      rw [slice, ← audioOf, List.take_length]
    have hwin := slice_of_window (k := 8 + offsetOf c) (n := (audioOf c).length)
      (c.slice_payload .bigEndian pre post) (by omega)
    have hin : pre.length + 16 + offsetOf c ≤ (pre ++ (c.bytes .bigEndian ++ post)).length := by
      rw [c.length_in_file]
      omega
    have hpos : pre.length + 8 + (8 + offsetOf c) = pre.length + 16 + offsetOf c := by omega
    rw [haudio, hpos] at hwin
    rcases ExactSource.land_eq (δ := δ) with hland | hland
    · rw [hland, hwin]
    · rw [hland, Nat.min_eq_left hin, hwin]

end

/-- A source is opened on the device with the bytes `B`, as `r` says, and the
    view begins with the bytes `audio`. -/
def opensAs {δ : Type} [Source δ] (P : Platform) (native : EndianType) (d : δ)
    (B audio : List UInt8) (r : Except RuntimeError AiffIfstreamInfo) : Prop :=
  ∃ fuel x, AiffSource.construct P native fuel d = some x ∧ x.map (·.info) = r ∧
    ∀ src, x = .ok src → slice B src.view.beg.toNat audio.length = audio

/-- As one result only. -/
theorem opensAs.unique {δ : Type} [Source δ] {P : Platform} {native : EndianType} {d : δ}
    {B audio audio' : List UInt8} {r r' : Except RuntimeError AiffIfstreamInfo}
    (h : opensAs P native d B audio r) (h' : opensAs P native d B audio' r') : r = r' := by
  obtain ⟨fuel, x, hx, rfl, -⟩ := h
  obtain ⟨fuel', x', hx', rfl, -⟩ := h'
  obtain ⟨y, hy, rfl⟩ := Option.map_eq_some_iff.1 hx
  obtain ⟨y', hy', rfl⟩ := Option.map_eq_some_iff.1 hx'
  have hmore := readAiffHeader_mono P native _ fuel fuel' y hy
  have hmore' := readAiffHeader_mono P native _ fuel' fuel y' hy'
  rw [Nat.add_comm, hmore, Option.some.injEq] at hmore'
  rw [hmore']

section
variable {c : Chunk}

/-- **Opening a file** that is well formed. -/
theorem opensAs_outcome (P : Platform) (native : EndianType) {δ : Type} [ExactSource δ] {d : δ}
    {F : FormFile} (h : F.WellFormed) {B : Content} (hB : B.bytes = F.bytes)
    (hd : ByteSource.At B 0 d) (hc : c ∈ F.chunks) (hid : c.id = ssnd) :
    opensAs P native d F.bytes (audioOf c) (F.outcome P native) := by
  obtain ⟨cs, cs', hchunks⟩ := List.append_of_mem hc
  have hno : ∀ d ∈ cs, d.id ≠ ssnd := by
    have hone := h.ssnd_eq
    have hcons : (c :: cs').countP (·.id = ssnd) = cs'.countP (·.id = ssnd) + 1 :=
      List.countP_cons_of_pos (decide_eq_true hid)
    rw [FormFile.count, hchunks, List.countP_append, hcons] at hone
    have hzero : cs.countP (·.id = ssnd) = 0 := by omega
    intro d hd hdid
    exact List.countP_eq_zero.1 hzero d hd (decide_eq_true hdid)
  obtain ⟨fuel, r, hr, hmap, hpos⟩ := readAiffHeader_bytes P native h hchunks hid hno
  rw [← hB] at hr
  have hrel : Rel B (AiffSource.unread native d) ⟨B.bytes, 0⟩ := ⟨rfl, at_aiffSource hd⟩
  have hsim := readAiffHeader_sim P native fuel hrel
  rw [hr] at hsim
  obtain ⟨x, hx, hinfo⟩ := HeaderSource.construct_map hsim
  refine ⟨fuel, x, hx, hinfo.trans hmap, ?_⟩
  rintro src rfl
  obtain ⟨f, hfile, -, hframes⟩ := construct_of_file hd hx
  rw [hr] at hfile
  obtain rfl : f = _ := hpos _ (Option.some.inj hfile)
  have hbytes : F.bytes = (F.head ++ cs.flatMap (Chunk.bytes .bigEndian)) ++
      (c.bytes .bigEndian ++ cs'.flatMap (Chunk.bytes .bigEndian)) := by
    rw [FormFile.bytes, hchunks, List.flatMap_append, List.flatMap_cons, List.append_assoc]
  rw [hframes.view.beg_eq, Int.toNat_natCast, hB, hbytes]
  exact slice_audio _ _ c

end

/-! ## Rearranged files -/

/-- The ids of the chunks that the reader looks for. -/
def knownIds : List ℕ := [comm, mark, inst, ssnd]

/-- `G` has the chunks of `F`, in any order, and any unknown ones between them. -/
structure Rearranged (F G : FormFile) (extra : List Chunk) : Prop where
  length_lt : G.bytes.length < 2 ^ 32
  subType_eq : G.subType = F.subType
  unknown : ∀ c ∈ extra, c.id ∉ knownIds
  perm : G.chunks.Perm (F.chunks ++ extra)

section
variable {F G : FormFile} {extra : List Chunk} {c : Chunk}

theorem not_mem_knownIds (h : c.id ∉ knownIds) :
    c.id ≠ comm ∧ c.id ≠ mark ∧ c.id ≠ inst ∧ c.id ≠ ssnd := by
  simpa [knownIds] using h

theorem Rearranged.count_eq (h : Rearranged F G extra) {id : ℕ} (hid : id ∈ knownIds) :
    G.count id = F.count id := by
  have hzero : extra.countP (·.id = id) = 0 := by
    refine List.countP_eq_zero.2 fun c hc hcid => h.unknown c hc ?_
    rw [of_decide_eq_true hcid]
    exact hid
  rw [FormFile.count, h.perm.countP_eq, List.countP_append, hzero]
  rfl

theorem Rearranged.mem_cases (h : Rearranged F G extra) (hc : c ∈ G.chunks) :
    c ∈ F.chunks ∨ c.id ≠ comm ∧ c.id ≠ mark ∧ c.id ≠ inst ∧ c.id ≠ ssnd := by
  rcases List.mem_append.1 (h.perm.mem_iff.1 hc) with hF | hextra
  · exact .inl hF
  · exact .inr (not_mem_knownIds (h.unknown c hextra))

/-- A rearranged file is well formed. -/
theorem Rearranged.wellFormed (h : Rearranged F G extra) (hF : F.WellFormed) : G.WellFormed where
  length_lt := h.length_lt
  fits c hc := by
    rw [h.subType_eq]
    rcases h.mem_cases hc with hc | ⟨hcomm, hmark, hinst, -⟩
    · exact hF.fits c hc
    · exact ⟨fun hid => absurd hid hcomm, fun hid => absurd hid hmark,
        fun hid => absurd hid hinst⟩
  soundData c hc hid := by
    rcases h.mem_cases hc with hc | ⟨-, -, -, hssnd⟩
    · exact hF.soundData c hc hid
    · exact absurd hid hssnd
  comm_eq := (h.count_eq (by decide)).trans hF.comm_eq
  ssnd_eq := (h.count_eq (by decide)).trans hF.ssnd_eq
  mark_le := (h.count_eq (by decide)).le.trans hF.mark_le
  inst_le := (h.count_eq (by decide)).le.trans hF.inst_le

/-- **The outcome** does not depend on the order of the chunks. -/
theorem Rearranged.outcome_eq (P : Platform) (native : EndianType) (h : Rearranged F G extra)
    (hF : F.WellFormed) : G.outcome P native = F.outcome P native := by
  have hunknown : ∀ c ∈ extra, c.id ≠ comm ∧ c.id ≠ mark ∧ c.id ≠ inst := fun c hc => by
    obtain ⟨hcomm, hmark, hinst, -⟩ := not_mem_knownIds (h.unknown c hc)
    exact ⟨hcomm, hmark, hinst⟩
  rw [FormFile.outcome, FormFile.outcome, foldlM_handle_perm (h.wellFormed hF) h.perm,
    List.foldlM_append, h.subType_eq]
  congr 1
  cases F.chunks.foldlM (fun s (c : Chunk) => handle P native F.subType c s)
      ⟨AiffIfstreamInfo.default native, false⟩ with
  | error e => rfl
  | ok s => exact foldlM_handle_unknown extra s hunknown

end

/-- **The order of chunks.**  From a well-formed file and from one with the same
    chunks in another order, and unknown ones between them, the same info is
    read, or the same error is thrown, and the view begins with the payload of
    the `SSND` chunk after its offset. -/
theorem chunkOrder (P : Platform) (native : EndianType) {F G : FormFile} {extra : List Chunk}
    (hF : F.WellFormed) (hG : Rearranged F G extra) :
    ∃ c ∈ F.chunks, c.id = ssnd ∧ ∃ r,
      (opensAs P native (File.opened F.bytes) F.bytes (audioOf c) r ∧
        opensAs P native (File.opened G.bytes) G.bytes (audioOf c) r) ∧
      opensAs P native (Container.mk' F.bytes) F.bytes (audioOf c) r ∧
      opensAs P native (Container.mk' G.bytes) G.bytes (audioOf c) r := by
  have hpos : 0 < F.count ssnd := by rw [hF.ssnd_eq]; decide
  obtain ⟨c, hc, hcid⟩ := List.countP_pos_iff.1 hpos
  have hid : c.id = ssnd := of_decide_eq_true hcid
  have hcG : c ∈ G.chunks := hG.perm.mem_iff.2 (List.mem_append_left _ hc)
  have hG' := hG.wellFormed hF
  have hfitF : F.bytes.length + 1 < 2 ^ 63 := by
    have := hF.length_lt
    omega
  have hfitG : G.bytes.length + 1 < 2 ^ 63 := by
    have := hG'.length_lt
    omega
  refine ⟨c, hc, hid, F.outcome P native, ⟨?_, ?_⟩, ?_, ?_⟩
  · exact opensAs_outcome P native hF rfl (at_opened ⟨F.bytes, hfitF⟩) hc hid
  · rw [← hG.outcome_eq P native hF]
    exact opensAs_outcome P native hG' rfl (at_opened ⟨G.bytes, hfitG⟩) hcG hid
  · exact opensAs_outcome P native hF rfl (at_container ⟨F.bytes, hfitF⟩) hc hid
  · rw [← hG.outcome_eq P native hF]
    exact opensAs_outcome P native hG' rfl (at_container ⟨G.bytes, hfitG⟩) hcG hid

/-- A frame of 8 bit mono. -/
def commChunk : Chunk where
  id := comm
  payload := [0, 1, 0, 0, 0, 1, 0, 8, 0x40, 0x0E, 0xAC, 0x44, 0, 0, 0, 0, 0, 0]
  pad := []
  id_lt := by decide
  length_pad := by decide

def ssndChunk : Chunk where
  id := ssnd
  payload := [0, 0, 0, 0, 0, 0, 0, 0, 7]
  pad := [0]
  id_lt := by decide
  length_pad := by decide

def unknownChunk : Chunk where
  id := bigEndianFourcc 'A' 'N' 'N' 'O'
  payload := [0x6E]
  pad := [0]
  id_lt := by decide
  length_pad := by decide

def smallForm (chunks : List Chunk) : FormFile where
  length := 58
  subType := aiff
  subType_lt := by decide
  chunks := chunks

theorem smallForm_wellFormed : (smallForm [commChunk, ssndChunk]).WellFormed where
  length_lt := by decide
  fits := by
    intro c hc
    rcases List.mem_pair.1 hc with rfl | rfl
    · exact ⟨fun _ h => absurd h (by decide), fun h => absurd h (by decide),
        fun h => absurd h (by decide)⟩
    · exact ⟨fun h => absurd h (by decide), fun h => absurd h (by decide),
        fun h => absurd h (by decide)⟩
  soundData := by
    intro c hc hid
    rcases List.mem_pair.1 hc with rfl | rfl
    · exact absurd hid (by decide)
    · decide
  comm_eq := by decide
  ssnd_eq := by decide
  mark_le := by decide
  inst_le := by decide

/-- It is accepted. -/
theorem smallForm_accepted :
    ∃ src, AiffSource.construct .powersOfTwo .littleEndian 4
      (Container.mk' (smallForm [commChunk, ssndChunk]).bytes) = some (.ok src) ∧
        src.info.sampleRate = 44100 :=
  exists_ok_of_map (by decide +kernel)

/-- The sound data first, and an unknown chunk before them. -/
theorem chunkOrder_small :
    ∃ c ∈ [commChunk, ssndChunk], c.id = ssnd ∧ ∃ info,
      (opensAs .powersOfTwo .littleEndian (File.opened (smallForm [commChunk, ssndChunk]).bytes)
          (smallForm [commChunk, ssndChunk]).bytes (audioOf c) (.ok info) ∧
        opensAs .powersOfTwo .littleEndian
          (File.opened (smallForm [unknownChunk, ssndChunk, commChunk]).bytes)
          (smallForm [unknownChunk, ssndChunk, commChunk]).bytes (audioOf c) (.ok info)) ∧
      opensAs .powersOfTwo .littleEndian
        (Container.mk' (smallForm [commChunk, ssndChunk]).bytes)
        (smallForm [commChunk, ssndChunk]).bytes (audioOf c) (.ok info) ∧
      opensAs .powersOfTwo .littleEndian
        (Container.mk' (smallForm [unknownChunk, ssndChunk, commChunk]).bytes)
        (smallForm [unknownChunk, ssndChunk, commChunk]).bytes (audioOf c) (.ok info) := by
  have hmoved : Rearranged (smallForm [commChunk, ssndChunk])
      (smallForm [unknownChunk, ssndChunk, commChunk]) [unknownChunk] :=
    ⟨by decide, rfl, by decide, List.reverse_perm [commChunk, ssndChunk, unknownChunk]⟩
  obtain ⟨c, hc, hid, r, hfiles, hcontainer, hcontainer'⟩ :=
    chunkOrder .powersOfTwo .littleEndian smallForm_wellFormed hmoved
  obtain ⟨src, hsrc, -⟩ := smallForm_accepted
  have hopens : opensAs .powersOfTwo .littleEndian
      (Container.mk' (smallForm [commChunk, ssndChunk]).bytes)
      (smallForm [commChunk, ssndChunk]).bytes [] (.ok src.info) :=
    ⟨4, _, hsrc, rfl, fun _ _ => List.take_zero⟩
  obtain rfl := hcontainer.unique hopens
  exact ⟨c, hc, hid, src.info, hfiles, hcontainer, hcontainer'⟩

end NiMedia.Aiff
