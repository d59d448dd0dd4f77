/-
  The sample and instrument data of WAV files, and where their chunks stand.

  A `WaveFile` is a file as a list of chunks, padded to even sizes.  The walk
  over it ends with its `data` chunk (`walk_chunks`), so that the reader finds
  what is in the chunks before that one (`Finding`).

  * `metadata_same_iff`: files that differ in the places of their `smpl` and
    `inst` chunks have the same metadata iff each of these stands before the
    `data` chunk in both of them or in none.
-/
import NiMedia.Wav.Insertion
import NiMedia.Wav.RoundTrip

namespace NiMedia.Wav

open Bytes Loop Simulation

/-! ## Files as lists of chunks -/

def tagOf (c : Chunk) : RiffTag := ⟨c.id, c.payload.length⟩

/-- The ids of the chunks with metadata. -/
def metadataIds : List ℕ := [smpl, inst]

/-- A file: the head of the `RIFF` chunk, and the chunks in it. -/
structure WaveFile where
  length : ℕ
  chunks : List Chunk

namespace WaveFile

variable (native : EndianType) (F : WaveFile)

def head : List UInt8 :=
  native.toBytes 4 riff ++ (native.toBytes 4 F.length ++ (native.toBytes 4 wave))

def bytes : List UInt8 := F.head native ++ F.chunks.flatMap (Chunk.bytes native)

/-- How many chunks have the id. -/
def count (id : ℕ) : ℕ := F.chunks.countP (·.id = id)

/-- The chunks before the `data` chunk. -/
def before : List Chunk := F.chunks.takeWhile (·.id ≠ data)

/-- No chunk is empty, the loops of a `smpl` chunk are in it, and there are as
    many chunks of their kinds as there are to be, in order. -/
structure WellFormed : Prop where
  length_lt : (F.bytes native).length < 2 ^ 32
  nonempty : ∀ c ∈ F.chunks, c.payload ≠ []
  fits : ∀ c ∈ F.chunks, fits native c.payload c.id
  fmt_eq : F.count fmt = 1
  data_eq : F.count data = 1
  smpl_le : F.count smpl ≤ 1
  inst_le : F.count inst ≤ 1
  fmt_before : ∃ c ∈ F.before, c.id = fmt

/-- Files that differ in the places of their `smpl` and `inst` chunks. -/
structure Moved (F G : WaveFile) : Prop where
  length_eq : G.length = F.length
  perm : G.chunks.Perm F.chunks
  others : G.chunks.filter (·.id ∉ metadataIds) = F.chunks.filter (·.id ∉ metadataIds)

theorem length_head : (F.head native).length = 12 := by
  simp only [head, List.length_append, EndianType.length_toBytes]

theorem isWave_bytes : isWave native (F.bytes native) := by
  refine ⟨?_, ?_, ?_⟩
  · rw [bytes, List.length_append, F.length_head]
    omega
  · rw [bytes, head, List.append_assoc, slice_head (EndianType.length_toBytes _ _ _),
      EndianType.ofBytes_toBytes]
    rfl
  · simp (disch := simp) only [bytes, head, List.append_assoc, slice_skip, slice_head,
      EndianType.length_toBytes, Nat.reduceSub]
    rw [EndianType.ofBytes_toBytes]
    rfl

end WaveFile

section
variable {native : EndianType} {pre post : List UInt8} {c : Chunk}

/-! ## A chunk in a file -/

theorem tagAt_inFile (h : (pre ++ (c.bytes native ++ post)).length < 2 ^ 32) :
    tagAt native (pre ++ (c.bytes native ++ post)) pre.length = some (tagOf c) := by
  rw [c.length_in_file] at h
  have hid := c.field_id native pre post
  have hlength := c.field_length native pre post (by omega)
  rw [field] at hid hlength
  rw [tagAt, if_pos (by rw [c.length_in_file]; omega), hid, hlength]
  rfl

/-- The chunk behind it is where its header leads. -/
theorem nextOffset_inFile (heven : pre.length % 2 = 0)
    (h : (pre ++ (c.bytes native ++ post)).length < 2 ^ 32) :
    nextOffset ((pre.length + 8) % 2 ^ 32) (tagOf c).length = (pre ++ c.bytes native).length := by
  rw [c.length_in_file] at h
  have hlen : (tagOf c).length = c.payload.length := rfl
  rw [List.length_append, c.length_bytes, nextOffset_eq, hlen]
  omega

end

/-! ## What the handlers find -/

/-- A chunk with the id, and with data of so many bytes. -/
def carries (id n : ℕ) (c : Chunk) : Prop := c.id = id ∧ n ≤ c.payload.length

instance (id n : ℕ) (c : Chunk) : Decidable (carries id n c) := inferInstanceAs (Decidable (_ ∧ _))

/-- What a handler finds. -/
inductive Finding where
  | format : Fmt → Finding
  | samples : SampleChunk → Option (List (ℤ × SampleLoop)) → Finding
  | instrument : InstrumentChunk → Finding
  | nothing

/-- The chunks in which it is found. -/
def Finding.isIn : Finding → Chunk → Prop
  | format _, c => c.id = fmt
  | samples _ _, c => carries smpl 36 c
  | instrument _, c => carries inst 7 c
  | nothing, c => c.id ≠ fmt ∧ ¬ carries smpl 36 c ∧ ¬ carries inst 7 c

def WavIfstreamInfo.add (info : WavIfstreamInfo) : Finding → WavIfstreamInfo
  | .format f => info.setFmt f
  | .samples sampleChunk sampleLoops =>
    { info with
      sampleChunk := some sampleChunk
      sampleLoops := sampleLoops.or info.sampleLoops }
  | .instrument instrumentChunk => { info with instrumentChunk := some instrumentChunk }
  | .nothing => info

/-- The info with which a pass ends. -/
def infoOf : Next WavIfstreamInfo WavIfstreamInfo → WavIfstreamInfo
  | .again info => info
  | .done info => info

/-- The handler of a chunk, over its payload. -/
def handle (native : EndianType) (info : WavIfstreamInfo) (c : Chunk) :
    Except RuntimeError WavIfstreamInfo :=
  (readChunk native (tagOf c) info (⟨c.payload, 0⟩ : File)).map fun x => infoOf x.1

section
variable {native : EndianType} {c : Chunk}

theorem handle_fmt (hid : c.id = fmt) (info : WavIfstreamInfo) :
    handle native info c =
      (readFmtChunk native c.payload.length (⟨c.payload, 0⟩ : File)).map fun x =>
        info.add (.format x.1) := by
  have htag : (tagOf c).id = fmt := hid
  rw [handle, readChunk_fmt htag]
  have hlen : (tagOf c).length = c.payload.length := rfl
  rw [hlen]
  cases readFmtChunk native c.payload.length (⟨c.payload, 0⟩ : File) <;> rfl

theorem handle_smpl (hid : c.id = smpl) (hfit : fits native c.payload c.id) :
    ∃ x : Finding, x.isIn c ∧ ∀ info, handle native info c = .ok (info.add x) := by
  have hne : smpl ≠ fmt := by decide
  have hne' : smpl ≠ data := by decide
  have htag : (tagOf c).id = smpl := hid
  have hlen : (tagOf c).length = c.payload.length := rfl
  have hsize : (SampleChunk.layout native).size = 36 := rfl
  by_cases h36 : 36 ≤ c.payload.length
  · obtain ⟨s, hs⟩ : ∃ s, (SampleChunk.layout native).get c.payload 0 = some s :=
      ⟨_, Layout.get_of_le (by omega)⟩
    have hloops := hfit hid h36 s hs
    obtain ⟨-, hget, -⟩ := Layout.get_eq_some hs
    rw [hsize] at hget
    by_cases hpos : 0 < s.sampleLoops
    · obtain ⟨x, hx⟩ : ∃ x, readSampleLoops native s.sampleLoops.toNat []
          (⟨c.payload, 0 + 36⟩ : File) = .ok x := readSampleLoops_long _ _ _ _ (by omega)
      refine ⟨.samples s (some x.1), ⟨hid, h36⟩, fun info => ?_⟩
      simp only [handle, readChunk, htag, hlen, if_neg hne, if_neg hne', if_true, run_bind,
        readSampleChunk, if_pos h36, fetch_file, hs, Except.bind, hsize, hget, run_ite, if_pos hpos,
        hx, run_pure]
      rfl
    · refine ⟨.samples s none, ⟨hid, h36⟩, fun info => ?_⟩
      simp only [handle, readChunk, htag, hlen, if_neg hne, if_neg hne', if_true, run_bind,
        readSampleChunk, if_pos h36, fetch_file, hs, Except.bind, run_ite, if_neg hpos, run_pure]
      rfl
  · have hnot : ¬ carries inst 7 c := fun h => absurd (hid.symm.trans h.1) (by decide)
    refine ⟨.nothing, ⟨by rw [hid]; exact hne, fun h => h36 h.2, hnot⟩, fun info => ?_⟩
    simp only [handle, readChunk, htag, hlen, if_neg hne, if_neg hne', if_true, run_bind,
      readSampleChunk, if_neg h36, Except.bind, run_pure]
    rfl

theorem handle_inst (hid : c.id = inst) :
    ∃ x : Finding, x.isIn c ∧ ∀ info, handle native info c = .ok (info.add x) := by
  have hne : inst ≠ fmt := by decide
  have hne' : inst ≠ data := by decide
  have hne'' : inst ≠ smpl := by decide
  have htag : (tagOf c).id = inst := hid
  have hlen : (tagOf c).length = c.payload.length := rfl
  have hsize : (InstrumentChunk.layout native).size = 7 := rfl
  by_cases h7 : 7 ≤ c.payload.length
  · obtain ⟨i, hi⟩ : ∃ i, (InstrumentChunk.layout native).get c.payload 0 = some i :=
      ⟨_, Layout.get_of_le (by omega)⟩
    refine ⟨.instrument i, ⟨hid, h7⟩, fun info => ?_⟩
    simp only [handle, readChunk, htag, hlen, if_neg hne, if_neg hne', if_neg hne'', if_true,
      run_bind, readInstrumentChunk, if_pos h7, fetch_file, hi, Except.bind, run_pure]
    rfl
  · have hnot : ¬ carries smpl 36 c := fun h => absurd (hid.symm.trans h.1) (by decide)
    refine ⟨.nothing, ⟨by rw [hid]; exact hne, hnot, fun h => h7 h.2⟩, fun info => ?_⟩
    simp only [handle, readChunk, htag, hlen, if_neg hne, if_neg hne', if_neg hne'', if_true,
      run_bind, readInstrumentChunk, if_neg h7, Except.bind, run_pure]
    rfl

/-- **What a handler does**: only the one of `fmt ` chunks may throw. -/
theorem handle_cases (hdata : c.id ≠ data) (hfit : fits native c.payload c.id) :
    (∃ e, c.id = fmt ∧ ∀ info, handle native info c = .error e) ∨
      ∃ x : Finding, x.isIn c ∧ ∀ info, handle native info c = .ok (info.add x) := by
  by_cases hfmt : c.id = fmt
  · cases hx : readFmtChunk native c.payload.length (⟨c.payload, 0⟩ : File) with
    | error e =>
      refine .inl ⟨e, hfmt, fun info => ?_⟩
      rw [handle_fmt hfmt, hx]
      rfl
    | ok x =>
      refine .inr ⟨.format x.1, hfmt, fun info => ?_⟩
      rw [handle_fmt hfmt, hx]
      rfl
  · by_cases hsmpl : c.id = smpl
    · exact .inr (handle_smpl hsmpl hfit)
    · by_cases hinst : c.id = inst
      · exact .inr (handle_inst hinst)
      · refine .inr ⟨.nothing, ⟨hfmt, fun h => hsmpl h.1, fun h => hinst h.1⟩, fun info => ?_⟩
        have hid : (tagOf c).id ∉ knownIds := by
          simp [knownIds, tagOf, hfmt, hdata, hsmpl, hinst]
        rw [handle, readChunk_unknown hid]
        rfl

/-! ## All chunks before the `data` chunk -/

/-- No `data` chunk, no empty chunk, and no loops outside of their chunk. -/
def inOrder (native : EndianType) (c : Chunk) : Prop :=
  c.id ≠ data ∧ c.payload ≠ [] ∧ fits native c.payload c.id

theorem Finding.add_fmt {x : Finding} {info info' : WavIfstreamInfo} (h : info.fmt = info'.fmt) :
    (info.add x).fmt = (info'.add x).fmt := by
  cases x with
  | format f => rfl
  | samples s l => exact h
  | instrument i => exact h
  | nothing => exact h

/-- The chunks with metadata leave the format alone. -/
theorem Finding.add_fmt_of_metadata {x : Finding} (hx : x.isIn c) (hid : c.id ∈ metadataIds)
    (info : WavIfstreamInfo) : (info.add x).fmt = info.fmt := by
  cases x with
  | format f =>
    have hfmt : c.id = fmt := hx
    rw [hfmt] at hid
    exact absurd hid (by decide)
  | samples s l => rfl
  | instrument i => rfl
  | nothing => rfl

/-- The format, or the error, does not depend on the chunks with metadata. -/
theorem foldlM_fmt : ∀ (cs : List Chunk), (∀ c ∈ cs, inOrder native c) →
    ∀ info info' : WavIfstreamInfo, info.fmt = info'.fmt →
      (cs.foldlM (handle native) info).map WavIfstreamInfo.fmt =
        ((cs.filter (·.id ∉ metadataIds)).foldlM (handle native) info').map WavIfstreamInfo.fmt
  | [], _, info, info', h => congrArg Except.ok h
  | c :: cs, hcs, info, info', h => by
    obtain ⟨⟨hdata, -, hfit⟩, hrest⟩ := List.forall_mem_cons.1 hcs
    rw [List.foldlM_cons]
    rcases handle_cases hdata hfit with ⟨e, hid, he⟩ | ⟨x, hx, hok⟩
    · have hkeep : decide (c.id ∉ metadataIds) = true := by
        rw [hid]
        decide
      rw [List.filter_cons, if_pos hkeep, List.foldlM_cons, he, he]
      rfl
    · by_cases hid : c.id ∈ metadataIds
      · have hdrop : ¬ decide (c.id ∉ metadataIds) = true := by simpa using hid
        rw [List.filter_cons, if_neg hdrop, hok, ok_bind]
        exact foldlM_fmt cs hrest _ _ ((Finding.add_fmt_of_metadata hx hid info).trans h)
      · have hkeep : decide (c.id ∉ metadataIds) = true := decide_eq_true hid
        rw [List.filter_cons, if_pos hkeep, List.foldlM_cons, hok, hok, ok_bind, ok_bind]
        exact foldlM_fmt cs hrest _ _ (Finding.add_fmt h)

/-- A part of the info that is set by one kind of chunks. -/
structure IsPart {α : Type} (part : WavIfstreamInfo → α) (id n : ℕ) : Prop where
  keeps : ∀ {x : Finding} {c : Chunk} (info : WavIfstreamInfo), x.isIn c → ¬ carries id n c →
    part (info.add x) = part info
  sets : ∀ {x : Finding} {c : Chunk} {info info' : WavIfstreamInfo}, x.isIn c → carries id n c →
    part info = part info' → part (info.add x) = part (info'.add x)

section
variable {α : Type} {part : WavIfstreamInfo → α} {id n : ℕ} {info info' : WavIfstreamInfo}
  {cs : List Chunk}

/-- Where no handler throws, each finds something. -/
theorem exists_finding (hcs : ∀ c ∈ cs, inOrder native c)
    (hfold : cs.foldlM (handle native) info = .ok info') {c : Chunk} (hc : c ∈ cs) :
    ∃ x : Finding, x.isIn c ∧ ∀ info, handle native info c = .ok (info.add x) := by
  obtain ⟨hdata, -, hfit⟩ := hcs c hc
  rcases handle_cases hdata hfit with ⟨e, -, he⟩ | hfinds
  · obtain ⟨l, r, rfl⟩ := List.append_of_mem hc
    rw [List.foldlM_append] at hfold
    cases hl : l.foldlM (handle native) info with
    | error e' => rw [hl] at hfold; cases hfold
    | ok i => rw [hl, ok_bind, List.foldlM_cons, he] at hfold; cases hfold
  · exact hfinds

/-- No handler throws if those of `fmt ` chunks do not. -/
theorem foldlM_ok (info : WavIfstreamInfo) (hcs : ∀ c ∈ cs, inOrder native c)
    (hfmt : ∀ c ∈ cs, c.id = fmt → ∃ x,
      readFmtChunk native c.payload.length (⟨c.payload, 0⟩ : File) = .ok x) :
    ∃ info', cs.foldlM (handle native) info = .ok info' := by
  induction cs generalizing info with
  | nil => exact ⟨info, rfl⟩
  | cons c cs ih =>
    obtain ⟨⟨hdata, -, hfit⟩, hrest⟩ := List.forall_mem_cons.1 hcs
    obtain ⟨hc, hfmt⟩ := List.forall_mem_cons.1 hfmt
    rw [List.foldlM_cons]
    rcases handle_cases hdata hfit with ⟨e, hid, he⟩ | ⟨x, -, hok⟩
    · obtain ⟨y, hy⟩ := hc hid
      have h1 := he info
      rw [handle_fmt hid, hy] at h1
      cases h1
    · rw [hok, ok_bind]
      exact ih _ hrest hfmt

/-- Other chunks do not change a part. -/
theorem IsPart.foldlM_keeps (h : IsPart part id n) (hcs : ∀ c ∈ cs, inOrder native c)
    (hno : ∀ c ∈ cs, ¬ carries id n c) (hfold : cs.foldlM (handle native) info = .ok info') :
    part info' = part info := by
  induction cs generalizing info with
  | nil =>
    cases hfold
    rfl
  | cons c cs ih =>
    obtain ⟨⟨hdata, -, hfit⟩, hrest⟩ := List.forall_mem_cons.1 hcs
    obtain ⟨hc, hno⟩ := List.forall_mem_cons.1 hno
    rw [List.foldlM_cons] at hfold
    rcases handle_cases hdata hfit with ⟨e, -, he⟩ | ⟨x, hx, hok⟩
    · rw [he] at hfold
      cases hfold
    · rw [hok, ok_bind] at hfold
      rw [ih hrest hno hfold, h.keeps info hx hc]

/-- The one chunk that carries a part sets it. -/
theorem IsPart.foldlM_sets (h : IsPart part id n) (hcs : ∀ c ∈ cs, inOrder native c)
    (hone : cs.countP (·.id = id) ≤ 1) (hc : c ∈ cs) (hcarries : carries id n c) {x : Finding}
    (hx : x.isIn c) (hok : ∀ info, handle native info c = .ok (info.add x))
    (hfold : cs.foldlM (handle native) info = .ok info') : part info' = part (info.add x) := by
  obtain ⟨l, r, rfl⟩ := List.append_of_mem hc
  have hcons : (c :: r).countP (·.id = id) = r.countP (·.id = id) + 1 :=
    List.countP_cons_of_pos (decide_eq_true hcarries.1)
  rw [List.countP_append, hcons] at hone
  have hleft : ∀ d ∈ l, ¬ carries id n d := fun d hd hcar =>
    List.countP_eq_zero.1 (show l.countP (·.id = id) = 0 by omega) d hd (decide_eq_true hcar.1)
  have hright : ∀ d ∈ r, ¬ carries id n d := fun d hd hcar =>
    List.countP_eq_zero.1 (show r.countP (·.id = id) = 0 by omega) d hd (decide_eq_true hcar.1)
  rw [List.foldlM_append] at hfold
  cases hl : l.foldlM (handle native) info with
  | error e =>
    rw [hl] at hfold
    cases hfold
  | ok i =>
    rw [hl, ok_bind, List.foldlM_cons, hok, ok_bind] at hfold
    have h1 := h.foldlM_keeps (fun d hd => hcs d (List.mem_append_left _ hd)) hleft hl
    have h2 := h.foldlM_keeps
      (fun d hd => hcs d (List.mem_append_right _ (List.mem_cons_of_mem _ hd))) hright hfold
    exact h2.trans (h.sets hx hcarries h1)

/-- **A part of two infos** is the same iff both of them, or none, have met the
    chunk that carries it. -/
theorem IsPart.eq_iff (h : IsPart part id n) (info : WavIfstreamInfo)
    (hne : ∀ {x : Finding} {c : Chunk}, x.isIn c → carries id n c → part (info.add x) ≠ part info)
    {cs' : List Chunk} {i i' : WavIfstreamInfo}
    (hcs : ∀ c ∈ cs, inOrder native c) (hcs' : ∀ c ∈ cs', inOrder native c)
    (hone : cs.countP (·.id = id) ≤ 1) (hone' : cs'.countP (·.id = id) ≤ 1)
    (hsame : ∀ c ∈ cs, ∀ d ∈ cs', carries id n c → carries id n d → c = d)
    (hi : cs.foldlM (handle native) info = .ok i) (hi' : cs'.foldlM (handle native) info = .ok i') :
    part i = part i' ↔ ((∃ c ∈ cs, carries id n c) ↔ ∃ c ∈ cs', carries id n c) := by
  -- what a chunk that carries it makes of it
  have hfinds : ∀ {ds : List Chunk} {j : WavIfstreamInfo}, (∀ c ∈ ds, inOrder native c) →
      ds.countP (·.id = id) ≤ 1 → ds.foldlM (handle native) info = .ok j →
      ∀ c ∈ ds, carries id n c → ∃ x : Finding, x.isIn c ∧
        (∀ info, handle native info c = .ok (info.add x)) ∧ part j = part (info.add x) := by
    intro ds j hds honly hj c hc hcar
    obtain ⟨x, hx, hok⟩ := exists_finding hds hj hc
    exact ⟨x, hx, hok, h.foldlM_sets hds honly hc hcar hx hok hj⟩
  by_cases hin : ∃ c ∈ cs, carries id n c
  · obtain ⟨c, hc, hcar⟩ := hin
    obtain ⟨x, hx, hok, hpart⟩ := hfinds hcs hone hi c hc hcar
    by_cases hin' : ∃ c ∈ cs', carries id n c
    · obtain ⟨d, hd, hcar'⟩ := hin'
      obtain rfl := hsame c hc d hd hcar hcar'
      have hpart' := h.foldlM_sets hcs' hone' hd hcar' hx hok hi'
      exact iff_of_true (hpart.trans hpart'.symm) (iff_of_true ⟨c, hc, hcar⟩ ⟨c, hd, hcar'⟩)
    · have hpart' := h.foldlM_keeps hcs' (fun d hd hcar' => hin' ⟨d, hd, hcar'⟩) hi'
      refine iff_of_false (fun heq => hne hx hcar ?_) fun hiff => hin' (hiff.1 ⟨c, hc, hcar⟩)
      exact hpart.symm.trans (heq.trans hpart')
  · have hpart := h.foldlM_keeps hcs (fun c hc hcar => hin ⟨c, hc, hcar⟩) hi
    by_cases hin' : ∃ c ∈ cs', carries id n c
    · obtain ⟨d, hd, hcar'⟩ := hin'
      obtain ⟨x, hx, -, hpart'⟩ := hfinds hcs' hone' hi' d hd hcar'
      refine iff_of_false (fun heq => hne hx hcar' ?_) fun hiff => hin (hiff.2 ⟨d, hd, hcar'⟩)
      exact hpart'.symm.trans (heq.symm.trans hpart)
    · have hpart' := h.foldlM_keeps hcs' (fun d hd hcar' => hin' ⟨d, hd, hcar'⟩) hi'
      exact iff_of_true (hpart.trans hpart'.symm) (iff_of_false hin hin')

end

/-- The sample data are a part of the info. -/
theorem isPart_samples :
    IsPart (fun info => (info.sampleChunk, info.sampleLoops)) smpl 36 where
  keeps := by
    intro x c info hx hno
    cases x with
    | samples s l => exact absurd hx hno
    | _ => rfl
  sets := by
    intro x c info info' hx hcar h
    cases x with
    | samples s l =>
      obtain ⟨-, hloops⟩ := Prod.ext_iff.1 h
      exact congrArg (fun o => (some s, l.or o)) hloops
    | _ => exact h

/-- The instrument data are. -/
theorem isPart_instrument : IsPart WavIfstreamInfo.instrumentChunk inst 7 where
  keeps := by
    intro x c info hx hno
    cases x with
    | instrument i => exact absurd hx hno
    | _ => rfl
  sets := by
    intro x c info info' hx hcar h
    cases x with
    | instrument i => rfl
    | _ => exact h

/-- And so is the format. -/
theorem isPart_fmt : IsPart WavIfstreamInfo.fmt fmt 0 where
  keeps := by
    intro x c info hx hno
    cases x with
    | format f => exact absurd ⟨hx, Nat.zero_le _⟩ hno
    | _ => rfl
  sets := by
    intro x c info info' hx hcar h
    exact Finding.add_fmt h

/-! ## The walk -/

section
variable {pre post : List UInt8} {d : Chunk}

theorem length_tagOf (h : c.payload ≠ []) : (tagOf c).length ≠ 0 := by
  rwa [ne_eq, tagOf, List.length_eq_zero_iff]

/-- **A pass** does what the handler does over the payload, and goes on to the
    next chunk. -/
theorem pass_handle (info : WavIfstreamInfo) (heven : pre.length % 2 = 0)
    (hlt : (pre ++ (c.bytes native ++ post)).length < 2 ^ 32) (hc : inOrder native c) :
    pass native info (⟨pre ++ (c.bytes native ++ post), pre.length⟩ : File) =
      (handle native info c).map fun info =>
        (.again info, ⟨pre ++ (c.bytes native ++ post), (pre ++ c.bytes native).length⟩) := by
  obtain ⟨hdata, hne, hfit⟩ := hc
  have htag := tagAt_inFile hlt
  have hlen : (tagOf c).length ≤ c.payload.length := le_rfl
  have hloops : (tagOf c).id = smpl → 36 ≤ (tagOf c).length → sampleLoopsFit native c.payload :=
    fun hid _ => hfit hid
  have hsim := readChunk_window hlen hloops info _ _
    (window_whole (c.slice_payload native pre post))
  rw [pass_file, htag]
  simp only [if_neg (length_tagOf hne), nextOffset_inFile heven hlt, handle]
  cases hx : readChunk native (tagOf c) info
      (⟨pre ++ (c.bytes native ++ post), pre.length + 8⟩ : File) with
  | error e =>
    cases hy : readChunk native (tagOf c) info (⟨c.payload, 0⟩ : File) with
    | error e' =>
      rw [hx, hy] at hsim
      exact congrArg Except.error hsim
    | ok y => rw [hx, hy] at hsim; exact hsim.elim
  | ok x =>
    have hB : x.2.bytes = pre ++ (c.bytes native ++ post) :=
      readChunk_bytes (B := ⟨_, by omega⟩) htag hx
    cases hy : readChunk native (tagOf c) info (⟨c.payload, 0⟩ : File) with
    | error e' => rw [hx, hy] at hsim; exact hsim.elim
    | ok y =>
      rw [hx, hy] at hsim
      obtain ⟨a, ⟨bytes, p⟩⟩ := x
      obtain ⟨b, f'⟩ := y
      obtain rfl : a = b := hsim.1
      obtain rfl : bytes = pre ++ (c.bytes native ++ post) := hB
      cases a with
      | again i => rfl
      | done i => exact absurd (readChunk_done hx).1 hdata

/-- The pass over the `data` chunk is the last one. -/
theorem pass_data (info : WavIfstreamInfo)
    (hlt : (pre ++ (d.bytes native ++ post)).length < 2 ^ 32) (hid : d.id = data)
    (hne : d.payload ≠ []) :
    pass native info (⟨pre ++ (d.bytes native ++ post), pre.length⟩ : File) =
      (dataChunk d.payload.length info).map fun info =>
        (.done info, ⟨pre ++ (d.bytes native ++ post), pre.length + 8⟩) := by
  have htag : (tagOf d).id = data := hid
  rw [pass_file, tagAt_inFile hlt]
  simp only [if_neg (length_tagOf hne), readChunk_data htag]
  have hlen : (tagOf d).length = d.payload.length := rfl
  rw [hlen]
  cases dataChunk d.payload.length info <;> rfl

/-- **The walk** handles the chunks before the `data` chunk, and completes the
    info with it. -/
theorem walk_chunks (hid : d.id = data) (hne : d.payload ≠ []) : ∀ (cs : List Chunk)
    (pre : List UInt8) (info : WavIfstreamInfo), pre.length % 2 = 0 →
    (pre ++ (cs.flatMap (Chunk.bytes native) ++ (d.bytes native ++ post))).length < 2 ^ 32 →
    (∀ c ∈ cs, inOrder native c) →
    ∃ r : Except RuntimeError (WavIfstreamInfo × File), Returns (loopStep (pass native))
        (info, (⟨pre ++ (cs.flatMap (Chunk.bytes native) ++ (d.bytes native ++ post)),
          pre.length⟩ : File)) r ∧
      r.map Prod.fst = cs.foldlM (handle native) info >>= dataChunk d.payload.length
  | [], pre, info, _, hlt, _ => by
    rw [List.flatMap_nil, List.nil_append] at hlt ⊢
    have hpass := pass_data info hlt hid hne
    rw [List.foldlM_nil]
    cases hx : dataChunk d.payload.length info with
    | error e =>
      refine ⟨.error e, .done ?_, ?_⟩
      · simp only [loopStep, hpass, hx, Except.map]
      · exact hx.symm
    | ok i =>
      refine ⟨.ok (i, ⟨pre ++ (d.bytes native ++ post), pre.length + 8⟩), .done ?_, ?_⟩
      · simp only [loopStep, hpass, hx, Except.map]
      · exact hx.symm
  | c :: cs, pre, info, heven, hlt, hcs => by
    obtain ⟨hc, hrest⟩ := List.forall_mem_cons.1 hcs
    rw [List.flatMap_cons, List.append_assoc] at hlt ⊢
    have hpass := pass_handle info heven hlt hc
    rw [List.foldlM_cons]
    cases hx : handle native info c with
    | error e =>
      refine ⟨.error e, .done ?_, rfl⟩
      simp only [loopStep, hpass, hx, Except.map]
    | ok i =>
      have heven' : (pre ++ c.bytes native).length % 2 = 0 := by
        rw [List.length_append, c.length_bytes]
        omega
      obtain ⟨r, hr, hmap⟩ := walk_chunks hid hne cs (pre ++ c.bytes native) i heven'
        (by rw [List.append_assoc]; exact hlt) hrest
      rw [List.append_assoc] at hr
      refine ⟨r, .again ?_ hr, ?_⟩
      · simp only [loopStep, hpass, hx, Except.map]
      · rw [ok_bind]
        exact hmap

end

namespace WaveFile

variable {F G : WaveFile} {d : Chunk}

/-- What the reader makes of a file with the `data` chunk `d`. -/
def outcome (native : EndianType) (F : WaveFile) (d : Chunk) :
    Except RuntimeError WavIfstreamInfo :=
  F.before.foldlM (handle native) (WavIfstreamInfo.default native) >>= dataChunk d.payload.length

theorem mem_of_mem_before (h : c ∈ F.before) : c ∈ F.chunks ∧ c.id ≠ data := by
  have hid := List.all_eq_true.1 List.all_takeWhile c h
  exact ⟨List.takeWhile_subset _ h, of_decide_eq_true hid⟩

theorem WellFormed.inOrder (h : F.WellFormed native) : ∀ c ∈ F.before, inOrder native c := by
  intro c hc
  obtain ⟨hmem, hid⟩ := mem_of_mem_before hc
  exact ⟨hid, h.nonempty c hmem, h.fits c hmem⟩

/-- The chunks are those before the `data` chunk, this one, and others. -/
theorem WellFormed.chunks_eq (h : F.WellFormed native) (hd : d ∈ F.chunks) (hid : d.id = data) :
    ∃ behind, F.chunks = F.before ++ d :: behind := by
  have hsplit : F.before ++ F.chunks.dropWhile (·.id ≠ data) = F.chunks :=
    List.takeWhile_append_dropWhile
  cases hrest : F.chunks.dropWhile (·.id ≠ data) with
  | nil =>
    rw [hrest, List.append_nil] at hsplit
    rw [← hsplit] at hd
    exact absurd hid (mem_of_mem_before hd).2
  | cons e behind =>
    have hhead := List.head?_dropWhile_not (fun c : Chunk => decide (c.id ≠ data)) F.chunks
    rw [hrest] at hhead hsplit
    have heid : e.id = data := by simpa using hhead
    have hmem : e ∈ F.chunks := by
      rw [← hsplit]
      exact List.mem_append_right _ List.mem_cons_self
    obtain rfl := eq_of_countP_le_one h.data_eq.le hd hmem hid heid
    exact ⟨behind, hsplit.symm⟩

/-- Over a file, the reader comes to its outcome. -/
theorem WellFormed.readWavHeader_bytes (h : F.WellFormed native) (hd : d ∈ F.chunks)
    (hid : d.id = data) :
    ∃ fuel r, readWavHeader native fuel (⟨F.bytes native, 0⟩ : File) = some r ∧
      r.map Prod.fst = F.outcome native d := by
  obtain ⟨behind, hchunks⟩ := h.chunks_eq hd hid
  have hbytes : F.bytes native = F.head native ++ (F.before.flatMap (Chunk.bytes native) ++
      (d.bytes native ++ behind.flatMap (Chunk.bytes native))) := by
    rw [bytes, hchunks, List.flatMap_append, List.flatMap_cons]
  have hlen := F.length_head native
  obtain ⟨r, hr, hmap⟩ := walk_chunks hid (h.nonempty d hd) F.before (F.head native)
    (WavIfstreamInfo.default native) (by rw [hlen]) (hbytes ▸ h.length_lt) h.inOrder
  rw [← hbytes, hlen] at hr
  obtain ⟨fuel, hfuel⟩ := returns_iff.1 hr
  exact ⟨fuel, r, by rw [readWavHeader_isWave (F.isWave_bytes native), hfuel], hmap⟩

/-! ## Moved chunks -/

theorem filter_before (F : WaveFile) : F.before.filter (·.id ∉ metadataIds) =
    (F.chunks.filter (·.id ∉ metadataIds)).takeWhile (·.id ≠ data) := by
  rw [List.takeWhile_filter, before]
  congr 2
  funext c
  by_cases hid : c.id = data
  · have hother : data ∉ metadataIds := by decide
    simp [hid, hother]
  · simp [hid]

theorem Moved.before_eq (h : Moved F G) :
    G.before.filter (·.id ∉ metadataIds) = F.before.filter (·.id ∉ metadataIds) := by
  rw [filter_before, filter_before, h.others]

/-- The file with the moved chunks is well formed. -/
theorem Moved.wellFormed (h : Moved F G) (hF : F.WellFormed native) : G.WellFormed native where
  length_lt := by
    have hlen := (h.perm.flatMap_right (Chunk.bytes native)).length_eq
    have hlt := hF.length_lt
    rw [bytes, List.length_append, length_head] at hlt ⊢
    rw [hlen]
    exact hlt
  nonempty c hc := hF.nonempty c (h.perm.mem_iff.1 hc)
  fits c hc := hF.fits c (h.perm.mem_iff.1 hc)
  fmt_eq := (h.perm.countP_eq _).trans hF.fmt_eq
  data_eq := (h.perm.countP_eq _).trans hF.data_eq
  smpl_le := (h.perm.countP_eq _).le.trans hF.smpl_le
  inst_le := (h.perm.countP_eq _).le.trans hF.inst_le
  fmt_before := by
    obtain ⟨c, hc, hid⟩ := hF.fmt_before
    have hother : decide (c.id ∉ metadataIds) = true := by
      rw [hid]
      decide
    have hmem : c ∈ G.before.filter (·.id ∉ metadataIds) := by
      rw [h.before_eq]
      exact List.mem_filter.2 ⟨hc, hother⟩
    exact ⟨c, (List.mem_filter.1 hmem).1, hid⟩

/-- A chunk with the id, and with data of so many bytes, stands before the
    `data` chunk. -/
def finds (F : WaveFile) (id n : ℕ) : Prop := ∃ c ∈ F.before, carries id n c

/-- The `fmt ` chunk is accepted, and the `data` chunk has a frame. -/
def accepted (native : EndianType) (F : WaveFile) : Prop :=
  ∃ c ∈ F.chunks, ∃ d ∈ F.chunks, c.id = fmt ∧ d.id = data ∧ ∃ x info,
    readFmtChunk native c.payload.length (⟨c.payload, 0⟩ : File) = .ok x ∧
      dataChunk d.payload.length ((WavIfstreamInfo.default native).setFmt x.1) = .ok info

end WaveFile

/-- The metadata of an info. -/
def WavIfstreamInfo.metadata (info : WavIfstreamInfo) :
    (Option SampleChunk × Option (List (ℤ × SampleLoop))) × Option InstrumentChunk :=
  ((info.sampleChunk, info.sampleLoops), info.instrumentChunk)

theorem dataChunk_metadata {length : ℕ} {info info' : WavIfstreamInfo}
    (h : dataChunk length info = .ok info') : info'.metadata = info.metadata := by
  unfold dataChunk at h
  split_ifs at h
  cases h
  rfl

/-- The `data` chunk only looks at the format. -/
theorem dataChunk_congr {info info' : WavIfstreamInfo} (length : ℕ) (h : info.fmt = info'.fmt) :
    (dataChunk length info).map WavIfstreamInfo.fmt =
      (dataChunk length info').map WavIfstreamInfo.fmt := by
  unfold dataChunk
  rw [bytesPerFrame_of_fmt h]
  split_ifs
  · rfl
  · rfl
  · exact congrArg Except.ok h

namespace WaveFile

variable {F G : WaveFile} {d : Chunk}

/-- Which files are accepted. -/
theorem WellFormed.outcome_ok_iff (h : F.WellFormed native) (hd : d ∈ F.chunks)
    (hid : d.id = data) : (∃ info, F.outcome native d = .ok info) ↔ F.accepted native := by
  obtain ⟨c, hc, hfmt⟩ := h.fmt_before
  have hmem := (mem_of_mem_before hc).1
  have hone : F.before.countP (·.id = fmt) ≤ 1 :=
    ((List.takeWhile_sublist _).countP_le).trans h.fmt_eq.le
  -- the format before the `data` chunk is that of the `fmt ` chunk
  have hformat : ∀ {i : WavIfstreamInfo} {x}, F.before.foldlM (handle native)
      (WavIfstreamInfo.default native) = .ok i →
      readFmtChunk native c.payload.length (⟨c.payload, 0⟩ : File) = .ok x →
      i.fmt = ((WavIfstreamInfo.default native).setFmt x.1).fmt := by
    intro i x hi hx
    refine isPart_fmt.foldlM_sets h.inOrder hone hc ⟨hfmt, Nat.zero_le _⟩
      (x := .format x.1) hfmt (fun info => ?_) hi
    rw [handle_fmt hfmt, hx]
    rfl
  constructor
  · rintro ⟨info, hout⟩
    obtain ⟨i, hi, hdata⟩ := bind_eq_ok hout
    obtain ⟨y, -, hok⟩ := exists_finding h.inOrder hi hc
    have h1 := hok i
    rw [handle_fmt hfmt] at h1
    cases hx : readFmtChunk native c.payload.length (⟨c.payload, 0⟩ : File) with
    | error e =>
      rw [hx] at h1
      cases h1
    | ok x =>
      rcases map_eq_cases (dataChunk_congr d.payload.length (hformat hi hx)) with
        ⟨e, herror, -⟩ | ⟨-, info', -, hy, -⟩
      · rw [hdata] at herror
        cases herror
      · exact ⟨c, hmem, d, hd, hfmt, hid, x, info', hx, hy⟩
  · rintro ⟨c', hc', d', hd', hfmt', hid', x, info, hx, hdata⟩
    obtain rfl := eq_of_countP_le_one h.fmt_eq.le hmem hc' hfmt hfmt'
    obtain rfl := eq_of_countP_le_one h.data_eq.le hd hd' hid hid'
    obtain ⟨i, hi⟩ := foldlM_ok (WavIfstreamInfo.default native) h.inOrder
      fun e he hefmt => ⟨x, by
        rw [eq_of_countP_le_one h.fmt_eq.le (mem_of_mem_before he).1 hmem hefmt hfmt, hx]⟩
    rw [outcome, hi, ok_bind]
    rcases map_eq_cases (dataChunk_congr d.payload.length (hformat hi hx)) with
      ⟨e, -, herror⟩ | ⟨info', -, hy, -, -⟩
    · rw [hdata] at herror
      cases herror
    · exact ⟨info', hy⟩

/-- The chunks with the id, and enough data, are one chunk. -/
theorem carries_unique (hm : Moved F G) {id n : ℕ} (hone : F.count id ≤ 1) :
    ∀ c ∈ F.before, ∀ d ∈ G.before, carries id n c → carries id n d → c = d := by
  intro c hc d hd hcar hcar'
  have hmem := hm.perm.mem_iff.1 (mem_of_mem_before hd).1
  exact eq_of_countP_le_one hone (mem_of_mem_before hc).1 hmem hcar.1 hcar'.1

theorem countP_before_le {id : ℕ} (h : F.count id ≤ 1) : F.before.countP (·.id = id) ≤ 1 :=
  ((List.takeWhile_sublist _).countP_le).trans h

/-- The metadata that are found, where no handler throws. -/
theorem metadata_eq_iff (hF : F.WellFormed native) (hm : Moved F G) {i j : WavIfstreamInfo}
    (hi : F.before.foldlM (handle native) (WavIfstreamInfo.default native) = .ok i)
    (hj : G.before.foldlM (handle native) (WavIfstreamInfo.default native) = .ok j) :
    i.metadata = j.metadata ↔
      (F.finds smpl 36 ↔ G.finds smpl 36) ∧ (F.finds inst 7 ↔ G.finds inst 7) := by
  have hG := hm.wellFormed hF
  have hsamples := isPart_samples.eq_iff (WavIfstreamInfo.default native)
    (fun {x c} hx hcar => ?_) hF.inOrder hG.inOrder (countP_before_le hF.smpl_le)
    (countP_before_le hG.smpl_le) (carries_unique hm hF.smpl_le) hi hj
  have hinstrument := isPart_instrument.eq_iff (WavIfstreamInfo.default native)
    (fun {x c} hx hcar => ?_) hF.inOrder hG.inOrder (countP_before_le hF.inst_le)
    (countP_before_le hG.inst_le) (carries_unique hm hF.inst_le) hi hj
  · exact Prod.mk_inj.trans (and_congr hsamples hinstrument)
  · cases x with
    | instrument i => exact fun h => by cases h
    | samples s l => exact absurd (hcar.1.symm.trans hx.1) (by decide)
    | format f => exact absurd (hcar.1.symm.trans hx) (by decide)
    | nothing => exact absurd hcar hx.2.2
  · cases x with
    | samples s l => exact fun h => by cases h
    | instrument i => exact absurd (hcar.1.symm.trans hx.1) (by decide)
    | format f => exact absurd (hcar.1.symm.trans hx) (by decide)
    | nothing => exact absurd hcar hx.2.1

/-- **The outcomes** of files with moved chunks. -/
theorem outcome_metadata_iff (hF : F.WellFormed native) (hm : Moved F G) (hd : d ∈ F.chunks)
    (hid : d.id = data) :
    (F.outcome native d).map WavIfstreamInfo.metadata =
        (G.outcome native d).map WavIfstreamInfo.metadata ↔
      (F.accepted native →
        (F.finds smpl 36 ↔ G.finds smpl 36) ∧ (F.finds inst 7 ↔ G.finds inst 7)) := by
  have hok := hF.outcome_ok_iff hd hid
  have hfmt := foldlM_fmt F.before hF.inOrder (WavIfstreamInfo.default native) _ rfl
  rw [← hm.before_eq, ← foldlM_fmt G.before (hm.wellFormed hF).inOrder
    (WavIfstreamInfo.default native) _ rfl] at hfmt
  unfold outcome at hok ⊢
  rcases map_eq_cases hfmt with ⟨e, hi, hj⟩ | ⟨i, j, hi, hj, heq⟩
  · -- both fail before the `data` chunk
    rw [hi] at hok
    rw [hi, hj]
    refine iff_of_true rfl ?_
    intro hacc
    obtain ⟨info, hinfo⟩ := hok.2 hacc
    cases hinfo
  · rw [hi, ok_bind] at hok
    rw [hi, hj, ok_bind, ok_bind]
    rcases map_eq_cases (dataChunk_congr d.payload.length heq) with
      ⟨e, hx, hy⟩ | ⟨i', j', hx, hy, -⟩
    · rw [hx] at hok
      rw [hx, hy]
      refine iff_of_true rfl ?_
      intro hacc
      obtain ⟨info, hinfo⟩ := hok.2 hacc
      cases hinfo
    · have hacc := hok.1 ⟨i', hx⟩
      have hmeta : Except.map WavIfstreamInfo.metadata
          (.ok i' : Except RuntimeError WavIfstreamInfo) =
            Except.map WavIfstreamInfo.metadata (.ok j') ↔ i.metadata = j.metadata := by
        rw [← dataChunk_metadata hx, ← dataChunk_metadata hy]
        exact ⟨Except.ok.inj, congrArg Except.ok⟩
      rw [hx, hy, hmeta, metadata_eq_iff hF hm hi hj]
      exact ⟨fun h _ => h, fun h => h hacc⟩

end WaveFile

end

/-! ## Sources -/

/-- On the device, the reader returns the metadata `m`, or throws. -/
def returnsMetadata {δ : Type} [Source δ] (native : EndianType) (d : δ)
    (m : Except RuntimeError
      ((Option SampleChunk × Option (List (ℤ × SampleLoop))) × Option InstrumentChunk)) : Prop :=
  ∃ fuel r, readWavHeader native fuel (WavSource.unread native d) = some r ∧
    r.map (fun x => x.1.metadata) = m

/-- On both devices, the reader returns the same metadata, or throws. -/
def sameMetadata {δ : Type} [Source δ] (native : EndianType) (d d' : δ) : Prop :=
  ∃ m, returnsMetadata native d m ∧ returnsMetadata native d' m

section
variable {native : EndianType} {F G : WaveFile} {δ : Type} [ByteSource δ] {dev dev' : δ}

/-- What is returned on a device with the bytes of the file is its outcome. -/
theorem returnsMetadata_iff (h : F.WellFormed native) {d : Chunk} (hd : d ∈ F.chunks)
    (hid : d.id = data) {B : Content} (hB : B.bytes = F.bytes native) (hat : ByteSource.At B 0 dev)
    {m : Except RuntimeError
      ((Option SampleChunk × Option (List (ℤ × SampleLoop))) × Option InstrumentChunk)} :
    returnsMetadata native dev m ↔ (F.outcome native d).map WavIfstreamInfo.metadata = m := by
  obtain ⟨fuel, r, hr, hmap⟩ := h.readWavHeader_bytes hd hid
  rw [← hB] at hr
  have hrel : Rel B (WavSource.unread native dev) ⟨B.bytes, 0⟩ := ⟨rfl, at_wavSource native B hat⟩
  have hsim := readWavHeader_sim native fuel hrel
  rw [hr] at hsim
  obtain ⟨x, hx, hagree⟩ : ∃ x, readWavHeader native fuel (WavSource.unread native dev) = some x ∧
      x.map Prod.fst = r.map Prod.fst := by
    cases hx : readWavHeader native fuel (WavSource.unread native dev) with
    | none => rw [hx] at hsim; cases hsim
    | some x =>
      rw [hx] at hsim
      refine ⟨x, rfl, ?_⟩
      cases hsim with
      | some hagree => exact Agree.map_fst hagree
  have hout : x.map (fun x => x.1.metadata) =
      (F.outcome native d).map WavIfstreamInfo.metadata := by
    rw [← hmap, ← hagree]
    cases x <;> rfl
  constructor
  · rintro ⟨fuel', y, hy, rfl⟩
    have h1 := readWavHeader_mono native _ fuel fuel' _ hx
    have h2 := readWavHeader_mono native _ fuel' fuel _ hy
    rw [Nat.add_comm fuel' fuel, h1] at h2
    rw [← hout, Option.some.inj h2]
  · rintro rfl
    exact ⟨fuel, x, hx, hout⟩

theorem sameMetadata_iff (hF : F.WellFormed native) (hm : WaveFile.Moved F G) {B C : Content}
    (hB : B.bytes = F.bytes native) (hC : C.bytes = G.bytes native) (hat : ByteSource.At B 0 dev)
    (hat' : ByteSource.At C 0 dev') :
    sameMetadata native dev dev' ↔ (F.accepted native →
      (F.finds smpl 36 ↔ G.finds smpl 36) ∧ (F.finds inst 7 ↔ G.finds inst 7)) := by
  have hpos : 0 < F.count data := by
    rw [hF.data_eq]
    exact Nat.one_pos
  obtain ⟨d, hd, hdid⟩ := List.countP_pos_iff.1 hpos
  have hid : d.id = data := of_decide_eq_true hdid
  have hdG : d ∈ G.chunks := hm.perm.mem_iff.2 hd
  rw [← WaveFile.outcome_metadata_iff hF hm hd hid]
  have hG := hm.wellFormed hF
  constructor
  · rintro ⟨m, h, h'⟩
    rw [returnsMetadata_iff hF hd hid hB hat] at h
    rw [returnsMetadata_iff hG hdG hid hC hat'] at h'
    rw [h, h']
  · intro h
    exact ⟨_, (returnsMetadata_iff hF hd hid hB hat).2 rfl,
      (returnsMetadata_iff hG hdG hid hC hat').2 h.symm⟩

end

/-- **Metadata.**  From a well-formed file, and from one in which its `smpl` and
    `inst` chunks stand in other places, the same metadata are read iff each of
    them that has any stands before the `data` chunk in both files or in none,
    or the files are not accepted. -/
theorem metadata_same_iff (native : EndianType) {F G : WaveFile} (hF : F.WellFormed native)
    (hm : WaveFile.Moved F G) :
    (sameMetadata native (File.opened (F.bytes native)) (File.opened (G.bytes native)) ↔
      (F.accepted native →
        (F.finds smpl 36 ↔ G.finds smpl 36) ∧ (F.finds inst 7 ↔ G.finds inst 7))) ∧
    (sameMetadata native (Container.mk' (F.bytes native)) (Container.mk' (G.bytes native)) ↔
      (F.accepted native →
        (F.finds smpl 36 ↔ G.finds smpl 36) ∧ (F.finds inst 7 ↔ G.finds inst 7))) := by
  have hfitF : (F.bytes native).length + 1 < 2 ^ 63 := by
    have := hF.length_lt
    omega
  have hfitG : (G.bytes native).length + 1 < 2 ^ 63 := by
    have := (hm.wellFormed hF).length_lt
    omega
  constructor
  · exact sameMetadata_iff hF hm rfl rfl (at_opened ⟨F.bytes native, hfitF⟩)
      (at_opened ⟨G.bytes native, hfitG⟩)
  · exact sameMetadata_iff hF hm rfl rfl (at_container ⟨F.bytes native, hfitF⟩)
      (at_container ⟨G.bytes native, hfitG⟩)

/-! ### A file with sample data -/

/-- The format of 8 bit mono. -/
def monoChunk : Chunk where
  id := fmt
  payload := [1, 0, 1, 0, 0x44, 0xAC, 0, 0, 0x44, 0xAC, 0, 0, 1, 0, 8, 0]
  pad := []
  id_lt := by decide
  length_pad := by decide

/-- Sample data without loops. -/
def sampleChunk : Chunk where
  id := smpl
  payload := List.replicate 36 0
  pad := []
  id_lt := by decide
  length_pad := by decide

/-- A frame. -/
def frameChunk : Chunk where
  id := data
  payload := [7]
  pad := [0]
  id_lt := by decide
  length_pad := by decide

def smallWave (chunks : List Chunk) : WaveFile := ⟨82, chunks⟩

theorem smallWave_wellFormed :
    (smallWave [monoChunk, sampleChunk, frameChunk]).WellFormed .littleEndian where
  length_lt := by decide
  nonempty := by
    intro c hc
    simp only [smallWave, List.mem_cons, List.not_mem_nil, or_false] at hc
    rcases hc with rfl | rfl | rfl <;> decide
  fits := by
    intro c hc hid h36 s hs
    have hloops : ((SampleChunk.layout .littleEndian).get (List.replicate 36 0) 0).map
        (fun c => c.sampleLoops) = some 0 := by decide
    simp only [smallWave, List.mem_cons, List.not_mem_nil, or_false] at hc
    rcases hc with rfl | rfl | rfl
    · exact absurd hid (by decide)
    · obtain ⟨s', hs', hzero⟩ := Option.map_eq_some_iff.1 hloops
      obtain rfl : s = s' := Option.some.inj (hs.symm.trans hs')
      rw [hzero]
      exact h36
    · exact absurd hid (by decide)
  fmt_eq := by decide
  data_eq := by decide
  smpl_le := by decide
  inst_le := by decide
  fmt_before := ⟨monoChunk, List.mem_cons_self, rfl⟩

theorem smallWave_before :
    (smallWave [monoChunk, sampleChunk, frameChunk]).before = [monoChunk, sampleChunk] := rfl

theorem smallWave_finds :
    (smallWave [monoChunk, sampleChunk, frameChunk]).finds smpl 36 :=
  ⟨sampleChunk, by simp [smallWave_before], by decide⟩

/-- The sample data before the format. -/
theorem metadata_same_small : sameMetadata .littleEndian
    (File.opened ((smallWave [monoChunk, sampleChunk, frameChunk]).bytes .littleEndian))
    (File.opened ((smallWave [sampleChunk, monoChunk, frameChunk]).bytes .littleEndian)) := by
  have hbefore : (smallWave [sampleChunk, monoChunk, frameChunk]).before =
      [sampleChunk, monoChunk] := rfl
  have hm : WaveFile.Moved (smallWave [monoChunk, sampleChunk, frameChunk])
      (smallWave [sampleChunk, monoChunk, frameChunk]) := ⟨rfl, List.Perm.swap _ _ _, rfl⟩
  refine (metadata_same_iff .littleEndian smallWave_wellFormed hm).1.2 fun _ => ⟨?_, ?_⟩
  · exact iff_of_true smallWave_finds ⟨sampleChunk, by simp [hbefore], by decide⟩
  · refine iff_of_false ?_ ?_
    · rintro ⟨c, hc, hid, -⟩
      rw [smallWave_before] at hc
      rcases List.mem_pair.1 hc with rfl | rfl <;> exact absurd hid (by decide)
    · rintro ⟨c, hc, hid, -⟩
      rw [hbefore] at hc
      rcases List.mem_pair.1 hc with rfl | rfl <;> exact absurd hid (by decide)

/-- The sample data behind the `data` chunk are not found. -/
theorem smallWave_not_same :
    WaveFile.Moved (smallWave [monoChunk, sampleChunk, frameChunk])
      (smallWave [monoChunk, frameChunk, sampleChunk]) ∧
    ¬ sameMetadata .littleEndian
      (File.opened ((smallWave [monoChunk, sampleChunk, frameChunk]).bytes .littleEndian))
      (File.opened ((smallWave [monoChunk, frameChunk, sampleChunk]).bytes .littleEndian)) := by
  have hm : WaveFile.Moved (smallWave [monoChunk, sampleChunk, frameChunk])
      (smallWave [monoChunk, frameChunk, sampleChunk]) :=
    ⟨rfl, (List.Perm.swap _ _ _).cons _, rfl⟩
  have hfit : ((smallWave [monoChunk, sampleChunk, frameChunk]).bytes .littleEndian).length + 1 <
      2 ^ 63 := by decide
  have hfit' : ((smallWave [monoChunk, frameChunk, sampleChunk]).bytes .littleEndian).length + 1 <
      2 ^ 63 := by decide
  refine ⟨hm, ?_⟩
  rw [sameMetadata_iff smallWave_wellFormed hm (B := ⟨_, hfit⟩) (C := ⟨_, hfit'⟩) rfl rfl
    (at_opened ⟨_, hfit⟩) (at_opened ⟨_, hfit'⟩)]
  intro h
  have hacc : (smallWave [monoChunk, sampleChunk, frameChunk]).accepted .littleEndian :=
    ⟨monoChunk, by simp [smallWave], frameChunk, by simp [smallWave], rfl, rfl, _, _, rfl, rfl⟩
  have hbefore : (smallWave [monoChunk, frameChunk, sampleChunk]).before = [monoChunk] := rfl
  obtain ⟨c, hc, hcar⟩ := (h hacc).1.1 smallWave_finds
  rw [hbefore, List.mem_singleton] at hc
  subst hc
  exact absurd hcar (by decide)

end NiMedia.Wav
