/-
  How far the handlers of the AIFF header reader read.

  Only the handler of `COMM` chunks looks at the length of its chunk, and only
  for the fields before the compression.

  * `readsOnly_iff_fits`: a handler keeps to its chunk iff the compression, the
    markers or the instrument fit into it.
-/
import NiMedia.Iostreams.Window
import NiMedia.Aiff.Walk

namespace NiMedia.Aiff

open Bytes Loop Simulation

section
variable (Y : List UInt8) (k : ℕ)

/-- The end of the Pascal string at offset `k`. -/
def pascalStringEnd : ℕ := k + 1 + (bigUint8.get Y k).getD 0

/-- The offset behind it, with its pad byte. -/
def pascalStringNext : ℕ := pascalStringEnd Y k + (pascalStringEnd Y k - k) % 2

/-- So many markers, from offset `k` on, fit into `Y`. -/
def markersFit : ℕ → ℕ → Prop
  | 0, _ => True
  | n + 1, k => pascalStringEnd Y (k + 6) ≤ Y.length ∧ markersFit n (pascalStringNext Y (k + 6))

/-- The compression of an AIFC file fits into its `COMM` chunk. -/
def compressionFits : Prop :=
  18 ≤ Y.length → 22 ≤ Y.length ∧ (22 < Y.length → pascalStringEnd Y 22 ≤ Y.length)

/-- What a handler looks for fits into a chunk with the payload `Y`. -/
def fits (subType id : ℕ) : Prop :=
  (id = comm → subType = aifc → compressionFits Y) ∧
    (id = mark → 2 ≤ Y.length ∧ ∀ n, bigUint16.get Y 0 = some n → markersFit Y n 2) ∧
    (id = inst → 20 ≤ Y.length)

end

section
variable {P : Platform} {native : EndianType} {Y : List UInt8} {a a' k : ℕ}

theorem bigUint8_size : bigUint8.size = 1 := rfl

theorem bigUint16_size : bigUint16.size = 2 := rfl

theorem bigUint32_size : bigUint32.size = 4 := rfl

/-! ## Inside of the chunk -/

/-- The bytes of a string, of which there may be none. -/
theorem bind_string_window {α : Type} {Q : α → File → α → File → Prop} {size : ℕ}
    {m m' : Option (List UInt8) → Io File α} (hlen : k + size ≤ Y.length)
    (h : Sim (Window Y a a' (k + size)) Q (m (some (slice Y k size)))
      (m' (some (slice Y k size)))) :
    Sim (Window Y a a' k) Q
      ((if 0 < size then readBytes size else pure (some [])) >>= m)
      ((if 0 < size then readBytes size else pure (some [])) >>= m') := by
  by_cases hpos : 0 < size
  · have hne : slice Y k size ≠ [] := by
      rw [← List.length_pos_iff, length_slice hlen]
      exact hpos
    rw [if_pos hpos]
    refine Window.bind_readBytes hlen ?_
    rw [deliver_of_ne hne]
    exact h
  · obtain rfl : size = 0 := by omega
    have hnil : slice Y k 0 = [] := List.take_zero
    rw [if_neg hpos, pure_bind, pure_bind]
    rw [hnil] at h
    exact h

theorem readPascalString_window (h : pascalStringEnd Y k ≤ Y.length) :
    Sim (Window Y a a' k)
      (fun x s y t => x = y ∧ (∃ data, x = some data) ∧ Window Y a a' (pascalStringNext Y k) s t)
      (readPascalString : Io File _) readPascalString := by
  obtain ⟨size, hsize⟩ : ∃ size, bigUint8.get Y k = some size :=
    ⟨_, Layout.get_of_le (by rw [bigUint8_size]; unfold pascalStringEnd at h; omega)⟩
  have hend : pascalStringEnd Y k = k + 1 + size := by rw [pascalStringEnd, hsize]; rfl
  have hnext : pascalStringNext Y k = k + 1 + size + (size + 1) % 2 := by
    rw [pascalStringNext, hend]
    omega
  rw [hend] at h
  unfold readPascalString
  refine Window.bind_fetch (by rw [bigUint8_size]; omega) ?_
  rw [hsize, bigUint8_size]
  dsimp only
  -- the string is there, whether or not it is empty
  refine bind_string_window h ?_
  have hlen : (slice Y (k + 1) size).length = size := length_slice h
  dsimp only
  rw [if_neg (not_not.2 hlen), hnext]
  by_cases hpad : (size + 1) % 2 ≠ 0
  · rw [if_pos hpad]
    have h1 : (size + 1) % 2 = 1 := by omega
    refine Window.bind_seek (d := 1) fun _ _ => Sim.pure fun _ _ hw => ⟨rfl, ⟨_, rfl⟩, ?_⟩
    rw [h1]
    exact hw
  · rw [if_neg hpad]
    refine Sim.pure fun _ _ hw => ⟨rfl, ⟨_, rfl⟩, ?_⟩
    rw [not_not.1 hpad]
    exact hw

theorem readEncoding_window {subType length sampleSize : ℕ} (hlen : Y.length = length)
    (h18 : 18 ≤ length) (hfit : subType = aifc → compressionFits Y) :
    Sim (Window Y a a' 18) (Same (Alike Y a a'))
      (readEncoding native subType length sampleSize : Io File _)
      (readEncoding native subType length sampleSize) := by
  unfold readEncoding
  by_cases hsub : subType = aifc
  · obtain ⟨h22, hstring⟩ := hfit hsub (by omega)
    rw [if_pos hsub]
    refine Window.bind_fetch (by rw [bigUint32_size]; omega) ?_
    rw [Layout.get_of_le (by rw [bigUint32_size]; omega), bigUint32_size]
    dsimp only
    by_cases hname : 18 + 4 < length
    · rw [if_pos hname]
      refine (readPascalString_window (hstring (by omega))).bind_eq fun r => ?_
      cases r with
      | none => exact Sim.throw
      | some _ => exact Sim.pre (fun _ _ h => h.2) (Window.liftM _)
    · rw [if_neg hname]
      exact Window.liftM _
  · rw [if_neg hsub]
    exact Window.pure _

theorem readCommonChunk_window {subType length : ℕ} (hlen : Y.length = length)
    (hfit : subType = aifc → compressionFits Y) :
    Sim (Window Y a a' 0) (Same (Alike Y a a'))
      (readCommonChunk P native subType length : Io File _)
      (readCommonChunk P native subType length) := by
  unfold readCommonChunk
  by_cases h18 : length < 18
  · rw [if_pos h18]
    exact Sim.throw
  · rw [if_neg h18]
    have hsize : CommonChunk.layout.size = 18 := rfl
    refine Window.bind_fetch (by omega) ?_
    rw [Layout.get_of_le (by omega)]
    exact (readEncoding_window hlen (by omega) hfit).bind_eq fun _ => liftM_sim _

theorem readMarkers_window : ∀ (n k : ℕ) (markerMap : List (ℤ × ℕ)), markersFit Y n k →
    Sim (Window Y a a' k) (Same (Alike Y a a')) (readMarkers n markerMap : Io File _)
      (readMarkers n markerMap)
  | 0, _, _, _ => Window.pure _
  | n + 1, k, markerMap, h => by
    obtain ⟨hstring, hrest⟩ := h
    unfold readMarkers
    have hsize : Marker.layout.size = 6 := rfl
    have hin : k + 6 < pascalStringEnd Y (k + 6) := by
      unfold pascalStringEnd
      omega
    refine Window.bind_fetch (by omega) ?_
    rw [Layout.get_of_le (by omega)]
    refine (readPascalString_window hstring).bind_eq fun r => ?_
    cases r with
    | none => exact Sim.throw
    | some _ => exact Sim.pre (fun _ _ h => h.2) (readMarkers_window n _ _ hrest)

theorem readMarkChunk_window (h2 : 2 ≤ Y.length)
    (hfit : ∀ n, bigUint16.get Y 0 = some n → markersFit Y n 2) (info : AiffIfstreamInfo) :
    Sim (Window Y a a' 0) (Same (Alike Y a a')) (readMarkChunk info : Io File _)
      (readMarkChunk info) := by
  unfold readMarkChunk
  obtain ⟨n, hn⟩ : ∃ n, bigUint16.get Y 0 = some n :=
    ⟨_, Layout.get_of_le (by rw [bigUint16_size]; omega)⟩
  refine Window.bind_fetch (by rw [bigUint16_size]; omega) ?_
  rw [hn, bigUint16_size]
  refine Sim.ite ((readMarkers_window n 2 [] (hfit n hn)).bind_eq fun _ => ?_) (Window.pure _)
  exact Sim.pure fun _ _ h => ⟨rfl, h⟩

theorem readInstrumentChunk_window (h20 : 20 ≤ Y.length) (info : AiffIfstreamInfo) :
    Sim (Window Y a a' 0) (Same (Alike Y a a')) (readInstrumentChunk info : Io File _)
      (readInstrumentChunk info) := by
  unfold readInstrumentChunk
  have hsize : InstrumentChunk.layout.size = 20 := rfl
  refine Window.bind_fetch (by omega) ?_
  rw [Layout.get_of_le (by omega)]
  exact Window.pure _

variable (P native) in
/-- **Inside of the chunk** a handler does the same wherever the chunk is. -/
theorem readChunk_window {subType : ℕ} {tag : Tag} (hlen : Y.length = tag.length)
    (hfit : fits Y subType tag.id) (s : Found) :
    Sim (Window Y a a' 0) (Same (Alike Y a a')) (readChunk P native subType tag s : Io File _)
      (readChunk P native subType tag s) := by
  obtain ⟨hcomm, hmark, hinst⟩ := hfit
  unfold readChunk
  by_cases hid : tag.id = comm
  · rw [if_pos hid]
    exact (readCommonChunk_window hlen (hcomm hid)).bind_eq fun _ => Sim.pure fun _ _ h => ⟨rfl, h⟩
  · rw [if_neg hid]
    by_cases hid : tag.id = mark
    · obtain ⟨h2, hmarkers⟩ := hmark hid
      rw [if_pos hid]
      exact (readMarkChunk_window h2 hmarkers _).bind_eq fun _ => Sim.pure fun _ _ h => ⟨rfl, h⟩
    · rw [if_neg hid]
      by_cases hid : tag.id = inst
      · rw [if_pos hid]
        exact (readInstrumentChunk_window (hinst hid) _).bind_eq fun _ =>
          Sim.pure fun _ _ h => ⟨rfl, h⟩
      · rw [if_neg hid]
        exact Window.pure _

/-! ## Out of the chunk -/

theorem uint8_lt {B : List UInt8} {p n : ℕ} (h : bigUint8.get B p = some n) : n < 256 :=
  uintLayout_get_lt h

theorem lt_pascalStringEnd (B : List UInt8) (p : ℕ) : p < pascalStringEnd B p := by
  unfold pascalStringEnd
  omega

theorem pascalStringNext_le (B : List UInt8) (p : ℕ) : pascalStringNext B p ≤ p + 257 := by
  have hsize : (bigUint8.get B p).getD 0 < 256 := by
    cases hget : bigUint8.get B p with
    | none => decide
    | some n => exact uint8_lt hget
  unfold pascalStringNext pascalStringEnd
  omega

/-- A Pascal string that goes on behind the end. -/
theorem readPascalString_short {B : List UInt8} {p : ℕ} (h : B.length < pascalStringEnd B p) :
    ∃ f, readPascalString (⟨B, p⟩ : File) = .ok (none, f) := by
  unfold readPascalString
  simp only [run_bind, fetch_file]
  cases hget : bigUint8.get B p with
  | none => exact ⟨_, rfl⟩
  | some size =>
    obtain ⟨hin, hlen, -⟩ := Layout.get_eq_some hget
    rw [bigUint8_size] at hin hlen
    rw [pascalStringEnd, hget, Option.getD_some] at h
    have hpos : 0 < size := by omega
    have hread : readBytes size (⟨B, p + 1⟩ : File) = .ok (deliver (slice B (p + 1) size),
      ⟨B, p + 1 + (slice B (p + 1) size).length⟩) := rfl
    have hcut := length_slice_min B (p + 1) size
    simp only [hlen, bigUint8_size, Except.bind, run_bind, if_pos hpos, hread]
    by_cases hnil : slice B (p + 1) size = []
    · rw [deliver, if_pos hnil]
      exact ⟨_, rfl⟩
    · have hne : (slice B (p + 1) size).length ≠ size := by omega
      rw [deliver_of_ne hnil]
      simp only [run_ite, if_pos hne]
      exact ⟨_, rfl⟩

/-- One that does not. -/
theorem readPascalString_long {B : List UInt8} {p : ℕ} (h : pascalStringEnd B p ≤ B.length) :
    ∃ data, readPascalString (⟨B, p⟩ : File) = .ok (some data, ⟨B, pascalStringNext B p⟩) := by
  obtain ⟨size, hget⟩ : ∃ size, bigUint8.get B p = some size :=
    ⟨_, Layout.get_of_le (by rw [bigUint8_size]; unfold pascalStringEnd at h; omega)⟩
  obtain ⟨-, hlen, -⟩ := Layout.get_eq_some hget
  rw [bigUint8_size] at hlen
  have hend : pascalStringEnd B p = p + 1 + size := by rw [pascalStringEnd, hget]; rfl
  have hnext : pascalStringNext B p = p + 1 + size + (size + 1) % 2 := by
    rw [pascalStringNext, hend]
    omega
  rw [hend] at h
  have hall : (slice B (p + 1) size).length = size := length_slice h
  have hdata : (if 0 < size then readBytes size else pure (some []) : Io File _) ⟨B, p + 1⟩ =
      .ok (some (slice B (p + 1) size), ⟨B, p + 1 + size⟩) := by
    by_cases hpos : 0 < size
    · have hne : slice B (p + 1) size ≠ [] := by
        rw [← List.length_pos_iff, hall]
        exact hpos
      have hread : readBytes size (⟨B, p + 1⟩ : File) = .ok (deliver (slice B (p + 1) size),
        ⟨B, p + 1 + (slice B (p + 1) size).length⟩) := rfl
      rw [if_pos hpos, hread, deliver_of_ne hne, hall]
    · obtain rfl : size = 0 := by omega
      rfl
  refine ⟨slice B (p + 1) size, ?_⟩
  unfold readPascalString
  simp only [run_bind, fetch_file, hget, hlen, bigUint8_size, Except.bind, hdata, run_ite,
    if_neg (not_not.2 hall), hnext]
  by_cases hpad : (size + 1) % 2 ≠ 0
  · have hseek : (seek 1 .cur : Io File ℤ) ⟨B, p + 1 + size⟩ = .ok (_, ⟨B, p + 1 + size + 1⟩) :=
      congrArg Except.ok (File.seek_cur 1 _)
    have h1 : (size + 1) % 2 = 1 := by omega
    rw [if_pos hpad, h1, hseek]
    rfl
  · rw [if_neg hpad, not_not.1 hpad]
    rfl

/-! ### Markers -/

theorem readMarkers_short {B : List UInt8} : ∀ (n p : ℕ) (markerMap : List (ℤ × ℕ)),
    ¬ markersFit B n p →
    readMarkers n markerMap (⟨B, p⟩ : File) = .error ⟨"Error reading AIFF marker."⟩
  | 0, _, _, h => absurd trivial h
  | n + 1, p, markerMap, h => by
    have hsize : Marker.layout.size = 6 := rfl
    rw [readMarkers, run_bind, fetch_file]
    cases hc : Marker.layout.get B p with
    | none => rfl
    | some marker =>
      obtain ⟨-, hlen, -⟩ := Layout.get_eq_some hc
      have hlen : (slice B p Marker.layout.size).length = 6 := hlen
      simp only [hlen, Except.bind, run_bind]
      rcases Nat.lt_or_ge B.length (pascalStringEnd B (p + 6)) with hlt | hle
      · obtain ⟨f, hf⟩ := readPascalString_short hlt
        rw [hf]
        rfl
      · obtain ⟨data, hdata⟩ := readPascalString_long hle
        rw [hdata]
        exact readMarkers_short n _ _ fun hrest => h ⟨hle, hrest⟩

theorem markersFit_long {B : List UInt8} : ∀ (n p : ℕ), p + 263 * n ≤ B.length → markersFit B n p
  | 0, _, _ => trivial
  | n + 1, p, h => by
    have hnext := pascalStringNext_le B (p + 6)
    have hend : pascalStringEnd B (p + 6) ≤ pascalStringNext B (p + 6) := Nat.le_add_right _ _
    exact ⟨by omega, markersFit_long n _ (by omega)⟩

theorem readMarkers_long {B : List UInt8} : ∀ (n p : ℕ) (markerMap : List (ℤ × ℕ)),
    markersFit B n p → ∃ x, readMarkers n markerMap (⟨B, p⟩ : File) = .ok x
  | 0, _, _, _ => ⟨_, rfl⟩
  | n + 1, p, markerMap, h => by
    obtain ⟨hend, hrest⟩ := h
    have hsize : Marker.layout.size = 6 := rfl
    have hlt := lt_pascalStringEnd B (p + 6)
    have hc := Layout.get_of_le (L := Marker.layout) (B := B) (p := p) (by omega)
    obtain ⟨-, hlen, -⟩ := Layout.get_eq_some hc
    have hlen : (slice B p Marker.layout.size).length = 6 := hlen
    obtain ⟨data, hdata⟩ := readPascalString_long hend
    obtain ⟨x, hx⟩ := readMarkers_long n _ (mapInsert _ _ markerMap) hrest
    refine ⟨x, ?_⟩
    rw [readMarkers, run_bind, fetch_file, hc]
    simp only [hlen, Except.bind, run_bind, hdata]
    exact hx

/-- Up to the end of `Y`, offsets in the file are those in `Y`. -/
theorem pascalStringEnd_of_window {B : List UInt8} (h : slice B a Y.length = Y)
    (hk : k < Y.length) : pascalStringEnd B (a + k) = a + pascalStringEnd Y k := by
  have hget : bigUint8.get B (a + k) = bigUint8.get Y k := get_of_window h (by
    rw [bigUint8_size]; omega)
  unfold pascalStringEnd
  rw [hget]
  omega

theorem markersFit_of_window {B : List UInt8} (h : slice B a Y.length = Y)
    (hB : B.length = a + Y.length) : ∀ (n k : ℕ), markersFit B n (a + k) → markersFit Y n k
  | 0, _, _ => trivial
  | n + 1, k, hfit => by
    obtain ⟨hend, hrest⟩ := hfit
    have hlt := lt_pascalStringEnd B (a + k + 6)
    have heq : pascalStringEnd B (a + k + 6) = a + pascalStringEnd Y (k + 6) := by
      rw [Nat.add_assoc]
      exact pascalStringEnd_of_window h (by omega)
    have hnext : pascalStringNext B (a + k + 6) = a + pascalStringNext Y (k + 6) := by
      unfold pascalStringNext
      rw [heq]
      omega
    rw [hnext] at hrest
    exact ⟨by omega, markersFit_of_window h hB n _ hrest⟩

/-! ### Errors -/

theorem head_append {s : String} {c : Char} (h : s.toList.head? = some c) (t : String) :
    (s ++ t).toList.head? = some c := by
  rw [String.toList_append, List.head?_append, h]
  rfl

theorem ofBits_error {n : NumberType} {bits : ℕ} {b : EndianType} {e : RuntimeError}
    (h : RuntimeFormat.ofBits n bits b = .error e) : e.what.toList.head? = some 'I' := by
  have hparts : ∀ {w : BitwidthType}, RuntimeFormat.ofParts n w b = .error e →
      e.what.toList.head? = some 'I' := by
    intro w hw
    unfold RuntimeFormat.ofParts at hw
    split_ifs at hw
    cases hw
    decide
  unfold RuntimeFormat.ofBits at h
  split at h
  · exact hparts h
  · exact hparts h
  · exact hparts h
  · exact hparts h
  · exact hparts h
  · cases h
    decide

/-- No error of what is made of the encoding is one of the reading. -/
theorem toComm_error {c : CommonChunk} {compression : ℕ} {e : RuntimeError}
    (h : (determineEncoding native compression c.sampleSize >>= c.toComm P) = .error e) :
    e.what.toList.head? ≠ some 'C' := by
  cases henc : determineEncoding native compression c.sampleSize with
  | error e' =>
    rw [henc] at h
    cases h
    unfold determineEncoding at henc
    split_ifs at henc <;> cases henc
    rw [head_append (c := 'U') (by decide)]
    decide
  | ok enc =>
    rw [henc, ok_bind, CommonChunk.toComm] at h
    cases hformat : RuntimeFormat.ofBits enc.numberType enc.bitWidth enc.endian with
    | error e' =>
      rw [hformat] at h
      cases h
      rw [ofBits_error hformat]
      decide
    | ok format =>
      rw [hformat, ok_bind] at h
      by_cases hframes : c.numSampleFrames < 1
      · rw [if_pos hframes] at h
        cases h
        decide
      · by_cases hch : c.numChannels < 1 ∨ 255 < c.numChannels
        · rw [if_neg hframes, if_pos hch] at h
          cases h
          rw [head_append (c := 'I') (by decide)]
          decide
        · rw [if_neg hframes, if_neg hch] at h
          by_cases hrate : (ieee80ToDouble c.extSampleRate).le (Double.ofNat 0)
          · simp only [hrate, if_true] at h
            cases h
            rw [head_append (c := 'I') (by decide)]
            decide
          · simp only [hrate] at h
            cases h

/-! ### Chunks that something does not fit into -/

section
variable {subType : ℕ} {tag : Tag} {B : List UInt8} {s : Found}

theorem readChunk_of_comm (hid : tag.id = comm) (f : File) :
    readChunk P native subType tag s f = (readCommonChunk P native subType tag.length f).map
      fun x => (⟨s.info.setComm x.1, true⟩, x.2) := by
  rw [readChunk, if_pos hid, run_bind]
  cases readCommonChunk P native subType tag.length f <;> rfl

theorem readChunk_of_mark (hid : tag.id = mark) (f : File) :
    readChunk P native subType tag s f =
      (readMarkChunk s.info f).map fun x => ({ s with info := x.1 }, x.2) := by
  have hne : mark ≠ comm := by decide
  rw [readChunk, hid, if_neg hne, if_pos rfl, run_bind]
  cases readMarkChunk s.info f <;> rfl

theorem readChunk_of_inst (hid : tag.id = inst) (f : File) :
    readChunk P native subType tag s f =
      (readInstrumentChunk s.info f).map fun x => ({ s with info := x.1 }, x.2) := by
  have hcomm : inst ≠ comm := by decide
  have hmark : inst ≠ mark := by decide
  rw [readChunk, hid, if_neg hcomm, if_neg hmark, if_pos rfl, run_bind]
  cases readInstrumentChunk s.info f <;> rfl

theorem length_take_of_lt {n : ℕ} (hlt : n < B.length) : (B.take n).length = n := by
  rw [List.length_take, Nat.min_eq_left hlt.le]

theorem not_readsOnly_of_inst (hid : tag.id = inst) (hlt : a + tag.length < B.length)
    (h20 : tag.length < 20) :
    ¬ readsOnly (readChunk P native subType tag s : Io File _) B a tag.length := by
  have hlen := length_take_of_lt hlt
  have hsize : InstrumentChunk.layout.size = 20 := rfl
  have hshort : InstrumentChunk.layout.get (B.take (a + tag.length)) a = none := by
    refine if_neg fun h => ?_
    rw [length_slice_min, hlen] at h
    omega
  have hlong := Layout.get_of_le (L := InstrumentChunk.layout)
    (B := B.take (a + tag.length) ++ List.replicate 20 0) (p := a)
    (by rw [List.length_append, hlen, List.length_replicate]; omega)
  refine not_readsOnly_of_error (E := List.replicate 20 0)
    (e := ⟨"Could not read 'INST' chunk."⟩) hlt ?_ ?_
  · rw [readChunk_of_inst hid, readInstrumentChunk, run_bind, fetch_file, hshort]
    rfl
  · rw [readChunk_of_inst hid, readInstrumentChunk, run_bind, fetch_file, hlong]
    exact fun h => by cases h

/-- The markers of a chunk that counts some. -/
theorem readMarkChunk_run {X : List UInt8} {p n : ℕ} (hn : bigUint16.get X p = some n)
    (hpos : 0 < n) (info : AiffIfstreamInfo) :
    readMarkChunk info (⟨X, p⟩ : File) = (readMarkers n [] (⟨X, p + 2⟩ : File)).map
      fun x => ({ info with markerMap := x.1 }, x.2) := by
  obtain ⟨-, hlen, -⟩ := Layout.get_eq_some hn
  rw [bigUint16_size] at hlen
  simp only [readMarkChunk, run_bind, fetch_file, hn, bigUint16_size, hlen, Except.bind, run_ite,
    if_pos hpos]
  cases readMarkers n [] (⟨X, p + 2⟩ : File) <;> rfl

theorem not_readsOnly_of_markers (hid : tag.id = mark) (hlt : a + tag.length < B.length)
    (h2 : 2 ≤ tag.length) {n : ℕ} (hn : bigUint16.get (slice B a tag.length) 0 = some n)
    (hfit : ¬ markersFit (slice B a tag.length) n 2) :
    ¬ readsOnly (readChunk P native subType tag s : Io File _) B a tag.length := by
  have hY : (slice B a tag.length).length = tag.length := length_slice hlt.le
  have hlen := length_take_of_lt hlt
  have hpos : 0 < n := by
    rcases Nat.eq_zero_or_pos n with rfl | hpos
    · exact absurd trivial hfit
    · exact hpos
  obtain ⟨hget, hshort⟩ := get_take_append hlt (by rw [bigUint16_size]; omega) hn
  simp only [Nat.add_zero] at hget hshort
  have hwindow := slice_take_append hlt []
  rw [List.append_nil] at hwindow
  -- without the bytes behind the chunk the markers end at the end of the file
  have hnone : ¬ markersFit (B.take (a + tag.length)) n (a + 2) := fun h =>
    hfit (markersFit_of_window hwindow (by omega) n 2 h)
  obtain ⟨x, hx⟩ := readMarkers_long n (a + 2) []
    (markersFit_long (B := B.take (a + tag.length) ++ List.replicate (263 * n) 0) n (a + 2)
      (by rw [List.length_append, hlen, List.length_replicate]; omega))
  refine not_readsOnly_of_error (E := List.replicate (263 * n) 0)
    (e := ⟨"Error reading AIFF marker."⟩) hlt ?_ ?_
  · rw [readChunk_of_mark hid, readMarkChunk_run hshort hpos, readMarkers_short n _ _ hnone]
    rfl
  · rw [readChunk_of_mark hid, readMarkChunk_run (hget _) hpos, hx]
    exact fun h => by cases h

/-- A chunk without room for the count of its markers. -/
theorem not_readsOnly_of_count (hid : tag.id = mark) (hlt : a + tag.length < B.length)
    (h2 : tag.length < 2) :
    ¬ readsOnly (readChunk P native subType tag s : Io File _) B a tag.length := by
  have hlen := length_take_of_lt hlt
  have hlen' : (B.take (a + tag.length) ++ List.replicate (2 - tag.length) 0).length = a + 2 := by
    rw [List.length_append, hlen, List.length_replicate]
    omega
  have hcut := length_slice_min (B.take (a + tag.length)) a 2
  have hcut : (slice (B.take (a + tag.length)) a 2).length = tag.length := by
    rw [hcut, hlen]
    omega
  have hshort : bigUint16.get (B.take (a + tag.length)) a = none := by
    refine if_neg fun h => ?_
    rw [bigUint16_size] at h
    omega
  obtain ⟨n, hn⟩ : ∃ n, bigUint16.get
      (B.take (a + tag.length) ++ List.replicate (2 - tag.length) 0) a = some n :=
    ⟨_, Layout.get_of_le (by rw [bigUint16_size]; omega)⟩
  have hstop : readMarkChunk s.info (⟨B.take (a + tag.length), a⟩ : File) =
      .ok (s.info, ⟨B.take (a + tag.length), a + tag.length⟩) := by
    simp only [readMarkChunk, run_bind, fetch_file, hshort, bigUint16_size, hcut, Except.bind,
      run_pure]
  refine not_readsOnly (E := List.replicate (2 - tag.length) 0) hlt ?_
  rw [readChunk_of_mark hid, readChunk_of_mark hid, hstop]
  rcases Nat.eq_zero_or_pos n with rfl | hpos
  · -- the reader has gone on over both bytes
    obtain ⟨-, hlen2, -⟩ := Layout.get_eq_some hn
    have hlen2 : (slice (B.take (a + tag.length) ++ List.replicate (2 - tag.length) 0) a
      bigUint16.size).length = 2 := hlen2
    have hgo : readMarkChunk s.info
        (⟨B.take (a + tag.length) ++ List.replicate (2 - tag.length) 0, a⟩ : File) =
        .ok (s.info, ⟨B.take (a + tag.length) ++ List.replicate (2 - tag.length) 0, a + 2⟩) := by
      simp only [readMarkChunk, run_bind, fetch_file, hn, hlen2, Except.bind, run_ite,
        Nat.lt_irrefl, if_false, run_pure]
    rw [hgo]
    intro h
    simp only [outcome, Except.map, Except.ok.injEq, Prod.mk.injEq, true_and] at h
    omega
  · have hnone : ¬ markersFit (B.take (a + tag.length) ++ List.replicate (2 - tag.length) 0) n
        (a + 2) := by
      obtain ⟨m, rfl⟩ := Nat.exists_eq_succ_of_ne_zero hpos.ne'
      rintro ⟨hend, -⟩
      have hlt' := lt_pascalStringEnd
        (B.take (a + tag.length) ++ List.replicate (2 - tag.length) 0) (a + 2 + 6)
      omega
    rw [readMarkChunk_run hn hpos, readMarkers_short n _ _ hnone]
    exact fun h => by cases h

/-- The compression of a `COMM` chunk. -/
theorem readCommonChunk_run {X : List UInt8} {p length z : ℕ} {c : CommonChunk}
    (h18 : 18 ≤ length) (hc : CommonChunk.layout.get X p = some c)
    (hz : bigUint32.get X (p + 18) = some z) :
    (¬ 18 + 4 < length → readCommonChunk P native aifc length (⟨X, p⟩ : File) =
      (determineEncoding native z c.sampleSize >>= c.toComm P).map fun x => (x, ⟨X, p + 22⟩)) ∧
    (18 + 4 < length → ∀ f, readPascalString (⟨X, p + 22⟩ : File) = .ok (none, f) →
      readCommonChunk P native aifc length (⟨X, p⟩ : File) =
        .error ⟨"Could not retrieve the compressor id."⟩) ∧
    (18 + 4 < length → ∀ d f, readPascalString (⟨X, p + 22⟩ : File) = .ok (some d, f) →
      readCommonChunk P native aifc length (⟨X, p⟩ : File) =
        (determineEncoding native z c.sampleSize >>= c.toComm P).map fun x => (x, f)) := by
  obtain ⟨-, hlen, -⟩ := Layout.get_eq_some hc
  have hlen : (slice X p CommonChunk.layout.size).length = 18 := hlen
  obtain ⟨-, hlen4, -⟩ := Layout.get_eq_some hz
  have hlen4 : (slice X (p + 18) bigUint32.size).length = 4 := hlen4
  have hmade : ∀ f : File, ((liftM (determineEncoding native z c.sampleSize) : Io File Encoding) >>=
      fun e => (liftM (c.toComm P e) : Io File Comm)) f =
      (determineEncoding native z c.sampleSize >>= c.toComm P).map fun x => (x, f) := by
    intro f
    rw [run_bind, run_liftM]
    cases determineEncoding native z c.sampleSize with
    | error e => rfl
    | ok e => exact run_liftM f (c.toComm P e)
  refine ⟨fun h => ?_, fun h f hf => ?_, fun h d f hf => ?_⟩
  · rw [← hmade]
    simp only [readCommonChunk, if_neg (Nat.not_lt.2 h18), readEncoding, run_bind, fetch_file, hc,
      hlen, Except.bind, if_true, hz, hlen4, if_neg h]
  · simp only [readCommonChunk, if_neg (Nat.not_lt.2 h18), readEncoding, run_bind, fetch_file, hc,
      hlen, Except.bind, if_true, hz, hlen4, if_pos h, hf]
    rfl
  · rw [← hmade]
    simp only [readCommonChunk, if_neg (Nat.not_lt.2 h18), readEncoding, run_bind, fetch_file, hc,
      hlen, Except.bind, if_true, hz, hlen4, if_pos h, hf]

/-- What is made of a compression is no error of the reading. -/
theorem made_ne_error {c : CommonChunk} {z : ℕ} {f : File} {what : String}
    (h : what.toList.head? = some 'C') :
    ((determineEncoding native z c.sampleSize >>= c.toComm P).map fun x => (x, f)) ≠
      .error ⟨what⟩ := by
  intro heq
  cases hx : determineEncoding native z c.sampleSize >>= c.toComm P with
  | error e =>
    rw [hx] at heq
    cases heq
    exact toComm_error hx h
  | ok x => rw [hx] at heq; cases heq

/-- A chunk without room for the compression. -/
theorem not_readsOnly_of_compressionId (hid : tag.id = comm) (hsub : subType = aifc)
    (hlt : a + tag.length < B.length) (h18 : 18 ≤ tag.length) (h22 : tag.length < 22)
    {c : CommonChunk} (hc : CommonChunk.layout.get (slice B a tag.length) 0 = some c) :
    ¬ readsOnly (readChunk P native subType tag s : Io File _) B a tag.length := by
  subst hsub
  have hlen := length_take_of_lt hlt
  have hsize : CommonChunk.layout.size = 18 := rfl
  obtain ⟨hget, hshort⟩ := get_take_append hlt (by omega) hc
  simp only [Nat.add_zero] at hget hshort
  have hnone : bigUint32.get (B.take (a + tag.length)) (a + 18) = none := by
    refine if_neg fun h => ?_
    rw [length_slice_min, hlen, bigUint32_size] at h
    omega
  obtain ⟨z, hz⟩ : ∃ z, bigUint32.get (B.take (a + tag.length) ++ List.replicate 4 0) (a + 18) =
      some z := by
    refine ⟨_, Layout.get_of_le ?_⟩
    rw [bigUint32_size, List.length_append, hlen, List.length_replicate]
    omega
  obtain ⟨-, hcut, -⟩ := Layout.get_eq_some hshort
  have hcut : (slice (B.take (a + tag.length)) a CommonChunk.layout.size).length = 18 := hcut
  refine not_readsOnly_of_error (E := List.replicate 4 0)
    (e := ⟨"Could not retrieve the compression id."⟩) hlt ?_ ?_
  · rw [readChunk_of_comm hid]
    simp only [readCommonChunk, if_neg (Nat.not_lt.2 h18), readEncoding, run_bind, fetch_file,
      hshort, hcut, Except.bind, if_true, hnone]
    rfl
  · rw [readChunk_of_comm hid, (readCommonChunk_run h18 (hget _) hz).1 (by omega)]
    exact fun h => made_ne_error (by decide) (map_eq_error h)

/-- A chunk whose compression has a name that goes on behind it. -/
theorem not_readsOnly_of_compressorName (hid : tag.id = comm) (hsub : subType = aifc)
    (hlt : a + tag.length < B.length) (hname : 22 < tag.length)
    (hend : tag.length < pascalStringEnd (slice B a tag.length) 22)
    {c : CommonChunk} (hc : CommonChunk.layout.get (slice B a tag.length) 0 = some c) :
    ¬ readsOnly (readChunk P native subType tag s : Io File _) B a tag.length := by
  subst hsub
  have hY : (slice B a tag.length).length = tag.length := length_slice hlt.le
  have hlen := length_take_of_lt hlt
  have hlen' : (B.take (a + tag.length) ++ List.replicate 256 0).length =
      a + tag.length + 256 := by
    rw [List.length_append, hlen, List.length_replicate]
  have hsize : CommonChunk.layout.size = 18 := rfl
  obtain ⟨hget, hshort⟩ := get_take_append hlt (by omega) hc
  simp only [Nat.add_zero] at hget hshort
  obtain ⟨z, hz⟩ : ∃ z, bigUint32.get (slice B a tag.length) 18 = some z :=
    ⟨_, Layout.get_of_le (by rw [bigUint32_size]; omega)⟩
  obtain ⟨hz', hzs⟩ := get_take_append hlt (by rw [bigUint32_size]; omega) hz
  have hwindow := slice_take_append hlt []
  rw [List.append_nil] at hwindow
  have hendT : pascalStringEnd (B.take (a + tag.length)) (a + 22) =
      a + pascalStringEnd (slice B a tag.length) 22 :=
    pascalStringEnd_of_window hwindow (by omega)
  have hnext := pascalStringNext_le (B.take (a + tag.length) ++ List.replicate 256 0) (a + 22)
  have hendX : pascalStringEnd (B.take (a + tag.length) ++ List.replicate 256 0) (a + 22) ≤
      pascalStringNext (B.take (a + tag.length) ++ List.replicate 256 0) (a + 22) :=
    Nat.le_add_right _ _
  obtain ⟨f, hf⟩ := readPascalString_short (B := B.take (a + tag.length)) (p := a + 22) (by omega)
  obtain ⟨d, hd⟩ := readPascalString_long
    (B := B.take (a + tag.length) ++ List.replicate 256 0) (p := a + 22) (by omega)
  refine not_readsOnly_of_error (E := List.replicate 256 0)
    (e := ⟨"Could not retrieve the compressor id."⟩) hlt ?_ ?_
  · rw [readChunk_of_comm hid, (readCommonChunk_run (by omega) hshort hzs).2.1 hname f hf]
    rfl
  · rw [readChunk_of_comm hid, (readCommonChunk_run (by omega) (hget _) (hz' _)).2.2 hname d _ hd]
    exact fun h => made_ne_error (by decide) (map_eq_error h)

theorem not_readsOnly_of_compression (hid : tag.id = comm) (hsub : subType = aifc)
    (hlt : a + tag.length < B.length) (hfit : ¬ compressionFits (slice B a tag.length)) :
    ¬ readsOnly (readChunk P native subType tag s : Io File _) B a tag.length := by
  have hY : (slice B a tag.length).length = tag.length := length_slice hlt.le
  unfold compressionFits at hfit
  rw [hY] at hfit
  push Not at hfit
  obtain ⟨h18, hfit⟩ := hfit
  have hsize : CommonChunk.layout.size = 18 := rfl
  obtain ⟨c, hc⟩ : ∃ c, CommonChunk.layout.get (slice B a tag.length) 0 = some c :=
    ⟨_, Layout.get_of_le (by omega)⟩
  rcases Nat.lt_or_ge tag.length 22 with h22 | h22
  · exact not_readsOnly_of_compressionId hid hsub hlt h18 h22 hc
  · obtain ⟨hname, hend⟩ := hfit h22
    exact not_readsOnly_of_compressorName hid hsub hlt hname hend hc

/-- **The extent of a handler**: it keeps to its chunk, or to the file, iff what
    it looks for fits into the chunk. -/
theorem readsOnly_iff_fits :
    readsOnly (readChunk P native subType tag s : Io File _) B a tag.length ↔
      B.length ≤ a + tag.length ∨ fits (slice B a tag.length) subType tag.id := by
  constructor
  · intro h
    rcases Nat.lt_or_ge (a + tag.length) B.length with hlt | hle
    · have hY : (slice B a tag.length).length = tag.length := length_slice hlt.le
      refine .inr ⟨fun hid hsub => ?_, fun hid => ⟨?_, fun n hn => ?_⟩, fun hid => ?_⟩
      · by_contra hfit
        exact not_readsOnly_of_compression hid hsub hlt hfit h
      · by_contra h2
        exact not_readsOnly_of_count hid hlt (by omega) h
      · by_contra hfit
        rcases Nat.lt_or_ge tag.length 2 with h2 | h2
        · exact not_readsOnly_of_count hid hlt h2 h
        · exact not_readsOnly_of_markers hid hlt h2 hn hfit h
      · by_contra h20
        exact not_readsOnly_of_inst hid hlt (by omega) h
    · exact .inl hle
  · rintro (hle | hfit)
    · exact .inl hle
    · exact readsOnly_of_window fun Y hY hlen a' =>
        readChunk_window P native hlen (by rw [← hY]; exact hfit) s

end

end

section
variable (P : Platform) (native : EndianType) (B : List UInt8)

/-- The handlers that the reader gets to keep to their chunks, whatever it has
    read before. -/
def keepsToChunks : Prop :=
  isForm B → ∀ n o tag, chunkOffset P native B n = some o → tagAt B o = some tag →
    ∀ s, readsOnly (readChunk P native (subTypeOf B) tag s : Io File _) B (o + 8) tag.length

/-- What the handlers look for fits into their chunks, or the file ends before
    these do. -/
def chunksFit : Prop :=
  isForm B → ∀ n o tag, chunkOffset P native B n = some o → tagAt B o = some tag →
    B.length ≤ o + 8 + tag.length ∨ fits (slice B (o + 8) tag.length) (subTypeOf B) tag.id

theorem keepsToChunks_iff : keepsToChunks P native B ↔ chunksFit P native B := by
  refine forall_congr' fun _ => forall_congr' fun n => forall_congr' fun o =>
    forall_congr' fun tag => forall_congr' fun _ => forall_congr' fun _ => ?_
  constructor
  · intro h
    exact readsOnly_iff_fits.1 (h ⟨AiffIfstreamInfo.default native, false⟩)
  · intro h s
    exact readsOnly_iff_fits.2 h

end

end NiMedia.Aiff
