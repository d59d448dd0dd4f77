/-
  Runs of sinks with a header.

  The calls on a sink go to its view, which begins behind the header.  Whatever
  they are, the file stays the header and some data, and the cursor stands
  behind the header; `SinkAt` is this invariant.
-/
import NiMedia.Audio.Header
import NiMedia.Iostreams.ContainerSink
import NiMedia.Iostreams.View

namespace NiMedia

open Bytes Machine

namespace HeaderSink

section
variable {ω δ : Type} [Sink δ]

/-- `seek`, which is that of the view. -/
def seek (off : ℤ) (way : SeekDir) (s : HeaderSink ω δ) : ℤ × HeaderSink ω δ :=
  let (pos, view) := s.view.seek off way
  (pos, { s with view })

/-- A call on a sink, with the count or the position that it returns. -/
def sinkStep (s : HeaderSink ω δ) : SinkCall → ℤ × HeaderSink ω δ
  | .write bs => ((s.write bs).1.elim (-1) Nat.cast, (s.write bs).2)
  | .seek off way => s.seek off way

theorem sinkStep_write {s : HeaderSink ω δ} {bs : List UInt8} {k : ℕ} {view : Subview δ}
    (h : s.view.write bs = (some k, view)) :
    s.sinkStep (.write bs) = ((k : ℤ), { s with view }) := by
  simp only [sinkStep, HeaderSink.write, h]
  rfl

theorem sinkStep_seek {s : HeaderSink ω δ} {off pos : ℤ} {way : SeekDir} {view : Subview δ}
    (h : s.view.seek off way = (pos, view)) :
    s.sinkStep (.seek off way) = (pos, { s with view }) := by
  simp only [sinkStep, HeaderSink.seek, h]

/-- No write reports a failure. -/
def writesAll (s : HeaderSink ω δ) : SinkCall → Prop
  | .write bs => (s.sinkStep (.write bs)).1 = bs.length
  | .seek _ _ => True

end

/-- A sink on a file of the header and the data `D`, with the cursor at `p`. -/
structure SinkAt {ω : Type} (header : List UInt8) (info : StreamInfo) (offsets : ω)
    (D : List UInt8) (p : ℕ) (s : HeaderSink ω File) : Prop where
  eq : s = ⟨fileView (header ++ D) p header.length, info, offsets⟩
  le_pos : header.length ≤ p
  pos_le : (p : ℤ) ≤ maxPos

section
variable {ω : Type} {header D : List UInt8} {info : StreamInfo} {offsets : ω} {p : ℕ}
  {s : HeaderSink ω File}

theorem SinkAt.length_bytes (h : SinkAt header info offsets D p s) :
    s.view.device.bytes.length = header.length + D.length := by
  obtain ⟨rfl, -, -⟩ := h
  exact List.length_append

theorem SinkAt.pos_eq (h : SinkAt header info offsets D p s) : s.view.device.pos = p := by
  obtain ⟨rfl, -, -⟩ := h
  rfl

theorem SinkAt.write (h : SinkAt header info offsets D p s) (bs : List UInt8) :
    ∃ (k : ℕ) (s' : HeaderSink ω File), s.sinkStep (.write bs) = ((k : ℤ), s') ∧
      SinkAt header info offsets (overwrite D (p - header.length) (bs.take k)) (p + k) s' ∧
      k = min bs.length (maxPos - p).toNat := by
  obtain ⟨rfl, hle, hmax⟩ := h
  obtain ⟨k, hk⟩ : ∃ k, k = min bs.length (maxPos - p).toNat := ⟨_, rfl⟩
  have hwrite : (fileView (header ++ D) p header.length).write bs = _ :=
    write_fileView_cut hle hmax hk
  have hover := overwrite_append_right header D (bs.take k) (p - header.length)
  rw [Nat.add_sub_cancel' hle] at hover
  rw [hover] at hwrite
  exact ⟨k, _, sinkStep_write hwrite, ⟨rfl, by omega, by push_cast; omega⟩, hk⟩

theorem SinkAt.seek (h : SinkAt header info offsets D p s) (off : ℤ) (way : SeekDir) :
    ∃ (q : ℕ) (r : ℤ) (s' : HeaderSink ω File), s.sinkStep (.seek off way) = (r, s') ∧
      SinkAt header info offsets D q s' := by
  obtain ⟨rfl, hle, hmax⟩ := h
  have hge : (header.length : ℤ) ≤ absolutePosition p header.length maxPos off way :=
    le_absolutePosition (by omega)
  have hle' : absolutePosition (p : ℤ) header.length maxPos off way ≤ maxPos :=
    absolutePosition_le (by omega)
  obtain ⟨q, hq⟩ := Int.eq_ofNat_of_zero_le ((Int.natCast_nonneg header.length).trans hge)
  rw [hq] at hge hle'
  exact ⟨q, _, _, sinkStep_seek (seek_fileView_of hq), ⟨rfl, by omega, hle'⟩⟩

/-- **Any calls** leave the header, some data, and the cursor behind the
    header. -/
theorem SinkAt.after (h : SinkAt header info offsets D p s) (calls : List SinkCall) :
    ∃ D' q, SinkAt header info offsets D' q (after sinkStep s calls) := by
  refine after_of_inv (fun s => ∃ D' q, SinkAt header info offsets D' q s) ?_ ⟨D, p, h⟩ calls
  rintro s call ⟨D, p, h⟩
  cases call with
  | write bs =>
    obtain ⟨k, s', hstep, hat, -⟩ := h.write bs
    rw [hstep]
    exact ⟨_, _, hat⟩
  | seek off way =>
    obtain ⟨q, r, s', hstep, hat⟩ := h.seek off way
    rw [hstep]
    exact ⟨_, _, hat⟩

/-- Closing hands the whole file, with the cursor where it is, to `closeHeader`. -/
theorem SinkAt.close (closeHeader : StreamInfo → ω → Io (Subview File) Unit) (native : EndianType)
    {file : List UInt8} {q : ℕ} (h : SinkAt header info offsets D p s)
    (hclose : closeHeader info offsets (fileView (header ++ D) p 0) =
      .ok ((), fileView file q 0)) :
    ∃ s', HeaderSink.close closeHeader native s = .ok s' ∧ s'.view.device.bytes = file := by
  obtain ⟨rfl, -, -⟩ := h
  have hview : (fileView (header ++ D) p header.length).setView 0 maxPos = fileView _ p 0 :=
    setView_fileView Nat.cast_zero.symm
  exact ⟨_, close_of (s := ⟨fileView _ _ _, info, offsets⟩)
    ((congrArg (closeHeader info offsets) hview).trans hclose), rfl⟩

/-- Writes from the end of the file, as long as there is room. -/
theorem SinkAt.writes (h : SinkAt header info offsets D (header.length + D.length) s)
    (ws : List (List UInt8)) :
    (((header.length + D.length + ws.flatten.length : ℕ) : ℤ) ≤ maxPos →
      Along sinkStep writesAll s (ws.map .write) ∧
      SinkAt header info offsets (D ++ ws.flatten) (header.length + (D ++ ws.flatten).length)
        (Machine.after sinkStep s (ws.map .write))) ∧
    (Along sinkStep writesAll s (ws.map .write) →
      ((header.length + D.length + ws.flatten.length : ℕ) : ℤ) ≤ maxPos) := by
  induction ws generalizing D s with
  | nil =>
    rw [List.flatten_nil, List.append_nil]
    exact ⟨fun _ => ⟨trivial, h⟩, fun _ => h.pos_le⟩
  | cons bs ws ih =>
    obtain ⟨k, s', hstep, hat, hk⟩ := h.write bs
    have hsub : header.length + D.length - header.length = D.length := by omega
    rw [hsub] at hat
    rw [List.flatten_cons, List.length_append, List.map_cons]
    -- a write that is not cut appends its bytes
    have hfull : k = bs.length → SinkAt header info offsets (D ++ bs)
        (header.length + (D ++ bs).length) s' := by
      rintro rfl
      rw [List.take_length, overwrite_end] at hat
      rwa [List.length_append, ← Nat.add_assoc]
    constructor
    · intro hmax
      have hkn : k = bs.length := by omega
      obtain ⟨ih, -⟩ := ih (hfull hkn)
      rw [List.length_append, List.append_assoc] at ih
      obtain ⟨halong, hafter⟩ := ih (by push_cast at hmax ⊢; omega)
      refine ⟨⟨?_, ?_⟩, ?_⟩
      · rw [writesAll, hstep, hkn]
      · rw [hstep]
        exact halong
      · rw [Machine.after, hstep]
        exact hafter
    · rintro ⟨hcount, halong⟩
      rw [writesAll, hstep] at hcount
      rw [hstep] at halong
      obtain ⟨-, ih⟩ := ih (hfull (Int.ofNat_inj.1 hcount))
      have hmax := ih halong
      rw [List.length_append] at hmax
      omega

/-- Writes on a new file, and a close behind them: what is said of the closed
    sink holds if no write reports a failure, or one has to. -/
theorem SinkAt.writes_close_iff {header : List UInt8}
    (h : SinkAt header info offsets [] (header.length + ([] : List UInt8).length) s)
    (ws : List (List UInt8)) {close : HeaderSink ω File → Except RuntimeError (HeaderSink ω File)}
    {Q : HeaderSink ω File → Prop} {C : Prop}
    (hclose : ∀ s, ((header.length + ws.flatten.length : ℕ) : ℤ) ≤ maxPos →
      SinkAt header info offsets ws.flatten (header.length + ws.flatten.length) s →
      ∃ s', close s = .ok s' ∧ (Q s' ↔ C)) :
    (Along sinkStep writesAll s (ws.map .write) →
        ∀ s', close (Machine.after sinkStep s (ws.map .write)) = .ok s' → Q s') ↔
      C ∨ maxPos < (header.length + ws.flatten.length : ℕ) := by
  obtain ⟨hroom, hfull⟩ := h.writes ws
  rw [List.nil_append, List.length_nil, Nat.add_zero] at hroom
  rw [List.length_nil, Nat.add_zero] at hfull
  by_cases hmax : ((header.length + ws.flatten.length : ℕ) : ℤ) ≤ maxPos
  · obtain ⟨halong, hafter⟩ := hroom hmax
    obtain ⟨s', hs', hQ⟩ := hclose _ hmax hafter
    rw [Simulation.ok_imp_iff hs', hQ, or_iff_left (not_lt.2 hmax)]
    exact forall_prop_of_true halong
  · refine iff_of_true ?_ (Or.inr (not_le.1 hmax))
    intro halong
    exact absurd (hfull halong) hmax

end

end HeaderSink

end NiMedia
