/-
  How far the handlers of the WAV header reader read.

  The handlers of `fmt ` and `inst` chunks check the length before they read.
  The one of `smpl` chunks checks it for the chunk, but not for the loops that
  the chunk counts.

  * `readsOnly_iff_fits`: a handler keeps to its chunk iff the loops fit into it.
-/
import NiMedia.Iostreams.Window
import NiMedia.Wav.Walk

namespace NiMedia.Wav

open Bytes Loop Simulation

section
variable (native : EndianType) (Y : List UInt8)

/-- The loops that a `smpl` chunk counts fit into the chunk. -/
def sampleLoopsFit : Prop :=
  36 ≤ Y.length → ∀ c, (SampleChunk.layout native).get Y 0 = some c →
    36 + 24 * c.sampleLoops.toNat ≤ Y.length

/-- What a handler looks for fits into a chunk with the payload `Y`. -/
def fits (id : ℕ) : Prop := id = smpl → sampleLoopsFit native Y

end

section
variable {native : EndianType} {Y : List UInt8} {a a' : ℕ}

/-! ## Inside of the chunk -/

theorem readExtension_window {length : ℕ} (hlen : length ≤ Y.length) (c : FmtChunk) :
    Sim (Window Y a a' 16) (Same (Alike Y a a')) (readExtension native length c : Io File _)
      (readExtension native length c) := by
  unfold readExtension
  by_cases hext : 16 + 2 + 22 ≤ length
  · rw [if_pos hext]
    have h2 : (uint16Layout native).size = 2 := rfl
    have h22 : (FormatExtensible.layout native).size = 22 := rfl
    refine Window.bind_fetch (by omega) ?_
    rw [Layout.get_of_le (by omega)]
    dsimp only
    refine Sim.ite (Window.bind_fetch (by omega) ?_) (Window.pure _)
    rw [Layout.get_of_le (by omega)]
    exact Sim.ite (Window.pure _) (Sim.ite (Window.pure _) (Window.pure _))
  · rw [if_neg hext]
    exact Window.pure _

theorem readFmtChunk_window {length : ℕ} (hlen : length ≤ Y.length) :
    Sim (Window Y a a' 0) (Same (Alike Y a a')) (readFmtChunk native length : Io File _)
      (readFmtChunk native length) := by
  unfold readFmtChunk
  by_cases h16 : length < 16
  · rw [if_pos h16]
    exact Sim.throw
  · rw [if_neg h16]
    have hsize : (FmtChunk.layout native).size = 16 := rfl
    refine Window.bind_fetch (by omega) ?_
    rw [Layout.get_of_le (by omega)]
    refine Sim.ite Sim.throw ?_
    refine (readExtension_window hlen _).bind_eq fun formatTag => ?_
    exact liftM_sim _

theorem readSampleLoops_window : ∀ (n k : ℕ) (loops : List (ℤ × SampleLoop)),
    k + 24 * n ≤ Y.length →
    Sim (Window Y a a' k) (Same (Alike Y a a')) (readSampleLoops native n loops : Io File _)
      (readSampleLoops native n loops)
  | 0, _, _, _ => Window.pure _
  | n + 1, k, loops, h => by
    unfold readSampleLoops
    have hsize : (SampleLoop.layout native).size = 24 := rfl
    refine Window.bind_fetch (by omega) ?_
    rw [Layout.get_of_le (by omega)]
    exact readSampleLoops_window n _ _ (by omega)

theorem readSampleChunk_window {length : ℕ} (hlen : length ≤ Y.length)
    (hfit : 36 ≤ length → sampleLoopsFit native Y) (info : WavIfstreamInfo) :
    Sim (Window Y a a' 0) (Same (Alike Y a a')) (readSampleChunk native length info : Io File _)
      (readSampleChunk native length info) := by
  unfold readSampleChunk
  by_cases h36 : 36 ≤ length
  · rw [if_pos h36]
    have hsize : (SampleChunk.layout native).size = 36 := rfl
    obtain ⟨c, hc⟩ : ∃ c, (SampleChunk.layout native).get Y 0 = some c :=
      ⟨_, Layout.get_of_le (by omega)⟩
    have hloops := hfit h36 (by omega) c hc
    refine Window.bind_fetch (by omega) ?_
    rw [hc]
    refine Sim.ite ((readSampleLoops_window _ _ _ (by omega)).bind_eq fun loops => ?_)
      (Window.pure _)
    exact Sim.pure fun _ _ h => ⟨rfl, h⟩
  · rw [if_neg h36]
    exact Window.pure _

theorem readInstrumentChunk_window {length : ℕ} (hlen : length ≤ Y.length)
    (info : WavIfstreamInfo) :
    Sim (Window Y a a' 0) (Same (Alike Y a a')) (readInstrumentChunk native length info : Io File _)
      (readInstrumentChunk native length info) := by
  unfold readInstrumentChunk
  by_cases h7 : 7 ≤ length
  · rw [if_pos h7]
    have hsize : (InstrumentChunk.layout native).size = 7 := rfl
    refine Window.bind_fetch (by omega) ?_
    rw [Layout.get_of_le (by omega)]
    exact Window.pure _
  · rw [if_neg h7]
    exact Window.pure _

/-- **Inside of the chunk** a handler does the same wherever the chunk is. -/
theorem readChunk_window {tag : RiffTag} (hlen : tag.length ≤ Y.length)
    (hfit : tag.id = smpl → 36 ≤ tag.length → sampleLoopsFit native Y) (info : WavIfstreamInfo) :
    Sim (Window Y a a' 0) (Same (Alike Y a a')) (readChunk native tag info : Io File _)
      (readChunk native tag info) := by
  unfold readChunk
  refine Sim.ite ((readFmtChunk_window hlen).bind_eq fun _ => Sim.pure fun _ _ h => ⟨rfl, h⟩) ?_
  refine Sim.ite ((Window.liftM _).bind_eq fun _ => Sim.pure fun _ _ h => ⟨rfl, h⟩) ?_
  by_cases hsmpl : tag.id = smpl
  · rw [if_pos hsmpl]
    exact (readSampleChunk_window hlen (hfit hsmpl) info).bind_eq fun _ =>
      Sim.pure fun _ _ h => ⟨rfl, h⟩
  · rw [if_neg hsmpl]
    exact Sim.ite ((readInstrumentChunk_window hlen info).bind_eq fun _ =>
      Sim.pure fun _ _ h => ⟨rfl, h⟩) (Window.pure _)

/-! ## Out of the chunk -/

theorem readSampleLoops_short : ∀ (n p : ℕ) (B : List UInt8) (loops : List (ℤ × SampleLoop)),
    p ≤ B.length → B.length < p + 24 * n →
    readSampleLoops native n loops (⟨B, p⟩ : File) = .error ⟨"Could not read one of the loops"⟩
  | 0, p, B, loops, hp, h => by omega
  | n + 1, p, B, loops, hp, h => by
    have hsize : (SampleLoop.layout native).size = 24 := rfl
    rw [readSampleLoops, run_bind, fetch_file]
    cases hc : (SampleLoop.layout native).get B p with
    | none => rfl
    | some c =>
      obtain ⟨hin, hlen, -⟩ := Layout.get_eq_some hc
      have ih := readSampleLoops_short n (p + 24) B (mapInsert c.1 c.2 loops) (by omega) (by omega)
      rw [hlen]
      exact ih

theorem readSampleLoops_long : ∀ (n p : ℕ) (B : List UInt8) (loops : List (ℤ × SampleLoop)),
    p + 24 * n ≤ B.length → ∃ x, readSampleLoops native n loops (⟨B, p⟩ : File) = .ok x
  | 0, _, _, _, _ => ⟨_, rfl⟩
  | n + 1, p, B, loops, h => by
    have hsize : (SampleLoop.layout native).size = 24 := rfl
    have hc := Layout.get_of_le (L := SampleLoop.layout native) (B := B) (p := p) (by omega)
    obtain ⟨-, hlen, -⟩ := Layout.get_eq_some hc
    obtain ⟨x, hx⟩ := readSampleLoops_long n (p + 24) B (mapInsert _ _ loops) (by omega)
    refine ⟨x, ?_⟩
    rw [readSampleLoops, run_bind, fetch_file, hc, hlen]
    exact hx

/-- A `smpl` chunk with loops, over a file. -/
theorem readChunk_loops {tag : RiffTag} (hid : tag.id = smpl) (h36 : 36 ≤ tag.length)
    {X : List UInt8} {p : ℕ} {c : SampleChunk} (hc : (SampleChunk.layout native).get X p = some c)
    (hpos : 0 < c.sampleLoops) (info : WavIfstreamInfo) :
    (∀ e, readSampleLoops native c.sampleLoops.toNat [] (⟨X, p + 36⟩ : File) = .error e →
      readChunk native tag info (⟨X, p⟩ : File) = .error e) ∧
    ∀ x, readSampleLoops native c.sampleLoops.toNat [] (⟨X, p + 36⟩ : File) = .ok x →
      ∃ y, readChunk native tag info (⟨X, p⟩ : File) = .ok y := by
  obtain ⟨-, hlen, -⟩ := Layout.get_eq_some hc
  have hsize : (SampleChunk.layout native).size = 36 := rfl
  rw [hsize] at hlen
  have hfmt : smpl ≠ fmt := by decide
  have hdata : smpl ≠ data := by decide
  simp only [readChunk, hid, if_neg hfmt, if_neg hdata, if_true, run_bind, readSampleChunk,
    if_pos h36, fetch_file, hc, Except.bind, hsize, hlen, run_ite, if_pos hpos]
  refine ⟨fun e he => ?_, fun x hx => ?_⟩
  · rw [he]
  · rw [hx]
    exact ⟨_, rfl⟩

theorem not_readsOnly_of_loops {tag : RiffTag} {B : List UInt8} (hid : tag.id = smpl)
    (hlt : a + tag.length < B.length) (hfit : ¬ sampleLoopsFit native (slice B a tag.length))
    (info : WavIfstreamInfo) :
    ¬ readsOnly (readChunk native tag info : Io File _) B a tag.length := by
  have hY : (slice B a tag.length).length = tag.length := length_slice hlt.le
  unfold sampleLoopsFit at hfit
  push Not at hfit
  obtain ⟨h36, c, hc, hloops⟩ := hfit
  rw [hY] at h36 hloops
  have hpos : 0 < c.sampleLoops := by omega
  have hsize : (SampleChunk.layout native).size = 36 := rfl
  obtain ⟨hget, hgetShort⟩ := get_take_append hlt (by omega) hc
  simp only [Nat.add_zero] at hget hgetShort
  have hlen : (B.take (a + tag.length)).length = a + tag.length := by
    rw [List.length_take]
    omega
  -- without the bytes behind the chunk, and with zeros there
  have hshort := (readChunk_loops hid h36 hgetShort hpos info).1 _
    (readSampleLoops_short c.sampleLoops.toNat (a + 36) _ [] (by omega) (by omega))
  obtain ⟨x, hx⟩ := readSampleLoops_long c.sampleLoops.toNat (a + 36)
    (B.take (a + tag.length) ++ List.replicate (24 * c.sampleLoops.toNat) 0) []
    (by rw [List.length_append, List.length_replicate]; omega)
  obtain ⟨y, hy⟩ := (readChunk_loops hid h36 (hget _) hpos info).2 x hx
  exact not_readsOnly_of_error hlt hshort (by rw [hy]; exact fun h => by cases h)

/-- **The extent of a handler**: it keeps to its chunk, or to the file, iff what
    it looks for fits into the chunk. -/
theorem readsOnly_iff_fits {tag : RiffTag} {B : List UInt8} (info : WavIfstreamInfo) :
    readsOnly (readChunk native tag info : Io File _) B a tag.length ↔
      B.length ≤ a + tag.length ∨ fits native (slice B a tag.length) tag.id := by
  constructor
  · intro h
    rcases Nat.lt_or_ge (a + tag.length) B.length with hlt | hle
    · right
      intro hid
      by_contra hfit
      exact not_readsOnly_of_loops hid hlt hfit info h
    · exact .inl hle
  · rintro (hle | hfit)
    · exact .inl hle
    · exact readsOnly_of_window fun Y hY hlen a' =>
        readChunk_window hlen.ge (fun hid _ => by rw [← hY]; exact hfit hid) info

end

section
variable (native : EndianType) (B : List UInt8)

/-- The handlers that the reader gets to keep to their chunks, whatever it has
    read before. -/
def keepsToChunks : Prop :=
  isWave native B → ∀ n o tag, chunkOffset native B n = some o → tagAt native B o = some tag →
    tag.length ≠ 0 → ∀ info, readsOnly (readChunk native tag info : Io File _) B (o + 8) tag.length

/-- What the handlers look for fits into their chunks, or the file ends before
    these do. -/
def chunksFit : Prop :=
  isWave native B → ∀ n o tag, chunkOffset native B n = some o → tagAt native B o = some tag →
    tag.length ≠ 0 →
      B.length ≤ o + 8 + tag.length ∨ fits native (slice B (o + 8) tag.length) tag.id

theorem keepsToChunks_iff : keepsToChunks native B ↔ chunksFit native B := by
  refine forall_congr' fun _ => forall_congr' fun n => forall_congr' fun o =>
    forall_congr' fun tag => forall_congr' fun _ => forall_congr' fun _ => forall_congr' fun _ => ?_
  constructor
  · intro h
    exact (readsOnly_iff_fits (WavIfstreamInfo.default native)).1 (h _)
  · intro h info
    exact (readsOnly_iff_fits info).2 h

end

end NiMedia.Wav
