/-
  What closing a sink leaves.

  The sizes in the header are computed from the position of the cursor, in 32
  bits, and the data are not padded.

  * `sinks_trueSizes_iff`: after any writes and seeks, in a file below 4 GiB.
  * `sinks_noWrap_iff`: after writes of any length.
  * `sinks_tiled_iff`: the chunks of the file.
-/
import NiMedia.Wav.Closing
import NiMedia.Aiff.Closing

namespace NiMedia

open Bytes Machine HeaderSink

/-! ## After any calls -/

/-- **True sizes.**  Whatever was written and sought, in a file below 4 GiB: the
    sizes are those of the file iff the cursor is at its end. -/
theorem sinks_trueSizes_iff (P : Platform) (native : EndianType) (info : StreamInfo)
    (calls : List SinkCall) :
    (∃ s, Wav.sinkAfter native info calls = .ok s ∧
      (s.view.device.bytes.length < 2 ^ 32 →
        ((∃ s', Wav.WavSink.close native s = .ok s' ∧
          Wav.TrueSizes native s'.view.device.bytes (s'.view.device.bytes.length - 44)) ↔
            s.view.device.pos % 2 ^ 32 = s.view.device.bytes.length))) ∧
    ∀ s, Aiff.sinkAfter P info calls = .ok s → s.view.device.bytes.length < 2 ^ 32 →
      ((∃ s', Aiff.AiffSink.close native s = .ok s' ∧
        Aiff.TrueSizes info s'.view.device.bytes (s'.view.device.bytes.length - 58)) ↔
          s.view.device.pos % 2 ^ 32 = s.view.device.bytes.length ∧
            Aiff.CountsFrames info (s.view.device.bytes.length - 58)) :=
  ⟨Wav.sinkAfter_trueSizes native info calls,
    fun _ hs hlt => Aiff.sinkAfter_trueSizes native hs hlt⟩

/-- An info of signed 8 bit mono. -/
def s8Mono (native : EndianType) : StreamInfo where
  format := RuntimeFormat.default native

theorem sinks_trueSizes_iff_appended :
    (∃ s s', Wav.sinkAfter .littleEndian (s8Mono .littleEndian) [.write [1, 2, 3, 4]] = .ok s ∧
      Wav.WavSink.close .littleEndian s = .ok s' ∧
      Wav.TrueSizes .littleEndian s'.view.device.bytes (s'.view.device.bytes.length - 44)) ∧
    ∃ s s', Aiff.sinkAfter .powersOfTwo Aiff.s24beStereo [.write [1, 2, 3, 4, 5, 6]] = .ok s ∧
      Aiff.AiffSink.close .littleEndian s = .ok s' ∧
      Aiff.TrueSizes Aiff.s24beStereo s'.view.device.bytes
        (s'.view.device.bytes.length - 58) := by
  constructor
  · obtain ⟨s, hs, htrue⟩ := (sinks_trueSizes_iff .powersOfTwo .littleEndian (s8Mono .littleEndian)
      [.write [1, 2, 3, 4]]).1
    have hrun : (Wav.sinkAfter .littleEndian (s8Mono .littleEndian) [.write [1, 2, 3, 4]]).map
        (fun s => (s.view.device.bytes.length, s.view.device.pos)) = .ok (48, 48) := by decide
    rw [hs] at hrun
    obtain ⟨hlen, hpos⟩ := Prod.mk.inj (Except.ok.inj hrun)
    obtain ⟨s', hclose, hsizes⟩ := (htrue (by omega)).2 (by omega)
    exact ⟨s, s', hs, hclose, hsizes⟩
  · have hrun : (Aiff.sinkAfter .powersOfTwo Aiff.s24beStereo [.write [1, 2, 3, 4, 5, 6]]).map
        (fun s => (s.view.device.bytes.length, s.view.device.pos)) = .ok (64, 64) := by
      decide +kernel
    cases hs : Aiff.sinkAfter .powersOfTwo Aiff.s24beStereo [.write [1, 2, 3, 4, 5, 6]] with
    | error e => rw [hs] at hrun; cases hrun
    | ok s =>
      rw [hs] at hrun
      obtain ⟨hlen, hpos⟩ := Prod.mk.inj (Except.ok.inj hrun)
      have hcounts : Aiff.CountsFrames Aiff.s24beStereo (s.view.device.bytes.length - 58) :=
        ⟨by decide, Or.inl (by decide)⟩
      obtain ⟨s', hclose, hsizes⟩ := ((sinks_trueSizes_iff .powersOfTwo .littleEndian _ _).2 s hs
        (by omega)).2 ⟨by omega, hcounts⟩
      exact ⟨s, s', rfl, hclose, hsizes⟩

/-- A sink whose cursor has gone back to the beginning of the data. -/
theorem rewoundWav_not_trueSizes :
    ∃ s, Wav.sinkAfter .littleEndian (s8Mono .littleEndian)
        [.write [1, 2, 3, 4], .seek 0 .beg] = .ok s ∧
      s.view.device.bytes.length < 2 ^ 32 ∧
      ¬ ∃ s', Wav.WavSink.close .littleEndian s = .ok s' ∧
        Wav.TrueSizes .littleEndian s'.view.device.bytes (s'.view.device.bytes.length - 44) := by
  obtain ⟨s, hs, htrue⟩ := Wav.sinkAfter_trueSizes .littleEndian (s8Mono .littleEndian)
    [.write [1, 2, 3, 4], .seek 0 .beg]
  have hrun : (Wav.sinkAfter .littleEndian (s8Mono .littleEndian)
      [.write [1, 2, 3, 4], .seek 0 .beg]).map (·.view.device.bytes.length) = .ok 48 := by decide
  have hpos : (Wav.sinkAfter .littleEndian (s8Mono .littleEndian)
      [.write [1, 2, 3, 4], .seek 0 .beg]).map (·.view.device.pos) = .ok 44 := by decide
  rw [hs] at hrun hpos
  have hrun := Except.ok.inj hrun
  have hpos := Except.ok.inj hpos
  dsimp only at hrun hpos
  refine ⟨s, hs, by omega, fun h => ?_⟩
  have := (htrue (by omega)).1 h
  omega

/-! ## After writes of any length -/

/-- **No wrapped sizes.**  If no write and no `close` reports a failure, the sizes
    are true, unless there are too many bytes for the RIFF or the FORM size (and
    as long as frames can be counted). -/
theorem sinks_noWrap_iff (P : Platform) (native : EndianType) (info : StreamInfo)
    (ws : List (List UInt8)) :
    (∃ s, Wav.WavSink.construct native info (File.opened []) = .ok s ∧
      ((Along sinkStep writesAll s (ws.map .write) →
        ∀ s', Wav.WavSink.close native (after sinkStep s (ws.map .write)) = .ok s' →
          Wav.TrueSizes native s'.view.device.bytes ws.flatten.length) ↔
        36 + ws.flatten.length < 2 ^ 32 ∨ maxPos < (44 + ws.flatten.length : ℕ))) ∧
    ∀ s, Aiff.AiffSink.construct P info (File.opened []) = .ok s →
      ((Along sinkStep writesAll s (ws.map .write) →
        ∀ s', Aiff.AiffSink.close native (after sinkStep s (ws.map .write)) = .ok s' →
          Aiff.TrueSizes info s'.view.device.bytes ws.flatten.length) ↔
        50 + ws.flatten.length < 2 ^ 32 ∧ Aiff.CountsFrames info ws.flatten.length ∨
          maxPos < (58 + ws.flatten.length : ℕ)) :=
  ⟨Wav.writes_trueSizes native info ws, fun _ hs => Aiff.writes_trueSizes native ws hs⟩

theorem sinks_noWrap_iff_frame :
    ∃ s, Aiff.AiffSink.construct .powersOfTwo Aiff.s24beStereo (File.opened []) = .ok s ∧
      (Along sinkStep writesAll s ([[1, 2, 3], [4, 5, 6]].map .write) →
        ∀ s', Aiff.AiffSink.close .littleEndian
          (after sinkStep s ([[1, 2, 3], [4, 5, 6]].map .write)) = .ok s' →
            Aiff.TrueSizes Aiff.s24beStereo s'.view.device.bytes 6) := by
  obtain ⟨s, hs⟩ := Aiff.accepted_iff.2 ⟨by decide, ⟨Aiff.s24beData⟩⟩
  exact ⟨s, hs, ((sinks_noWrap_iff .powersOfTwo .littleEndian Aiff.s24beStereo
    [[1, 2, 3], [4, 5, 6]]).2 s hs).2 (Or.inl ⟨by decide, by decide, Or.inl (by decide)⟩)⟩

/-- 4 GiB of silence in one write. -/
theorem longWav_wraps :
    ∃ s, Wav.WavSink.construct .littleEndian (s8Mono .littleEndian) (File.opened []) = .ok s ∧
      ¬ (Along sinkStep writesAll s ([List.replicate (2 ^ 32) 0].map .write) →
        ∀ s', Wav.WavSink.close .littleEndian
          (after sinkStep s ([List.replicate (2 ^ 32) 0].map .write)) = .ok s' →
            Wav.TrueSizes .littleEndian s'.view.device.bytes (2 ^ 32)) := by
  obtain ⟨s, hs, htrue⟩ := Wav.writes_trueSizes .littleEndian (s8Mono .littleEndian)
    [List.replicate (2 ^ 32) 0]
  have hlen : [List.replicate (2 ^ 32) (0 : UInt8)].flatten.length = 2 ^ 32 := by
    rw [List.flatten_singleton, List.length_replicate]
  rw [hlen] at htrue
  refine ⟨s, hs, fun h => ?_⟩
  have := htrue.1 h
  unfold maxPos at this
  omega

/-! ## The chunks -/

/-- **Tiled by chunks.**  The chunks of a file below 4 GiB end where the file
    ends iff the number of bytes that have been written is even (and an AIFF sink
    does not divide by a frame size of zero). -/
theorem sinks_tiled_iff (P : Platform) (native : EndianType) (info : StreamInfo)
    (ws : List (List UInt8)) :
    (44 + ws.flatten.length < 2 ^ 32 →
      ∃ file, Wav.closedWav native info ws = .ok file ∧
        (Wav.Tiled native file ↔ ws.flatten.length % 2 = 0)) ∧
    (Aiff.accepted P info → 58 + ws.flatten.length < 2 ^ 32 →
      ((∃ file, Aiff.closedAiff P native info ws = .ok file ∧ Aiff.Tiled info file) ↔
        ws.flatten.length % 2 = 0 ∧ Aiff.frameSize info ≠ 0)) := by
  constructor
  · intro h
    exact ⟨_, Wav.closedWav_eq native info ws (by omega), Wav.tiled_wavFile h⟩
  · intro haccepted h
    obtain ⟨hch, ⟨d⟩⟩ := Aiff.accepted_iff.1 haccepted
    rw [Simulation.ok_and_iff (Aiff.closedAiff_eq native d hch ws (by omega))]
    exact Aiff.tiled_aiffFile h

theorem sinks_tiled_iff_frame :
    (∃ file, Wav.closedWav .littleEndian (s8Mono .littleEndian) [[1, 2]] = .ok file ∧
      Wav.Tiled .littleEndian file) ∧
    ∃ file, Aiff.closedAiff .powersOfTwo .littleEndian Aiff.s24beStereo [[1, 2, 3], [4, 5, 6]] =
      .ok file ∧ Aiff.Tiled Aiff.s24beStereo file := by
  obtain ⟨file, hfile, htiled⟩ :=
    (sinks_tiled_iff .powersOfTwo .littleEndian (s8Mono .littleEndian) [[1, 2]]).1 (by decide)
  have haiff := (sinks_tiled_iff .powersOfTwo .littleEndian Aiff.s24beStereo
    [[1, 2, 3], [4, 5, 6]]).2 (Aiff.accepted_iff.2 ⟨by decide, ⟨Aiff.s24beData⟩⟩) (by decide)
  exact ⟨⟨file, hfile, htiled.2 rfl⟩, haiff.2 ⟨rfl, by decide⟩⟩

/-- One frame of 8 bit mono. -/
theorem oddWav_not_tiled :
    ∃ file, Wav.closedWav .littleEndian (s8Mono .littleEndian) [[1]] = .ok file ∧
      ¬ Wav.Tiled .littleEndian file := by
  refine ⟨_, Wav.closedWav_eq .littleEndian (s8Mono .littleEndian) [[1]] (by decide), ?_⟩
  rw [Wav.tiled_wavFile (by decide)]
  decide

end NiMedia
