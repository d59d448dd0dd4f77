/-
  Closing WAV sinks.

  `close` makes the sizes out of the position of the cursor.

  * `sinkAfter_ok`: after any calls the file is the header and some data, and
    closing it gives `closedAt`.
  * `trueSizes_closedAt`: when the sizes are those of the file.
  * `tiled_wavFile`: when the walk over the chunks ends at the end of the file.
-/
import NiMedia.Audio.SinkRun
import NiMedia.Wav.RoundTrip

namespace NiMedia.Wav

open Bytes Loop Machine Simulation HeaderSink

section
variable (native : EndianType) (info : StreamInfo)

/-- A sink on a new file, after some calls. -/
def sinkAfter (calls : List SinkCall) : Except RuntimeError (WavSink File) := do
  let s ← WavSink.construct native info (File.opened [])
  pure (after sinkStep s calls)

/-- The sizes in the header are those of a file with `n` bytes of data. -/
structure TrueSizes (file : List UInt8) (n : ℕ) : Prop where
  chunkSize : field native file 4 4 + 8 = file.length
  dataSize : field native file 40 4 = n

/-- The offset of the header after the one at offset `o`, whatever the chunk. -/
def headerNext (B : List UInt8) (o : ℕ) : Option ℕ :=
  (tagAt native B o).map fun tag => nextOffset ((o + 8) % 2 ^ 32) tag.length

/-- The walk over the chunks ends at the end of the file, which is where the
    RIFF chunk ends. -/
structure Tiled (B : List UInt8) : Prop where
  walk : ∃ n, walk (headerNext native B) 12 n = some B.length
  chunkSize : 8 + field native B 4 4 = B.length

end

variable {native : EndianType} {info : StreamInfo} {D : List UInt8} {p : ℕ}

/-! ## Closing after any calls -/

variable (native info) in
theorem construct_sinkAt :
    ∃ s, WavSink.construct native info (File.opened []) = .ok s ∧
      SinkAt (wavHeader native info 0 0) info ⟨44, 40, 4⟩ []
        ((wavHeader native info 0 0).length + ([] : List UInt8).length) s := by
  have hlen := length_wavHeader native info 0 0
  have hconstruct := HeaderSink.construct_opened info (appends_writeWavHeader native info)
    (by rw [hlen]; decide)
  exact ⟨_, hconstruct, by rw [List.append_nil]; rfl, le_rfl, le_maxPos (by rw [hlen]; decide)⟩

variable (native info) in
theorem sinkAfter_ok (calls : List SinkCall) :
    ∃ s D p, sinkAfter native info calls = .ok s ∧
      SinkAt (wavHeader native info 0 0) info ⟨44, 40, 4⟩ D p s := by
  obtain ⟨s₀, hconstruct, hat⟩ := construct_sinkAt native info
  obtain ⟨D, p, hafter⟩ := hat.after calls
  refine ⟨_, D, p, ?_, hafter⟩
  rw [sinkAfter, hconstruct, ok_bind]
  rfl

/-! ## The sizes -/

theorem length_closedAt : (closedAt native info D p).length = 44 + D.length := by
  rw [closedAt, List.length_append, length_wavHeader]

variable (native info D) in
theorem field_wavHeader {c d : ℕ} (hc : c < 2 ^ 32) (hd : d < 2 ^ 32) :
    field native (wavHeader native info c d ++ D) 4 4 = c ∧
      field native (wavHeader native info c d ++ D) 40 4 = d := by
  have hc' : c % 256 ^ 4 = c := Nat.mod_eq_of_lt hc
  have hd' : d % 256 ^ 4 = d := Nat.mod_eq_of_lt hd
  constructor
  · simp (disch := simp) only [field, wavHeader, List.append_assoc, slice_head, slice_skip,
      EndianType.length_toBytes, Nat.reduceSub, EndianType.ofBytes_toBytes, hc']
  · simp (disch := simp) only [field, wavHeader, List.append_assoc, slice_head, slice_skip,
      EndianType.length_toBytes, Nat.reduceSub, EndianType.ofBytes_toBytes, hd']

/-- **When the sizes are true.** -/
theorem trueSizes_closedAt :
    TrueSizes native (closedAt native info D p) D.length ↔
      36 + D.length < 2 ^ 32 ∧ p % 2 ^ 32 = (44 + D.length) % 2 ^ 32 := by
  have hlt : ∀ x, uint32 x < 2 ^ 32 := fun x => by unfold uint32; omega
  obtain ⟨hchunk, hdata⟩ := field_wavHeader native info D (hlt (uint32 p - 8))
    (hlt (uint32 p - uint32 44))
  have hchunk : field native (closedAt native info D p) 4 4 = _ := hchunk
  have hdata : field native (closedAt native info D p) 40 4 = _ := hdata
  have hlen : (closedAt native info D p).length = _ := length_closedAt
  constructor
  · rintro ⟨h1, h2⟩
    rw [hchunk, hlen] at h1
    rw [hdata] at h2
    unfold uint32 at h1 h2
    omega
  · rintro ⟨h1, h2⟩
    constructor
    · rw [hchunk, hlen]
      unfold uint32
      omega
    · rw [hdata]
      unfold uint32
      omega

/-- Closing the sink, and when it leaves true sizes. -/
theorem close_sinkAt {s : WavSink File}
    (h : SinkAt (wavHeader native info 0 0) info ⟨44, 40, 4⟩ D p s)
    (hmax : 44 + D.length < 2 ^ 63) :
    ∃ s', WavSink.close native s = .ok s' ∧ s'.view.device.bytes.length = 44 + D.length ∧
      (TrueSizes native s'.view.device.bytes D.length ↔
        36 + D.length < 2 ^ 32 ∧ p % 2 ^ 32 = (44 + D.length) % 2 ^ 32) := by
  obtain ⟨q, hclose⟩ := closeWav_wavHeader native info D h.pos_le hmax
  obtain ⟨s', hs', hbytes⟩ := h.close (fun _ => closeWav native) native hclose
  refine ⟨s', hs', ?_, ?_⟩
  · rw [hbytes, length_closedAt]
  · rw [hbytes, trueSizes_closedAt]

variable (native info) in
/-- **Below 4 GiB** the sizes are true iff the cursor is at the end. -/
theorem sinkAfter_trueSizes (calls : List SinkCall) :
    ∃ s, sinkAfter native info calls = .ok s ∧
      (s.view.device.bytes.length < 2 ^ 32 →
        ((∃ s', WavSink.close native s = .ok s' ∧
          TrueSizes native s'.view.device.bytes (s'.view.device.bytes.length - 44)) ↔
            s.view.device.pos % 2 ^ 32 = s.view.device.bytes.length)) := by
  obtain ⟨s, D, p, hs, hat⟩ := sinkAfter_ok native info calls
  have hlen := hat.length_bytes
  rw [length_wavHeader] at hlen
  refine ⟨s, hs, fun hlt => ?_⟩
  obtain ⟨s', hclose, hlen', htrue⟩ := close_sinkAt hat (by omega)
  have hdata : s'.view.device.bytes.length - 44 = D.length := by omega
  rw [hat.pos_eq, hlen, ok_and_iff hclose, hdata, htrue]
  omega

variable (native info) in
/-- **Writes of any length**: if no call reports a failure, the sizes are true
    unless the RIFF size does not fit. -/
theorem writes_trueSizes (ws : List (List UInt8)) :
    ∃ s, WavSink.construct native info (File.opened []) = .ok s ∧
      ((Along sinkStep writesAll s (ws.map .write) →
        ∀ s', WavSink.close native (after sinkStep s (ws.map .write)) = .ok s' →
          TrueSizes native s'.view.device.bytes ws.flatten.length) ↔
        36 + ws.flatten.length < 2 ^ 32 ∨ maxPos < (44 + ws.flatten.length : ℕ)) := by
  obtain ⟨s, hs, hat⟩ := construct_sinkAt native info
  have hlen := length_wavHeader native info 0 0
  refine ⟨s, hs, ?_⟩
  rw [← hlen]
  refine hat.writes_close_iff ws fun s hmax hafter => ?_
  rw [hlen] at hmax hafter
  obtain ⟨s', hclose, -, htrue⟩ := close_sinkAt hafter (by unfold maxPos at hmax; omega)
  exact ⟨s', hclose, htrue.trans (and_iff_left rfl)⟩

/-! ## The chunks -/

theorem headerNext_even {B : List UInt8} {o o' : ℕ} (h : headerNext native B o = some o') :
    o' % 2 = 0 := by
  obtain ⟨tag, -, rfl⟩ := Option.map_eq_some_iff.1 h
  rw [nextOffset_eq]
  omega

/-- **When the chunks tile the file.** -/
theorem tiled_wavFile (h : 44 + D.length < 2 ^ 32) :
    Tiled native (wavFile native info D) ↔ D.length % 2 = 0 := by
  have hlen : (wavFile native info D).length = _ := length_wavFile
  constructor
  · rintro ⟨⟨n, hwalk⟩, -⟩
    have heven : (wavFile native info D).length % 2 = 0 :=
      walk_inv (fun o => o % 2 = 0) (fun _ _ _ hnext => headerNext_even hnext) rfl hwalk
    omega
  · intro heven
    have hmod : D.length % 2 ^ 32 = D.length := Nat.mod_eq_of_lt (by omega)
    have hfmt : headerNext native (wavFile native info D) 12 = some 36 := by
      rw [headerNext, tagAt_fmt]; rfl
    have hdata : headerNext native (wavFile native info D) 36 = some (44 + D.length) := by
      have hnext : nextOffset ((36 + 8) % 2 ^ 32) D.length = 44 + D.length := by
        rw [nextOffset_eq]
        omega
      rw [headerNext, tagAt_data, hmod, Option.map_some, hnext]
    refine ⟨⟨2, ?_⟩, ?_⟩
    · rw [walk_succ (walk_succ rfl |>.trans hfmt), hdata, hlen]
    · have hlt : uint32 (uint32 (44 + D.length) - 8) < 2 ^ 32 := by unfold uint32; omega
      obtain ⟨hchunk, -⟩ := field_wavHeader native info D hlt
        (Nat.mod_lt D.length (by decide : 0 < 2 ^ 32))
      have hchunk : field native (wavFile native info D) 4 4 = _ := hchunk
      rw [hchunk, hlen]
      unfold uint32
      omega

end NiMedia.Wav
