/-
  Closing AIFF sinks.

  `close` makes the sizes and the number of frames out of the position of the
  cursor.

  * `sinkAfter_ok`: after any calls the file is the header and some data, and
    closing it gives `closedAt`.
  * `trueSizes_closedAt`: when the numbers are those of the file.
  * `tiled_aiffFile`: when the walk over the chunks ends at the end of the file.
-/
import NiMedia.Audio.SinkRun
import NiMedia.Aiff.RoundTrip

namespace NiMedia.Aiff

open Bytes Loop Machine Simulation HeaderSink

section
variable (P : Platform) (info : StreamInfo)

/-- A sink on a new file, after some calls. -/
def sinkAfter (calls : List SinkCall) : Except RuntimeError (AiffSink File) := do
  let s ← AiffSink.construct P info (File.opened [])
  pure (after sinkStep s calls)

/-- The numbers in the header are those of a file with `n` bytes of data; the
    frames are counted without a division by zero. -/
structure TrueSizes (file : List UInt8) (n : ℕ) : Prop where
  formSize : field .bigEndian file 4 4 + 8 = file.length
  ssndSize : field .bigEndian file 46 4 = n + 8
  numFrames : field .bigEndian file 22 4 = n / info.bytesPerFrame
  frameSize : frameSize info ≠ 0

/-- The bits of a frame are counted in 64 bits. -/
structure CountsFrames (n : ℕ) : Prop where
  pos : info.bytesPerSample * info.numChannels % 2 ^ 61 ≠ 0
  fits : info.bytesPerSample * info.numChannels % 2 ^ 64 < 2 ^ 61 ∨
    n < info.bytesPerSample * info.numChannels % 2 ^ 61

end

/-- The offset of the header after the one at offset `o`, whatever the chunk. -/
def headerNext (B : List UInt8) (o : ℕ) : Option ℕ :=
  (tagAt B o).map fun tag => target ((o + 8) % 2 ^ 32) tag.length

/-- The walk over the chunks ends at the end of the file, which is where the
    FORM chunk ends; the file is closed without a division by zero. -/
structure Tiled (info : StreamInfo) (B : List UInt8) : Prop where
  walk : ∃ n, walk (headerNext B) 12 n = some B.length
  formSize : 8 + field .bigEndian B 4 4 = B.length
  frameSize : frameSize info ≠ 0

variable {P : Platform} {native : EndianType} {info : StreamInfo} {d : HeaderData P info}
  {D : List UInt8} {p : ℕ}

/-! ## Closing after any calls -/

theorem construct_sinkAt {s : AiffSink File}
    (h : AiffSink.construct P info (File.opened []) = .ok s) :
    ∃ d : HeaderData P info, SinkAt (aiffHeader d 0 0 0) info ⟨4, 22, 46, 58⟩ []
      ((aiffHeader d 0 0 0).length + ([] : List UInt8).length) s := by
  obtain ⟨hch, ⟨d⟩⟩ := accepted_iff.1 ⟨s, h⟩
  have hlen := length_aiffHeader d 0 0 0
  have hopened : AiffSink.construct P info (File.opened []) = .ok ⟨fileView (aiffHeader d 0 0 0)
      (aiffHeader d 0 0 0).length (aiffHeader d 0 0 0).length, info, ⟨4, 22, 46, 58⟩⟩ := by
    rw [hlen]
    exact construct_opened d hch
  rw [hopened] at h
  cases h
  exact ⟨d, by rw [List.append_nil]; rfl, le_rfl, le_maxPos (by rw [hlen]; decide)⟩

theorem sinkAfter_ok {calls : List SinkCall} {s : AiffSink File}
    (h : sinkAfter P info calls = .ok s) :
    ∃ (d : HeaderData P info) (D : List UInt8) (p : ℕ),
      SinkAt (aiffHeader d 0 0 0) info ⟨4, 22, 46, 58⟩ D p s := by
  cases hconstruct : AiffSink.construct P info (File.opened []) with
  | error e => rw [sinkAfter, hconstruct] at h; cases h
  | ok s₀ =>
    obtain ⟨d, hat⟩ := construct_sinkAt hconstruct
    obtain ⟨D, p, hafter⟩ := hat.after calls
    rw [sinkAfter, hconstruct, ok_bind] at h
    cases h
    exact ⟨d, D, p, hafter⟩

/-! ## The frames -/

theorem frameSize_eq (info : StreamInfo) :
    frameSize info = info.bytesPerSample * info.numChannels % 2 ^ 61 := by
  have hbits : info.numChannels * info.bitsPerSample =
      8 * (info.bytesPerSample * info.numChannels) := by
    rw [info.bitsPerSample_eq]; ring
  rw [frameSize, sizeT, hbits]
  generalize info.bytesPerSample * info.numChannels = b
  omega

/-- **When the frames are counted right.** -/
theorem countsFrames_iff {n : ℕ} (hn : n < 2 ^ 32) :
    CountsFrames info n ↔ n / frameSize info = n / info.bytesPerFrame ∧ frameSize info ≠ 0 := by
  have hframe : info.bytesPerFrame = info.bytesPerSample * info.numChannels % 2 ^ 64 := rfl
  rw [frameSize_eq, hframe]
  constructor
  · rintro ⟨hpos, hfits⟩
    refine ⟨?_, hpos⟩
    rcases hfits with hlt | hlt
    · have hsame : info.bytesPerSample * info.numChannels % 2 ^ 61 =
          info.bytesPerSample * info.numChannels % 2 ^ 64 := by omega
      rw [hsame]
    · have hle : n < info.bytesPerSample * info.numChannels % 2 ^ 64 := by omega
      rw [Nat.div_eq_of_lt hlt, Nat.div_eq_of_lt hle]
  · rintro ⟨hdiv, hpos⟩
    refine ⟨hpos, ?_⟩
    by_contra hno
    push Not at hno
    rw [Nat.div_eq_of_lt (by omega : n < info.bytesPerSample * info.numChannels % 2 ^ 64),
      Nat.div_eq_zero_iff] at hdiv
    omega

/-! ## The sizes -/

theorem length_closedAt : (closedAt d D p).length = 58 + D.length := by
  rw [closedAt, List.length_append, length_aiffHeader]

theorem field_aiffHeader {a b c : ℕ} (ha : a < 2 ^ 32) (hb : b < 2 ^ 32) (hc : c < 2 ^ 32) :
    field .bigEndian (aiffHeader d a b c ++ D) 4 4 = a ∧
      field .bigEndian (aiffHeader d a b c ++ D) 22 4 = b ∧
      field .bigEndian (aiffHeader d a b c ++ D) 46 4 = c := by
  have ha' : a % 256 ^ 4 = a := Nat.mod_eq_of_lt ha
  have hb' : b % 256 ^ 4 = b := Nat.mod_eq_of_lt hb
  have hc' : c % 256 ^ 4 = c := Nat.mod_eq_of_lt hc
  have hrate := d.length_rate
  refine ⟨?_, ?_, ?_⟩
  · simp (disch := simp) only [field, aiffHeader, List.append_assoc, slice_head, slice_skip,
      length_big32, Nat.reduceSub]
    rw [big32, EndianType.ofBytes_toBytes, ha']
  · simp (disch := simp) only [field, aiffHeader, List.append_assoc, slice_head, slice_skip,
      length_big32, length_big16, Nat.reduceSub]
    rw [big32, EndianType.ofBytes_toBytes, hb']
  · simp (disch := simp [hrate]) only [field, aiffHeader, List.append_assoc, slice_head,
      slice_skip, length_big32, length_big16, hrate, Nat.reduceSub]
    rw [big32, EndianType.ofBytes_toBytes, hc']

/-- **When the numbers are true.** -/
theorem trueSizes_closedAt :
    TrueSizes info (closedAt d D p) D.length ↔
      50 + D.length < 2 ^ 32 ∧ p % 2 ^ 32 = (58 + D.length) % 2 ^ 32 ∧
        CountsFrames info D.length := by
  have hlt : ∀ x, uint32 x < 2 ^ 32 := fun x => by unfold uint32; omega
  obtain ⟨hform, hframes, hssnd⟩ := field_aiffHeader (d := d) (D := D)
    (hlt (uint32 p - 8)) (hlt (uint32 (uint32 p - (58 : ℕ)) / frameSize info : ℕ))
    (hlt (uint32 p - (58 : ℕ) + 8))
  have hform : field .bigEndian (closedAt d D p) 4 4 = _ := hform
  have hframes : field .bigEndian (closedAt d D p) 22 4 = _ := hframes
  have hssnd : field .bigEndian (closedAt d D p) 46 4 = _ := hssnd
  have hlen : (closedAt d D p).length = _ := length_closedAt
  -- with the cursor at the end, the frames are those of the data
  have hcount : D.length < 2 ^ 32 → p % 2 ^ 32 = (58 + D.length) % 2 ^ 32 →
      uint32 ((uint32 (uint32 p - (58 : ℕ)) / frameSize info : ℕ) : ℤ) =
        D.length / frameSize info := by
    intro hD hp
    have hdata : uint32 (uint32 p - (58 : ℕ)) = D.length := by unfold uint32; omega
    have hle := Nat.div_le_self D.length (frameSize info)
    rw [hdata, uint32_natCast, Nat.mod_eq_of_lt (by omega)]
  constructor
  · rintro ⟨h1, h2, h3, h4⟩
    rw [hform, hlen] at h1
    rw [hssnd] at h2
    have hD : 50 + D.length < 2 ^ 32 ∧ p % 2 ^ 32 = (58 + D.length) % 2 ^ 32 := by
      unfold uint32 at h1 h2
      omega
    rw [hframes, hcount (by omega) hD.2] at h3
    exact ⟨hD.1, hD.2, (countsFrames_iff (by omega)).2 ⟨h3, h4⟩⟩
  · rintro ⟨hD, hp, hcounts⟩
    obtain ⟨h3, h4⟩ := (countsFrames_iff (by omega)).1 hcounts
    refine ⟨?_, ?_, ?_, h4⟩
    · rw [hform, hlen]
      unfold uint32
      omega
    · rw [hssnd]
      unfold uint32
      omega
    · rw [hframes, hcount (by omega) hp, h3]

variable (native) in
/-- Closing the sink, and when it leaves true numbers. -/
theorem close_sinkAt {s : AiffSink File}
    (h : SinkAt (aiffHeader d 0 0 0) info ⟨4, 22, 46, 58⟩ D p s)
    (hmax : 58 + D.length < 2 ^ 63) :
    ∃ s', AiffSink.close native s = .ok s' ∧ s'.view.device.bytes.length = 58 + D.length ∧
      (TrueSizes info s'.view.device.bytes D.length ↔
        50 + D.length < 2 ^ 32 ∧ p % 2 ^ 32 = (58 + D.length) % 2 ^ 32 ∧
          CountsFrames info D.length) := by
  obtain ⟨q, hclose⟩ := closeAiff_aiffHeader d D h.pos_le hmax
  obtain ⟨s', hs', hbytes⟩ := h.close (fun info => closeAiff info) native hclose
  refine ⟨s', hs', ?_, ?_⟩
  · rw [hbytes, length_closedAt]
  · rw [hbytes, trueSizes_closedAt]

variable (native) in
/-- **Below 4 GiB** the numbers are true iff the cursor is at the end and the
    frames are counted right. -/
theorem sinkAfter_trueSizes {calls : List SinkCall} {s : AiffSink File}
    (hs : sinkAfter P info calls = .ok s) (hlt : s.view.device.bytes.length < 2 ^ 32) :
    (∃ s', AiffSink.close native s = .ok s' ∧
      TrueSizes info s'.view.device.bytes (s'.view.device.bytes.length - 58)) ↔
        s.view.device.pos % 2 ^ 32 = s.view.device.bytes.length ∧
          CountsFrames info (s.view.device.bytes.length - 58) := by
  obtain ⟨d, D, p, hat⟩ := sinkAfter_ok hs
  have hlen := hat.length_bytes
  rw [length_aiffHeader] at hlen
  obtain ⟨s', hclose, hlen', htrue⟩ := close_sinkAt native hat (by omega)
  have hdata : s'.view.device.bytes.length - 58 = D.length := by omega
  have hsub : 58 + D.length - 58 = D.length := by omega
  rw [hat.pos_eq, hlen, hsub, ok_and_iff hclose, hdata, htrue, ← and_assoc]
  refine and_congr_left fun _ => ?_
  omega

variable (native) in
/-- **Writes of any length**: if no call reports a failure, the numbers are true
    unless the FORM size does not fit. -/
theorem writes_trueSizes (ws : List (List UInt8)) {s : AiffSink File}
    (hs : AiffSink.construct P info (File.opened []) = .ok s) :
    (Along sinkStep writesAll s (ws.map .write) →
      ∀ s', AiffSink.close native (after sinkStep s (ws.map .write)) = .ok s' →
        TrueSizes info s'.view.device.bytes ws.flatten.length) ↔
      50 + ws.flatten.length < 2 ^ 32 ∧ CountsFrames info ws.flatten.length ∨
        maxPos < (58 + ws.flatten.length : ℕ) := by
  obtain ⟨d, hat⟩ := construct_sinkAt hs
  have hlen := length_aiffHeader d 0 0 0
  rw [← hlen]
  refine hat.writes_close_iff ws fun s hmax hafter => ?_
  rw [hlen] at hmax hafter
  obtain ⟨s', hclose, -, htrue⟩ := close_sinkAt native hafter (by unfold maxPos at hmax; omega)
  exact ⟨s', hclose, htrue.trans (and_congr_right fun _ => and_iff_right rfl)⟩

/-! ## The chunks -/

theorem headerNext_even {B : List UInt8} {o o' : ℕ} (ho : o % 2 = 0)
    (h : headerNext B o = some o') : o' % 2 = 0 := by
  obtain ⟨tag, -, rfl⟩ := Option.map_eq_some_iff.1 h
  unfold target
  split_ifs <;> omega

/-- **When the chunks tile the file.** -/
theorem tiled_aiffFile (h : 58 + D.length < 2 ^ 32) :
    Tiled info (aiffFile d D) ↔ D.length % 2 = 0 ∧ frameSize info ≠ 0 := by
  have hlen : (aiffFile d D).length = _ := length_aiffFile
  constructor
  · rintro ⟨⟨n, hwalk⟩, -, hframe⟩
    have heven : (aiffFile d D).length % 2 = 0 :=
      walk_inv (fun o => o % 2 = 0) (fun _ _ ho hnext => headerNext_even ho hnext) rfl hwalk
    exact ⟨by omega, hframe⟩
  · rintro ⟨heven, hframe⟩
    have hmod : (D.length + 8) % 2 ^ 32 = D.length + 8 := Nat.mod_eq_of_lt (by omega)
    have hcomm : headerNext (aiffFile d D) 12 = some 42 := by
      rw [headerNext, tagAt_comm]; rfl
    have hssnd : headerNext (aiffFile d D) 42 = some (58 + D.length) := by
      have hnext : target ((42 + 8) % 2 ^ 32) (D.length + 8) = 58 + D.length := by
        unfold target
        split_ifs <;> omega
      rw [headerNext, tagAt_ssnd, hmod, Option.map_some, hnext]
    refine ⟨⟨2, ?_⟩, ?_, hframe⟩
    · rw [walk_succ (walk_succ rfl |>.trans hcomm), hssnd, hlen]
    · obtain ⟨hform, -, -⟩ := field_aiffHeader (d := d) (D := D)
        (a := uint32 (uint32 (58 + D.length) - 8)) (c := (D.length + 8) % 2 ^ 32)
        (by unfold uint32; omega)
        (Nat.mod_lt (D.length % 2 ^ 32 / frameSize info) (by decide : 0 < 2 ^ 32))
        (Nat.mod_lt _ (by decide))
      have hform : field .bigEndian (aiffFile d D) 4 4 = _ := hform
      rw [hform, hlen]
      unfold uint32
      omega

end NiMedia.Aiff
