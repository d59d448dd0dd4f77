/-
  The callbacks through which Core Audio reads a file
  (`audio/os/mac/core_audio_source.h`: `ClientData`, `AudioFileReadProc`,
  `AudioFileGetSizeProc`).

  The client data keeps the position at which the source is believed to be, and
  the source is only positioned if a request is for another one.

  * `PositionedSource`: a source that delivers the bytes at its position, as many
    of those asked for as it likes (`granted`); containers and files are, and
    both with short counts.
  * `coreAudio_reads`: every sequence of requests is answered with the bytes at
    the positions asked for.
-/
import NiMedia.Iostreams.Device
import NiMedia.Lib.Machine

namespace NiMedia

open Bytes Words

/-! ## Sources with a position -/

/-- A source of bytes that stands at a position.  A read for `n` bytes delivers
    `granted n` bytes at most; a position behind the end is not told from the
    end. -/
class PositionedSource (σ : Type) extends Source σ where
  bytes : σ → List UInt8
  position : σ → ℕ
  granted : ℕ → σ → ℕ
  granted_le : ∀ n s, granted n s ≤ n
  granted_pos : ∀ n s, 0 < n → 0 < granted n s
  read_eq : ∀ n s, (read n s).1 = deliver (slice (bytes s) (position s) (granted n s)) ∧
    bytes (read n s).2 = bytes s ∧
    position (read n s).2 = position s + (slice (bytes s) (position s) (granted n s)).length
  seek_beg : ∀ (q : ℕ) s, q ≤ maxPos → bytes (seek q .beg s).2 = bytes s ∧
    (q ≤ (bytes s).length → position (seek q .beg s).2 = q) ∧
    ((bytes s).length < q → (bytes s).length ≤ position (seek q .beg s).2)
  seek_end : ∀ s, (bytes s).length ≤ maxPos → (seek 0 .end_ s).1 = (bytes s).length ∧
    bytes (seek 0 .end_ s).2 = bytes s ∧ position (seek 0 .end_ s).2 = (bytes s).length

theorem Container.seek_end (c : Container) (hc : c.container.length ≤ maxPos) :
    (c.seek 0 .end_).1 = c.container.length ∧ (c.seek 0 .end_).2.container = c.container ∧
      (c.seek 0 .end_).2.pos = c.container.length := by
  unfold maxPos at hc
  have hwrap : wrap 64 (c.container.length : ℤ) = c.container.length :=
    wrap_of_range (by norm_num) (by norm_num; omega)
  have habs : absolutePosition c.pos 0 c.container.length 0 .end_ = c.container.length := by
    simp only [absolutePosition, add_zero, hwrap]
    exact clamp_of_le (Int.natCast_nonneg _) le_rfl
  simp only [Container.seek, habs, Int.toNat_natCast, true_and]

instance : PositionedSource Container where
  bytes := Container.container
  position := Container.pos
  granted n _ := n
  granted_le _ _ := le_rfl
  granted_pos _ _ h := h
  read_eq n c := c.read_eq n
  seek_beg q c hq := by
    obtain ⟨-, h2, h3⟩ := c.seek_beg q hq
    refine ⟨h2, fun h => h3.trans (Nat.min_eq_left h), fun h => ?_⟩
    exact (Nat.min_eq_right h.le).symm.trans_le h3.ge
  seek_end c hc := c.seek_end hc

instance : PositionedSource File where
  bytes := File.bytes
  position := File.pos
  granted n _ := n
  granted_le _ _ := le_rfl
  granted_pos _ _ h := h
  read_eq _ _ := ⟨rfl, rfl, rfl⟩
  seek_beg q f _ := by
    have h : Device.seek (q : ℤ) .beg f = ((q : ℤ), { f with pos := q }) := File.seek_beg q f
    rw [h]
    exact ⟨rfl, fun _ => rfl, fun h => h.le⟩
  seek_end f _ := by
    have h : Device.seek 0 .end_ f =
        ((f.bytes.length : ℤ), { f with pos := f.bytes.length }) := by
      have hneg : ¬ ((f.bytes.length : ℤ) < 0) := by omega
      simp only [Device.seek, File.seek, add_zero, if_neg hneg, Int.toNat_natCast]
    rw [h]
    exact ⟨rfl, rfl, rfl⟩

/-- A source whose reads are cut short: `limit i` bounds the count of the `i`-th
    read from now on. -/
structure Short (σ : Type) where
  source : σ
  limit : ℕ → ℕ

namespace Short
variable {σ : Type}

/-- What is left of a count: at least one, if there was one. -/
def cut (n : ℕ) (s : Short σ) : ℕ := if n = 0 then 0 else max 1 (min n (s.limit 0))

theorem cut_le (n : ℕ) (s : Short σ) : s.cut n ≤ n := by
  unfold cut; split_ifs <;> omega

theorem cut_pos {n : ℕ} (h : 0 < n) (s : Short σ) : 0 < s.cut n := by
  unfold cut; split_ifs <;> omega

instance [PositionedSource σ] : PositionedSource (Short σ) where
  seek off way s := ((Device.seek off way s.source).1, { s with
    source := (Device.seek off way s.source).2 })
  read n s := ((Source.read (s.cut n) s.source).1,
    ⟨(Source.read (s.cut n) s.source).2, fun i => s.limit (i + 1)⟩)
  bytes s := PositionedSource.bytes s.source
  position s := PositionedSource.position s.source
  granted n s := PositionedSource.granted (s.cut n) s.source
  granted_le n s := (PositionedSource.granted_le _ _).trans (s.cut_le n)
  granted_pos _ s h := PositionedSource.granted_pos _ _ (s.cut_pos h)
  read_eq n s := PositionedSource.read_eq (s.cut n) s.source
  seek_beg q s hq := PositionedSource.seek_beg q s.source hq
  seek_end s hs := PositionedSource.seek_end s.source hs

end Short

/-! ## The callbacks -/

/-- `core_audio_source::ClientData`. -/
structure ClientData (σ : Type) where
  source : σ
  position : ℤ
  size : ℤ

/-- What Core Audio asks for: a position (`SInt64`, not negative) and a count
    (`UInt32`). -/
structure ReadRequest where
  inPosition : ℕ
  requestCount : ℕ
  inPosition_le : inPosition ≤ maxPos
  requestCount_lt : requestCount < 2 ^ 32

section
variable {σ : Type} [PositionedSource σ]

/-- The constructor of `ClientData`. -/
def ClientData.mk' (source : σ) : ClientData σ :=
  let (pos, source) := Device.seek 0 .end_ source
  let size := if 0 < pos then pos else 0
  ⟨source, size, size⟩

/-- The source is positioned, unless it is believed to be there. -/
def ClientData.reposition (inPosition : ℤ) (d : ClientData σ) : ClientData σ :=
  if d.position ≠ inPosition then
    { d with
      source := (Device.seek inPosition .beg d.source).2
      position := inPosition }
  else d

/-- `AudioFileReadProc`: the bytes in the buffer, as many as `actualCount`. -/
def audioFileReadProc (d : ClientData σ) (r : ReadRequest) : List UInt8 × ClientData σ :=
  let d := d.reposition r.inPosition
  let (numRead, source) := Source.read r.requestCount d.source
  let buffer := numRead.getD []
  let actualCount := buffer.length % 2 ^ 32
  (buffer.take actualCount,
    { d with
      source := source
      position := wrap 64 (d.position + actualCount) })

/-- `AudioFileGetSizeProc`. -/
def audioFileGetSizeProc (d : ClientData σ) : ℤ := d.size

end

/-! ## The position that is believed -/

theorem getD_deliver (bs : List UInt8) : (deliver bs).getD [] = bs := by
  unfold deliver
  split_ifs with h
  · exact h.symm
  · rfl

/-- The position is the one of the source, up to the end of the contents; behind
    it the source delivers nothing. -/
structure Consistent {σ : Type} [PositionedSource σ] (B : Content) (d : ClientData σ) : Prop where
  bytes : PositionedSource.bytes d.source = B.bytes
  size : d.size = B.bytes.length
  nonneg : 0 ≤ d.position
  agree : d.position ≤ B.bytes.length → (PositionedSource.position d.source : ℤ) = d.position
  beyond : (B.bytes.length : ℤ) < d.position →
    B.bytes.length ≤ PositionedSource.position d.source

section
variable {σ : Type} [PositionedSource σ] {B : Content} {d : ClientData σ}

theorem consistent_mk' {source : σ} (hB : PositionedSource.bytes source = B.bytes) :
    Consistent B (ClientData.mk' source) := by
  obtain ⟨h1, h2, h3⟩ := PositionedSource.seek_end source (by rw [hB]; exact B.length_le)
  rw [hB] at h1 h2 h3
  have hsize : (if 0 < (Device.seek 0 .end_ source).1 then (Device.seek 0 .end_ source).1 else 0) =
      (B.bytes.length : ℤ) := by
    rw [h1]; split_ifs <;> omega
  have hmk : ClientData.mk' source =
      ⟨(Device.seek 0 .end_ source).2, B.bytes.length, B.bytes.length⟩ := by
    simp only [ClientData.mk', hsize]
  rw [hmk]
  exact ⟨h2, rfl, Int.natCast_nonneg _, fun _ => congrArg _ h3, fun h => absurd h (lt_irrefl _)⟩

theorem Consistent.reposition (h : Consistent B d) {q : ℕ} (hq : q ≤ maxPos) :
    Consistent B (d.reposition q) ∧ (d.reposition q).position = q := by
  unfold ClientData.reposition
  split_ifs with hne
  · obtain ⟨h1, h2, h3⟩ := PositionedSource.seek_beg q d.source hq
    rw [h.bytes] at h1 h2 h3
    refine ⟨⟨h1, h.size, Int.natCast_nonneg q, fun hle => ?_, fun hlt => ?_⟩, rfl⟩
    · exact congrArg _ (h2 (Int.ofNat_le.1 hle))
    · exact h3 (Int.ofNat_lt.1 hlt)
  · exact ⟨h, not_not.1 hne⟩

/-- The bytes that a read delivers are those at the position asked for. -/
theorem Consistent.slice_eq (h : Consistent B d) {q : ℕ} (hq : d.position = q) (n : ℕ) :
    slice B.bytes (PositionedSource.position d.source) n = slice B.bytes q n := by
  rcases Nat.lt_or_ge B.bytes.length q with hlt | hle
  · rw [slice_of_length_le hlt.le, slice_of_length_le (h.beyond (by rw [hq]; exact_mod_cast hlt))]
  · have hagree := h.agree (by rw [hq]; exact_mod_cast hle)
    rw [hq] at hagree
    rw [Nat.cast_inj.1 hagree]

/-- **One request** is answered with the bytes at its position, and the position
    that is believed stays consistent. -/
theorem readProc_spec (h : Consistent B d) (r : ReadRequest) :
    (audioFileReadProc d r).1 = slice B.bytes r.inPosition
        (PositionedSource.granted r.requestCount (d.reposition r.inPosition).source) ∧
      Consistent B (audioFileReadProc d r).2 := by
  obtain ⟨hd, hpos⟩ := h.reposition r.inPosition_le
  obtain ⟨h1, h2, h3⟩ :=
    PositionedSource.read_eq r.requestCount (d.reposition r.inPosition).source
  have hgranted := PositionedSource.granted_le r.requestCount (d.reposition r.inPosition).source
  generalize PositionedSource.granted r.requestCount (d.reposition r.inPosition).source = n at *
  rw [hd.bytes, hd.slice_eq hpos] at h1 h3
  have hlen := length_slice_min B.bytes r.inPosition n
  have hcount : (slice B.bytes r.inPosition n).length % 2 ^ 32 =
      (slice B.bytes r.inPosition n).length :=
    Nat.mod_eq_of_lt (by have := r.requestCount_lt; omega)
  have hstep : audioFileReadProc d r = (slice B.bytes r.inPosition n,
      ⟨(Source.read r.requestCount (d.reposition r.inPosition).source).2,
        wrap 64 (r.inPosition + (slice B.bytes r.inPosition n).length),
        (d.reposition r.inPosition).size⟩) := by
    simp only [audioFileReadProc, h1, getD_deliver, hcount, List.take_length, hpos]
  -- the position does not overflow: it is inside, or nothing is read
  have hwrap : wrap 64 (r.inPosition + (slice B.bytes r.inPosition n).length) =
      ((r.inPosition + (slice B.bytes r.inPosition n).length : ℕ) : ℤ) := by
    have hq := r.inPosition_le
    have hfits := B.fits
    unfold maxPos at hq
    rw [wrap_of_range (by norm_num; omega) (by norm_num; omega)]
    push_cast
    rfl
  rw [hstep, hwrap]
  refine ⟨rfl, h2.trans hd.bytes, hd.size, Int.natCast_nonneg _, fun hle => ?_, fun hlt => ?_⟩
  · have hle' := Int.ofNat_le.1 hle
    have hagree := hd.agree (by rw [hpos]; omega)
    rw [hpos] at hagree
    exact congrArg _ (h3.trans (by rw [Nat.cast_inj.1 hagree]))
  · have hlt' := Int.ofNat_lt.1 hlt
    have hbeyond := hd.beyond (by rw [hpos]; omega)
    exact hbeyond.trans (h3.ge.trans' (Nat.le_add_right _ _))

end

/-! ## Sequences of requests -/

/-- What a request may be answered with: bytes from its position on, and none
    only if there are none (or none are asked for). -/
def Answers (B : Content) (r : ReadRequest) (bs : List UInt8) : Prop :=
  bs <+: slice B.bytes r.inPosition r.requestCount ∧
    (bs = [] → slice B.bytes r.inPosition r.requestCount = [])

section
variable {B : Content}

theorem answers_granted {r : ReadRequest} {n : ℕ} (hle : n ≤ r.requestCount)
    (hpos : 0 < r.requestCount → 0 < n) : Answers B r (slice B.bytes r.inPosition n) := by
  constructor
  · rw [slice, slice, ← min_eq_left hle, ← List.take_take]
    exact List.take_prefix _ _
  · intro h
    have hlen := congrArg List.length h
    rw [length_slice_min, List.length_nil] at hlen
    rw [← List.length_eq_zero_iff, length_slice_min]
    omega

end

/-- **Reading through the callback.**  Every sequence of requests is answered with
    the bytes at the positions asked for, and with all of them by a source that
    has no short counts; the position that is believed is the one of the source
    whenever it is inside the contents; and the size that is told is theirs. -/
theorem coreAudio_reads {σ : Type} [PositionedSource σ] (B : Content) (source : σ)
    (hB : PositionedSource.bytes source = B.bytes) (requests : List ReadRequest) :
    Machine.Along audioFileReadProc (fun d r => Answers B r (audioFileReadProc d r).1)
        (ClientData.mk' source) requests ∧
      ((∀ n (s : σ), PositionedSource.granted n s = n) →
        Machine.run audioFileReadProc (ClientData.mk' source) requests =
          requests.map fun r => slice B.bytes r.inPosition r.requestCount) ∧
      ((Machine.after audioFileReadProc (ClientData.mk' source) requests).position ≤
          B.bytes.length →
        (PositionedSource.position
          (Machine.after audioFileReadProc (ClientData.mk' source) requests).source : ℤ) =
          (Machine.after audioFileReadProc (ClientData.mk' source) requests).position) ∧
      audioFileGetSizeProc (Machine.after audioFileReadProc (ClientData.mk' source) requests) =
        B.bytes.length := by
  have hinit := consistent_mk' hB
  have hafter := Machine.after_of_inv (Consistent B) (fun d r hd => (readProc_spec hd r).2) hinit
    requests
  refine ⟨?_, fun hexact => ?_, hafter.agree, hafter.size⟩
  · refine Machine.along_of_inv (P := fun _ _ => True) (Consistent B)
      (fun d r hd _ => (readProc_spec hd r).2) (fun d r hd _ => ?_) hinit
      (Machine.along_of_forall (fun _ _ => trivial) _)
    rw [(readProc_spec hd r).1]
    exact answers_granted (PositionedSource.granted_le _ _) (PositionedSource.granted_pos _ _)
  · refine Machine.run_eq_map (Consistent B) (fun d r hd => ?_) hinit requests
    obtain ⟨hanswer, hnext⟩ := readProc_spec hd r
    rw [hexact] at hanswer
    exact ⟨hanswer, hnext⟩

/-- A container of three bytes: a request behind the end, and two inside. -/
theorem coreAudio_reads_three :
    Machine.run audioFileReadProc (ClientData.mk' (Container.mk' [1, 2, 3]))
        [⟨5, 2, by decide, by decide⟩, ⟨1, 9, by decide, by decide⟩,
          ⟨0, 2, by decide, by decide⟩] = [[], [2, 3], [1, 2]] :=
  (coreAudio_reads ⟨[1, 2, 3], by decide⟩ (Container.mk' [1, 2, 3]) rfl _).2.1 fun _ _ => rfl

end NiMedia
