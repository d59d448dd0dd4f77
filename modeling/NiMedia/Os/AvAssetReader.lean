/-
  The source over an AVAssetReader (`audio/os/ios/avassetreader_source.mm`).

  AVFoundation is a parameter: an `Asset` is the decoded track, cut into sample
  buffers from any frame on, and the trim offset that was determined when it
  was opened.

  * `consistent_iff`: when a seek comes to the position asked for, and the
    position is the same afterwards.
-/
import NiMedia.Audio.StreamInfo
import NiMedia.Lib.Machine
import NiMedia.Os.FrameSeek

namespace NiMedia

open Words Machine

namespace AvAssetReader

/-! ## The source -/

/-- A track of `duration` frames.  Its positions are `std::streamoff`s. -/
structure Asset where
  duration : ℕ
  frameSize : ℕ
  trimOffsetFrames : ℕ
  sampleBuffers : ℕ → List (List UInt8)
  frameSize_pos : 0 < frameSize
  trim : trimOffsetFrames = 0 ∨ trimOffsetFrames = 576
  fits : duration * frameSize < 2 ^ 63

/-- `avassetreader_source::Impl`.  `current` are the bytes that remain of the
    current sample buffer, `pending` the buffers that the reader still has. -/
structure Impl where
  framePos : ℤ
  current : Option (List UInt8)
  pending : List (List UInt8)
  sourceExhausted : Bool
  deriving DecidableEq, Repr

section
variable (A : Asset)

/-- The duration without the frames that are trimmed off (`buildOutStreamInfo`). -/
def Asset.numFrames : ℕ :=
  if A.duration < A.trimOffsetFrames then 0 else A.duration - A.trimOffsetFrames

/-- `create_impl`: the reader starts behind the frames that are trimmed off. -/
def createImpl (seekPositionFrames : ℕ) : Impl :=
  let endPos := sizeT (A.numFrames + A.trimOffsetFrames + (2 ^ 64 - 1))
  let startTimeFrames := min (sizeT (seekPositionFrames + A.trimOffsetFrames)) endPos
  { framePos := wrap 64 startTimeFrames
    current := none
    pending := A.sampleBuffers startTimeFrames
    sourceExhausted := false }

/-- `seek`; without an implementation the source is closed. -/
def seek (off : ℤ) (way : SeekDir) : Option Impl → ℤ × Option Impl
  | none => (0, none)
  | some i =>
    if off = 0 ∧ way = .cur then (wrap 64 (i.framePos * A.frameSize), some i)
    else
      let seekToFrames :=
        absolutePosition i.framePos 0 A.numFrames (frameOffset off A.frameSize) way
      (wrap 64 (seekToFrames * A.frameSize), some (createImpl A (seekToFrames % 2 ^ 64).toNat))

/-! ### Reading -/

/-- Whether there is a sample buffer, and the reader after it was asked for one. -/
def Impl.getNextSampleBufferIfNeeded (i : Impl) : Bool × Impl :=
  match i.current, i.pending with
  | some (_ :: _), _ => (true, i)
  | _, buffer :: pending => (true, { i with current := some buffer, pending := pending })
  | _, [] => (false, { i with current := none, sourceExhausted := true })

/-- `SampleBuffer::copy` of at most `requested` bytes. -/
def Impl.copy (requested : ℕ) (i : Impl) : List UInt8 × Impl :=
  match i.current with
  | none => ([], i)
  | some bs => (bs.take requested, { i with current := some (bs.drop requested) })

/-- What is left to be done: bytes are copied, or a buffer is taken. -/
theorem Impl.copy_decreases {i i' : Impl} {size : ℕ} {out : List UInt8}
    (h : i.getNextSampleBufferIfNeeded = (true, i')) (hlt : out.length < size) :
    size - (out ++ (i'.copy (size - out.length)).1).length +
        (i'.copy (size - out.length)).2.pending.length <
      size - out.length + i.pending.length := by
  obtain ⟨pos, current, pending, exhausted⟩ := i
  rcases current with _ | _ | ⟨b, bs⟩
  · cases pending with
    | nil => cases h
    | cons buffer pending =>
      cases h
      simp [Impl.copy]
      omega
  · cases pending with
    | nil => cases h
    | cons buffer pending =>
      cases h
      simp [Impl.copy]
      omega
  · cases h
    simp [Impl.copy]
    omega

/-- The loop of `read`; `out` is what was copied before. -/
def copyLoop (size : ℕ) (out : List UInt8) (i : Impl) : List UInt8 × Impl :=
  match _h : i.getNextSampleBufferIfNeeded with
  | (false, i') => (out, i')
  | (true, i') =>
    if _hlt : out.length < size then
      copyLoop size (out ++ (i'.copy (size - out.length)).1) (i'.copy (size - out.length)).2
    else (out, i')
termination_by size - out.length + i.pending.length
decreasing_by exact Impl.copy_decreases _h _hlt

/-- `read`: the count, and the bytes of the buffer of the caller.  The stream
    goes on behind the end of the track, up to the duration. -/
def read (size : ℕ) : Option Impl → (ℤ × List UInt8) × Option Impl
  | none => ((0, []), none)
  | some i =>
    let (out, i) := copyLoop size [] i
    let dst := out ++ List.replicate (size - out.length) 0
    let numCharsRead : ℤ :=
      if i.sourceExhausted ∧ i.framePos < A.numFrames then
        let remain := wrap 64 (A.numFrames - i.framePos - (out.length / A.frameSize : ℕ))
        let remain := wrap 64 (remain * A.frameSize)
        out.length + min remain (size - out.length)
      else out.length
    ((numCharsRead, dst), some { i with
      framePos := wrap 64 (i.framePos + numCharsRead % 2 ^ 64 / A.frameSize) })

/-! ### Runs -/

inductive Call where
  | open_
  | close
  | seek (off : ℤ) (way : SeekDir)
  | read (size : ℕ)

/-- The position of a `seek`, or the count and the bytes of a `read`. -/
inductive Answer where
  | none
  | pos (p : ℤ)
  | bytes (count : ℤ) (dst : List UInt8)

def step (s : Option Impl) : Call → Answer × Option Impl
  | .open_ => (.none, some (createImpl A 0))
  | .close => (.none, none)
  | .seek off way => (.pos (seek A off way s).1, (seek A off way s).2)
  | .read size => (.bytes (read A size s).1.1 (read A size s).1.2, (read A size s).2)

end

/-! ## Positions -/

section
variable (A : Asset)

/-- `info().num_frames()`. -/
def numFrames : Option Impl → ℕ
  | none => 0
  | some _ => A.numFrames

/-- The frame of the stream that is read next. -/
def position : Option Impl → ℤ
  | none => 0
  | some i => i.framePos - A.trimOffsetFrames

/-- The frame to which a seek by `k` frames is to come. -/
def target (s : Option Impl) (k : ℤ) (way : SeekDir) : ℤ :=
  seekBase (position A s) 0 (numFrames A s) way + k

/-- The position that the source reports. -/
def tell (s : Option Impl) : ℤ := (seek A 0 .cur s).1

/-- The seek returns its target, in bytes, and so does the source afterwards. -/
def Consistent (s : Option Impl) (k : ℤ) (way : SeekDir) : Prop :=
  (seek A (k * A.frameSize) way s).1 = target A s k way * A.frameSize ∧
    tell A (seek A (k * A.frameSize) way s).2 = target A s k way * A.frameSize

variable {A}

theorem Asset.numFrames_add (h : 1 ≤ A.numFrames) :
    A.numFrames + A.trimOffsetFrames = A.duration := by
  unfold Asset.numFrames at h ⊢
  split_ifs at h ⊢ <;> omega

theorem Asset.numFrames_mul_lt : (A.numFrames : ℤ) * A.frameSize < 2 ^ 63 := by
  have hle : A.numFrames ≤ A.duration := by
    unfold Asset.numFrames
    split_ifs <;> omega
  exact_mod_cast (Nat.mul_le_mul_right _ hle).trans_lt A.fits

/-- Positions up to the duration are `std::streamoff`s. -/
theorem Asset.wrap_mul {x : ℤ} (h0 : 0 ≤ x) (h1 : x ≤ A.duration) :
    wrap 64 (x * A.frameSize) = x * A.frameSize := by
  have hlt : (A.duration : ℤ) * A.frameSize < 2 ^ 63 := by exact_mod_cast A.fits
  have hle := mul_le_mul_of_nonneg_right h1 (Int.natCast_nonneg A.frameSize)
  have hpos := mul_nonneg h0 (Int.natCast_nonneg A.frameSize)
  exact wrap_of_range (by omega) (by omega)

theorem Asset.duration_lt : A.duration < 2 ^ 63 :=
  (Nat.le_mul_of_pos_right _ A.frameSize_pos).trans_lt A.fits

/-- A new implementation stands at the frame asked for, behind those that are
    trimmed off; at the last one, if there is no such frame. -/
theorem createImpl_framePos (h : 1 ≤ A.numFrames) {p : ℕ} (hp : p ≤ A.numFrames) :
    (createImpl A p).framePos = (min (p + A.trimOffsetFrames) (A.duration - 1) : ℕ) := by
  have hadd := A.numFrames_add h
  have hlt := A.duration_lt
  have hend : sizeT (A.numFrames + A.trimOffsetFrames + (2 ^ 64 - 1)) = A.duration - 1 := by
    rw [sizeT]
    omega
  have hstart : sizeT (p + A.trimOffsetFrames) = p + A.trimOffsetFrames := sizeT_of_lt (by omega)
  simp only [createImpl, hend, hstart]
  exact wrap_of_range (by omega) (by omega)

/-- The reported position counts the frames that are trimmed off. -/
theorem tell_some (i : Impl) (h0 : 0 ≤ i.framePos) (h1 : i.framePos ≤ A.duration) :
    tell A (some i) = i.framePos * A.frameSize := by
  rw [tell, seek, if_pos ⟨rfl, rfl⟩]
  show wrap 64 (i.framePos * A.frameSize) = _
  exact A.wrap_mul h0 h1

/-- **A fresh source** is at its beginning iff nothing is trimmed off. -/
theorem tell_createImpl_zero (h : 1 ≤ A.numFrames) :
    tell A (some (createImpl A 0)) = 0 ↔ A.trimOffsetFrames = 0 := by
  have hadd := A.numFrames_add h
  have hpos := createImpl_framePos h (Nat.zero_le _)
  have hmin : min (0 + A.trimOffsetFrames) (A.duration - 1) = A.trimOffsetFrames := by omega
  rw [hmin] at hpos
  have hf : (A.frameSize : ℤ) ≠ 0 := by exact_mod_cast A.frameSize_pos.ne'
  rw [tell_some _ (by omega) (by omega), hpos, mul_eq_zero, or_iff_left hf, Int.natCast_eq_zero]

/-- Without a seek. -/
theorem consistent_stay {i : Impl} (h : 1 ≤ A.numFrames) (h0 : 0 ≤ target A (some i) 0 .cur)
    (h1 : target A (some i) 0 .cur < A.numFrames) :
    Consistent A (some i) 0 .cur ↔ A.trimOffsetFrames = 0 := by
  have hadd := A.numFrames_add h
  have hf : (A.frameSize : ℤ) ≠ 0 := by exact_mod_cast A.frameSize_pos.ne'
  have hpos : i.framePos = target A (some i) 0 .cur + A.trimOffsetFrames := by
    simp only [target, position, seekBase]
    omega
  have htell : tell A (some i) = i.framePos * A.frameSize := tell_some i (by omega) (by omega)
  have hseek : seek A (0 * A.frameSize) .cur (some i) = (tell A (some i), some i) := by
    rw [tell, Int.zero_mul, seek, if_pos ⟨rfl, rfl⟩]
  rw [Consistent, hseek, htell, and_self, mul_left_inj' hf]
  omega

/-- With a seek: the frame that it comes to, and the frames that are trimmed off. -/
theorem consistent_seek {i : Impl} {k : ℤ} {way : SeekDir} (h : 1 ≤ A.numFrames)
    (hmove : ¬ (k * A.frameSize = 0 ∧ way = .cur)) (h1 : target A (some i) k way < A.numFrames) :
    Consistent A (some i) k way ↔ A.trimOffsetFrames = 0 ∧
      absolutePosition i.framePos 0 A.numFrames (frameOffset (k * A.frameSize) A.frameSize) way =
        target A (some i) k way := by
  have hadd := A.numFrames_add h
  have hlt := A.duration_lt
  have hf : (A.frameSize : ℤ) ≠ 0 := by exact_mod_cast A.frameSize_pos.ne'
  obtain ⟨p, hp, hle⟩ : ∃ p : ℕ, absolutePosition i.framePos 0 A.numFrames
      (frameOffset (k * A.frameSize) A.frameSize) way = p ∧ p ≤ A.numFrames := by
    have hn : (0 : ℤ) ≤ A.numFrames := Int.natCast_nonneg _
    have h0 : 0 ≤ absolutePosition i.framePos 0 A.numFrames
        (frameOffset (k * A.frameSize) A.frameSize) way := le_absolutePosition hn
    have hle : absolutePosition i.framePos 0 A.numFrames
        (frameOffset (k * A.frameSize) A.frameSize) way ≤ A.numFrames := absolutePosition_le hn
    obtain ⟨p, hp⟩ := Int.eq_ofNat_of_zero_le h0
    exact ⟨p, hp, by omega⟩
  have hnat : ((p : ℤ) % 2 ^ 64).toNat = p := by omega
  have hseek : seek A (k * A.frameSize) way (some i) =
      ((p : ℤ) * A.frameSize, some (createImpl A p)) := by
    simp only [seek, if_neg hmove, hp, hnat]
    rw [A.wrap_mul (Int.natCast_nonneg _) (by omega)]
  have hpos := createImpl_framePos h hle
  have htell : tell A (some (createImpl A p)) = (createImpl A p).framePos * A.frameSize :=
    tell_some _ (by omega) (by omega)
  rw [Consistent, hseek, htell, hp, mul_left_inj' hf, mul_left_inj' hf, hpos]
  omega

variable (A) in
/-- **Consistent positions.**  From any state, a seek by whole frames to a frame
    of the stream is consistent iff nothing is trimmed off and the seek does not
    go backwards (or a frame is one byte, or two and the frame is the first
    one).  A fresh source is at its beginning iff nothing is trimmed off. -/
theorem consistent_iff (hn : 1 ≤ A.numFrames) :
    (tell A (step A none .open_).2 = 0 ↔ A.trimOffsetFrames = 0) ∧
      ∀ (calls : List Call) (k : ℤ) (way : SeekDir),
        -2 ^ 63 ≤ k * A.frameSize → k * A.frameSize < 2 ^ 63 →
        0 ≤ target A (after (step A) none calls) k way →
        target A (after (step A) none calls) k way < numFrames A (after (step A) none calls) →
        (Consistent A (after (step A) none calls) k way ↔
          A.trimOffsetFrames = 0 ∧ (0 ≤ k ∨ A.frameSize = 1 ∨
            A.frameSize = 2 ∧ target A (after (step A) none calls) k way = 0)) := by
  refine ⟨tell_createImpl_zero hn, fun calls k way hk hk' h0 h1 => ?_⟩
  generalize after (step A) none calls = s at h0 h1 ⊢
  cases s with
  | none => exact absurd (h0.trans_lt h1) (lt_irrefl _)
  | some i =>
    have hfz : (A.frameSize : ℤ) ≠ 0 := by exact_mod_cast A.frameSize_pos.ne'
    by_cases hmove : k * A.frameSize = 0 ∧ way = .cur
    · obtain ⟨hk0, rfl⟩ := hmove
      obtain rfl : k = 0 := (mul_eq_zero.1 hk0).resolve_right hfz
      rw [consistent_stay hn h0 h1]
      exact (and_iff_left (.inl le_rfl)).symm
    · rw [consistent_seek hn hmove h1]
      refine and_congr_right fun htrim => ?_
      have hbase : target A (some i) k way = seekBase i.framePos 0 A.numFrames way + k := by
        rw [target, position, htrim, Nat.cast_zero, Int.sub_zero, numFrames]
      rw [hbase] at h0 h1 ⊢
      exact frameSeek_iff A.frameSize_pos A.numFrames_mul_lt hk hk' h0 h1

end

/-- Stereo, of which `trim` frames are trimmed off: a frame is two floats of 32 bit. -/
def stereo (trim : ℕ) (htrim : trim = 0 ∨ trim = 576) : Asset where
  duration := 4 + trim
  frameSize := 2 * 4
  trimOffsetFrames := trim
  sampleBuffers := fun _ => []
  frameSize_pos := by decide
  trim := htrim
  fits := by rcases htrim with rfl | rfl <;> decide

theorem consistent_iff_forward :
    tell (stereo 0 (.inl rfl)) (step (stereo 0 (.inl rfl)) none .open_).2 = 0 ∧
      Consistent (stereo 0 (.inl rfl))
        (after (step (stereo 0 (.inl rfl))) none [.open_, .seek 8 .beg]) 2 .cur := by
  have h := consistent_iff (stereo 0 (.inl rfl)) (by decide)
  exact ⟨h.1.2 rfl, (h.2 [.open_, .seek 8 .beg] 2 .cur (by decide) (by decide) (by decide +kernel)
    (by decide +kernel)).2 ⟨rfl, .inl (by decide)⟩⟩

/-- One frame back, and a fresh source with frames that are trimmed off. -/
theorem stereo_inconsistent :
    ¬ Consistent (stereo 0 (.inl rfl))
        (after (step (stereo 0 (.inl rfl))) none [.open_, .seek 16 .beg]) (-1) .cur ∧
      tell (stereo 576 (.inr rfl)) (step (stereo 576 (.inr rfl)) none .open_).2 ≠ 0 := by
  unfold Consistent
  decide +kernel

end AvAssetReader

end NiMedia
