/-
  What the source over an AVAssetReader plays
  (`audio/os/ios/avassetreader_source.mm`).

  A reader starts at a frame and hands out the sample buffers behind it; when
  there are none left, the source goes on with silence, up to its declared
  length.

  * `assetReads_iff`: reads of at most `c` frames play all that the reader hands out,
    and silence up to the declared end, iff the track does not go beyond that
    end, or goes beyond it by as much as a read.
  * `trimOffset_iff`: when the leader of an MP3 file is found, when it is found
    to be missing, and when the comparison goes on for ever.
-/
import NiMedia.Lib.Loop
import NiMedia.Os.AvAssetReader

namespace NiMedia

open Words Machine Loop

namespace AvAssetReader

/-! ## A read -/

/-- The bytes that the reader still has. -/
def Impl.left (i : Impl) : List UInt8 := i.current.getD [] ++ i.pending.flatten

/-- The reader is exhausted at its end only. -/
def Impl.Sound (i : Impl) : Prop := i.sourceExhausted = true → i.left = []

section
variable {i i' : Impl}

/-- The current buffer is not used up, or the next one is taken. -/
theorem Impl.next_cases (h : i.getNextSampleBufferIfNeeded = (true, i')) :
    (i' = i ∧ i.left ≠ []) ∨ ∃ buffer pending, i.pending = buffer :: pending ∧
      i.left = buffer ++ pending.flatten ∧
      i' = { i with current := some buffer, pending := pending } := by
  obtain ⟨pos, current, pending, exhausted⟩ := i
  rcases current with _ | _ | ⟨b, bs⟩
  · cases pending with
    | nil => cases h
    | cons buffer pending =>
      cases h
      exact .inr ⟨buffer, pending, rfl, rfl, rfl⟩
  · cases pending with
    | nil => cases h
    | cons buffer pending =>
      cases h
      exact .inr ⟨buffer, pending, rfl, rfl, rfl⟩
  · cases h
    exact .inl ⟨rfl, List.cons_ne_nil _ _⟩

theorem Impl.next_true (h : i.getNextSampleBufferIfNeeded = (true, i')) :
    i'.left = i.left ∧ i'.framePos = i.framePos ∧ i'.sourceExhausted = i.sourceExhausted := by
  rcases Impl.next_cases h with ⟨rfl, -⟩ | ⟨buffer, pending, -, hleft, rfl⟩
  · exact ⟨rfl, rfl, rfl⟩
  · exact ⟨hleft.symm, rfl, rfl⟩

theorem Impl.next_false (h : i.getNextSampleBufferIfNeeded = (false, i')) :
    i.left = [] ∧ i' = { i with current := none, pending := [], sourceExhausted := true } := by
  obtain ⟨pos, current, pending, exhausted⟩ := i
  rcases current with _ | _ | ⟨b, bs⟩
  · cases pending with
    | nil =>
      cases h
      exact ⟨rfl, rfl⟩
    | cons buffer pending => cases h
  · cases pending with
    | nil =>
      cases h
      exact ⟨rfl, rfl⟩
    | cons buffer pending => cases h
  · cases h

theorem Impl.copy_spec (n : ℕ) (i : Impl) :
    (i.copy n).1 ++ (i.copy n).2.left = i.left ∧ (i.copy n).1.length ≤ n ∧
      (i.copy n).2.framePos = i.framePos ∧
      (i.copy n).2.sourceExhausted = i.sourceExhausted := by
  obtain ⟨pos, current, pending, exhausted⟩ := i
  cases current with
  | none => exact ⟨rfl, Nat.zero_le n, rfl, rfl⟩
  | some bs =>
    refine ⟨?_, ?_, rfl, rfl⟩
    · simp only [Impl.copy, Impl.left, Option.getD_some]
      rw [← List.append_assoc, List.take_append_drop]
    · simp only [Impl.copy, List.length_take]
      exact Nat.min_le_left _ _

/-- **The loop**: it copies what the reader has, as far as there is room, and
    the reader is exhausted if room is left. -/
theorem copyLoop_spec (size : ℕ) (out : List UInt8) (i : Impl) (hout : out.length ≤ size)
    (hi : i.Sound) :
    (copyLoop size out i).1 = out ++ i.left.take (size - out.length) ∧
      (copyLoop size out i).2.left = i.left.drop (size - out.length) ∧
      (copyLoop size out i).2.framePos = i.framePos ∧ (copyLoop size out i).2.Sound ∧
      ((copyLoop size out i).1.length < size → (copyLoop size out i).2.sourceExhausted = true) := by
  fun_induction copyLoop size out i with
  | case1 out i i' hnext =>
    obtain ⟨hleft, rfl⟩ := Impl.next_false hnext
    rw [hleft, List.take_nil, List.append_nil, List.drop_nil]
    exact ⟨rfl, rfl, rfl, fun _ => rfl, fun _ => rfl⟩
  | case2 out i i' hnext hlt ih =>
    obtain ⟨hleft, hpos, hexh⟩ := Impl.next_true hnext
    obtain ⟨hcopy, hlen, hpos', hexh'⟩ := Impl.copy_spec (size - out.length) i'
    generalize (i'.copy (size - out.length)).1 = bs at *
    generalize (i'.copy (size - out.length)).2 = i'' at *
    have hsound : i''.Sound := by
      intro he
      rw [hexh', hexh] at he
      have hnil : bs ++ i''.left = [] := by rw [hcopy, hleft, hi he]
      exact (List.append_eq_nil_iff.1 hnil).2
    obtain ⟨h1, h2, h3, h4, h5⟩ := ih (by rw [List.length_append]; omega) hsound
    have hroom : size - (out ++ bs).length = size - out.length - bs.length := by
      rw [List.length_append]
      omega
    refine ⟨?_, ?_, h3.trans (hpos'.trans hpos), h4, h5⟩
    · rw [h1, hroom, ← hleft, ← hcopy, List.take_append, List.take_of_length_le hlen,
        List.append_assoc]
    · rw [h2, hroom, ← hleft, ← hcopy, List.drop_append, List.drop_of_length_le hlen,
        List.nil_append]
  | case3 out i i' hnext hlt =>
    obtain ⟨hleft, hpos, hexh⟩ := Impl.next_true hnext
    have hfull : size - out.length = 0 := by omega
    rw [hfull, List.take_zero, List.append_nil, List.drop_zero]
    refine ⟨rfl, hleft, hpos, fun he => ?_, fun hlt' => absurd hlt' hlt⟩
    rw [hleft]
    exact hi (hexh ▸ he)

/-- No sample buffer is empty. -/
def Impl.Full (i : Impl) : Prop := ∀ b ∈ i.pending, b ≠ []

theorem Impl.Full.next (hi : i.Full) (h : i.getNextSampleBufferIfNeeded = (true, i')) :
    i'.Full ∧ i'.left ≠ [] := by
  rcases Impl.next_cases h with ⟨rfl, hne⟩ | ⟨buffer, pending, hpending, -, rfl⟩
  · exact ⟨hi, hne⟩
  · rw [Impl.Full, hpending] at hi
    refine ⟨fun b hb => hi b (List.mem_cons_of_mem _ hb), fun hnil => ?_⟩
    exact hi buffer List.mem_cons_self (List.append_eq_nil_iff.1 hnil).1

theorem Impl.Full.copy (hi : i.Full) (n : ℕ) : (i.copy n).2.Full := by
  unfold Impl.copy
  cases i.current with
  | none => exact hi
  | some bs => exact hi

/-- Without empty buffers, the reader is also exhausted if it has just given its
    last byte. -/
theorem copyLoop_full (size : ℕ) (out : List UInt8) (i : Impl) (hi : i.Full) :
    (copyLoop size out i).2.Full ∧
      ((copyLoop size out i).2.left = [] → (copyLoop size out i).2.sourceExhausted = true) := by
  fun_induction copyLoop size out i with
  | case1 out i i' hnext =>
    obtain ⟨-, rfl⟩ := Impl.next_false hnext
    exact ⟨fun b hb => absurd hb List.not_mem_nil, fun _ => rfl⟩
  | case2 out i i' hnext hlt ih => exact ih ((hi.next hnext).1.copy _)
  | case3 out i i' hnext hlt => exact ⟨(hi.next hnext).1, fun h => absurd h (hi.next hnext).2⟩

end

/-! ## Frames -/

/-- The source is at frame `p`, and its reader still has `left`. -/
structure Plays (p : ℕ) (left : List UInt8) (i : Impl) : Prop where
  framePos : i.framePos = p
  left : i.left = left
  sound : i.Sound

section
variable {A : Asset} {p : ℕ} {left : List UInt8} {i : Impl}

/-- What the buffer of the caller holds, and what the reader has left. -/
theorem read_data (A : Asset) (size : ℕ) (hi : i.Sound) :
    ∃ i', (read A size (some i)).2 = some i' ∧
      (read A size (some i)).1.2 = i.left.take size ++ List.replicate (size - i.left.length) 0 ∧
      i'.left = i.left.drop size ∧ i'.Sound := by
  obtain ⟨hout, hleft, -, hsound, -⟩ := copyLoop_spec size [] i (Nat.zero_le size) hi
  rw [List.nil_append, List.length_nil, Nat.sub_zero] at hout
  rw [List.length_nil, Nat.sub_zero] at hleft
  refine ⟨_, rfl, ?_, hleft, hsound⟩
  have hroom : size - (i.left.take size).length = size - i.left.length := by
    rw [List.length_take]
    omega
  simp only [read, hout, hroom]

/-- The frames of a read of `m` frames, of which the reader has `l`: the reader is
    exhausted, or not. -/
def framesRead (numFrames p l m : ℕ) (exhausted : Bool) : ℕ :=
  if exhausted ∧ p < numFrames then min (numFrames - p) m else min l m

theorem framesRead_le (numFrames p l m : ℕ) (e : Bool) :
    framesRead numFrames p l m e ≤ m ∧ framesRead numFrames p l m e ≤ max l (numFrames - p) := by
  unfold framesRead
  split_ifs
  · exact ⟨Nat.min_le_right _ _, (Nat.min_le_left _ _).trans (Nat.le_max_right _ _)⟩
  · exact ⟨Nat.min_le_right _ _, (Nat.min_le_left _ _).trans (Nat.le_max_left _ _)⟩

/-- Nothing is taken off if the track does not go beyond the declared end, or
    beyond it by `c` frames at least, of which a read asks for fewer. -/
theorem framesRead_eq {numFrames p l m c : ℕ} {e : Bool} (he : e = true → l ≤ m)
    (he' : l < m → e = true) (hm : m ≤ c)
    (h : p + l ≤ numFrames ∨ numFrames + c ≤ p + l ∨ numFrames ≤ p) :
    framesRead numFrames p l m e = min (max l (numFrames - p)) m := by
  unfold framesRead
  split_ifs with hcut
  · have hle := he hcut.1
    omega
  · rw [not_and_or] at hcut
    rcases hcut with hcut | hcut
    · have hle : ¬ l < m := fun hlt => hcut (he' hlt)
      omega
    · omega

/-- The count of a read: silence makes up for what the reader lacks before the
    declared end, and what it has behind this end is taken off again. -/
theorem numCharsRead_eq {l m : ℕ} (hl : l * A.frameSize < 2 ^ 63) {e : Bool}
    (he : e = true → l ≤ m) :
    (if e = true ∧ (p : ℤ) < A.numFrames then
      ((min l m * A.frameSize : ℕ) : ℤ) + min
        (wrap 64 (wrap 64 (A.numFrames - p - (min l m * A.frameSize / A.frameSize : ℕ)) *
          A.frameSize)) ((m * A.frameSize : ℕ) - (min l m * A.frameSize : ℕ))
      else (min l m * A.frameSize : ℕ)) =
    ((framesRead A.numFrames p l m e * A.frameSize : ℕ) : ℤ) := by
  have hF := A.frameSize_pos
  have hN := A.numFrames_mul_lt
  rw [Nat.mul_div_cancel _ hF]
  unfold framesRead
  by_cases hcut : e = true ∧ p < A.numFrames
  · -- `d` frames are missing before the declared end, and as many as `l` are there
    obtain ⟨d, hd⟩ := Nat.exists_eq_add_of_le hcut.2.le
    have hd' : (A.numFrames : ℤ) - p = d := by omega
    have hdF : d * A.frameSize ≤ A.numFrames * A.frameSize :=
      Nat.mul_le_mul_right _ (by omega)
    have hlF : l ≤ l * A.frameSize := Nat.le_mul_of_pos_right l hF
    have hd'F : d ≤ d * A.frameSize := Nat.le_mul_of_pos_right d hF
    have hrange : wrap 64 ((d : ℤ) - l) = d - l :=
      wrap_of_range (by norm_num; omega) (by norm_num; omega)
    have hremain : wrap 64 (((d : ℤ) - l) * A.frameSize) =
        ((d * A.frameSize : ℕ) : ℤ) - (l * A.frameSize : ℕ) := by
      rw [sub_mul, ← Nat.cast_mul, ← Nat.cast_mul]
      exact wrap_of_range (by norm_num; omega) (by norm_num; omega)
    rw [if_pos hcut, if_pos (by exact_mod_cast hcut), min_eq_left (he hcut.1), hd', hrange, hremain,
      Nat.sub_eq_of_eq_add' hd, ← Nat.mul_min_mul_right]
    omega
  · rw [if_neg hcut, if_neg (by exact_mod_cast hcut)]

theorem Asset.numFrames_lt : A.numFrames < 2 ^ 63 := by
  have hN := A.numFrames_mul_lt
  have hle : A.numFrames ≤ A.numFrames * A.frameSize := Nat.le_mul_of_pos_right _ A.frameSize_pos
  omega

/-- The position behind a read of `n` frames. -/
theorem advance_eq {F n : ℕ} (hF : 0 < F) (hn : n * F < 2 ^ 63) (hp : p + n < 2 ^ 63) :
    wrap 64 ((p : ℤ) + ((n * F : ℕ) : ℤ) % 2 ^ 64 / F) = ((p + n : ℕ) : ℤ) := by
  have hmod : ((n * F : ℕ) : ℤ) % 2 ^ 64 = (n * F : ℕ) :=
    Int.emod_eq_of_lt (Int.natCast_nonneg _) (by omega)
  rw [hmod, ← Int.natCast_ediv, Nat.mul_div_cancel _ hF, ← Nat.cast_add]
  exact wrap_of_range (by norm_num; omega) (by norm_num; omega)

/-- **A read** of whole frames. -/
theorem Plays.read (h : Plays p left i) {l m : ℕ} (hl : left.length = l * A.frameSize)
    (hleft : left.length < 2 ^ 63) (hm : m * A.frameSize < 2 ^ 63) (hp : p + l < 2 ^ 63) :
    ∃ (e : Bool) (i' : Impl), (e = true → l ≤ m) ∧ (l < m → e = true) ∧
      (i.Full → i'.Full ∧ (l ≤ m → e = true)) ∧
      read A (m * A.frameSize) (some i) =
        ((((framesRead A.numFrames p l m e * A.frameSize : ℕ) : ℤ),
          left.take (m * A.frameSize) ++
            List.replicate (m * A.frameSize - left.length) 0), some i') ∧
      Plays (p + framesRead A.numFrames p l m e) (left.drop (m * A.frameSize)) i' := by
  obtain ⟨hout, hleft', hpos, hsound, hexh⟩ :=
    copyLoop_spec (m * A.frameSize) [] i (Nat.zero_le _) h.sound
  have hend := copyLoop_full (m * A.frameSize) [] i
  rw [List.nil_append, List.length_nil, Nat.sub_zero, h.left] at hout
  rw [List.length_nil, Nat.sub_zero, h.left] at hleft'
  have hF := A.frameSize_pos
  have hlen : (copyLoop (m * A.frameSize) [] i).1.length = min l m * A.frameSize := by
    rw [hout, List.length_take, hl, ← Nat.mul_min_mul_right, Nat.min_comm]
  have hroom : m * A.frameSize - min l m * A.frameSize = m * A.frameSize - left.length := by
    rw [hl, ← Nat.mul_min_mul_right]
    omega
  have he : (copyLoop (m * A.frameSize) [] i).2.sourceExhausted = true → l ≤ m := by
    intro he
    have hnil := hleft' ▸ hsound he
    rw [List.drop_eq_nil_iff, hl] at hnil
    exact Nat.le_of_mul_le_mul_right hnil hF
  have hcount := numCharsRead_eq (A := A) (p := p) (by rwa [← hl]) he
  generalize hloop : copyLoop (m * A.frameSize) [] i = r at *
  obtain ⟨out, i₁⟩ := r
  refine ⟨i₁.sourceExhausted, { i₁ with framePos := (p + framesRead A.numFrames p l m _ : ℕ) }, he,
    fun hlt => ?_, fun hfull => ?_, ?_, ⟨rfl, hleft', hsound⟩⟩
  · refine hexh ?_
    rw [hlen, Nat.min_eq_left hlt.le]
    exact Nat.mul_lt_mul_of_pos_right hlt hF
  · refine ⟨(hend hfull).1, fun hle => (hend hfull).2 ?_⟩
    rw [hleft', List.drop_eq_nil_iff, hl]
    exact Nat.mul_le_mul_right _ hle
  · simp only at hlen hpos hcount hout
    obtain ⟨hle, hle'⟩ := framesRead_le A.numFrames p l m i₁.sourceExhausted
    have hN := A.numFrames_lt
    have hframes := advance_eq (p := p) hF (lt_of_le_of_lt (Nat.mul_le_mul_right _ hle) hm)
      (by omega)
    simp only [AvAssetReader.read, hloop, hpos, h.framePos, hlen]
    rw [hcount, hroom, hout, hframes]

end

/-! ## Reads in a row -/

/-- What is to be heard from frame `p` on: what the reader has left, and silence
    up to the declared end. -/
def Asset.heard (A : Asset) (p : ℕ) (left : List UInt8) : List UInt8 :=
  left ++ List.replicate ((A.numFrames - p) * A.frameSize - left.length) 0

/-- A read out of bytes. -/
def hear (heard : List UInt8) (size : ℕ) : (ℤ × List UInt8) × List UInt8 :=
  (((heard.take size).length, heard.take size ++ List.replicate (size - heard.length) 0),
    heard.drop size)

section
variable {A : Asset} {p : ℕ} {left : List UInt8} {i : Impl} {l m : ℕ}

theorem Asset.length_heard (hl : left.length = l * A.frameSize) :
    (A.heard p left).length = max l (A.numFrames - p) * A.frameSize := by
  rw [Asset.heard, List.length_append, List.length_replicate, hl, ← Nat.mul_max_mul_right]
  omega

theorem Asset.length_take_heard (hl : left.length = l * A.frameSize) :
    ((A.heard p left).take (m * A.frameSize)).length =
      min (max l (A.numFrames - p)) m * A.frameSize := by
  rw [List.length_take, A.length_heard hl, ← Nat.mul_min_mul_right, Nat.min_comm]

/-- The buffer of the caller, whose rest is silence in any case. -/
theorem Asset.heard_take (A : Asset) (p : ℕ) (left : List UInt8) (size : ℕ) :
    (A.heard p left).take size ++ List.replicate (size - (A.heard p left).length) 0 =
      left.take size ++ List.replicate (size - left.length) 0 := by
  rw [Asset.heard, List.take_append, List.append_assoc, List.take_replicate,
    List.replicate_append_replicate, List.length_append, List.length_replicate]
  congr 2
  omega

/-- What is heard behind `m` frames. -/
theorem Asset.heard_drop (hl : left.length = l * A.frameSize) {n : ℕ}
    (hn : n = min (max l (A.numFrames - p)) m) :
    A.heard (p + n) (left.drop (m * A.frameSize)) = (A.heard p left).drop (m * A.frameSize) := by
  have hnF : n * A.frameSize =
      min (max (l * A.frameSize) ((A.numFrames - p) * A.frameSize)) (m * A.frameSize) := by
    rw [hn, ← Nat.mul_min_mul_right, ← Nat.mul_max_mul_right]
  rw [Asset.heard, Asset.heard, List.drop_append, List.drop_replicate, List.length_drop, hl,
    ← Nat.sub_sub, Nat.sub_mul (A.numFrames - p), hnF]
  congr 2
  omega

/-- A read in which nothing is taken off. -/
theorem Plays.hear (h : Plays p left i) (hl : left.length = l * A.frameSize)
    (hleft : left.length < 2 ^ 63) (hm : m * A.frameSize < 2 ^ 63) (hp : p + l < 2 ^ 63)
    (hn : ∀ e : Bool, (e = true → l ≤ m) → (l < m → e = true) →
      framesRead A.numFrames p l m e = min (max l (A.numFrames - p)) m) :
    ∃ i', Plays (p + min (max l (A.numFrames - p)) m) (left.drop (m * A.frameSize)) i' ∧
      (i.Full → i'.Full) ∧
      AvAssetReader.read A (m * A.frameSize) (some i) =
        ((AvAssetReader.hear (A.heard p left) (m * A.frameSize)).1, some i') := by
  obtain ⟨e, i', he, he', hfull, hread, hplays⟩ := h.read hl hleft hm hp
  rw [hn e he he'] at hread hplays
  refine ⟨i', hplays, fun h => (hfull h).1, hread.trans ?_⟩
  rw [AvAssetReader.hear, A.length_take_heard hl, A.heard_take]

/-- Reads as requests for bytes. -/
def reading (A : Asset) (s : Option Impl) (size : ℕ) : (ℤ × List UInt8) × Option Impl :=
  read A size s

/-- Reads of at most `c` frames, of which none takes frames off. -/
theorem Plays.reads {c : ℕ} (hc : c * A.frameSize < 2 ^ 63) (ms : List ℕ) (hms : ∀ m ∈ ms, m ≤ c)
    (h : Plays p left i) (hl : left.length = l * A.frameSize) (hleft : left.length < 2 ^ 63)
    (hp : p + l < 2 ^ 63)
    (hsafe : p + l ≤ A.numFrames ∨ A.numFrames + c ≤ p + l ∨ A.numFrames ≤ p) :
    run (reading A) (some i) (ms.map (· * A.frameSize)) =
      run AvAssetReader.hear (A.heard p left) (ms.map (· * A.frameSize)) := by
  induction ms generalizing p left l i with
  | nil => rfl
  | cons m ms ih =>
    have hmc : m ≤ c := hms m List.mem_cons_self
    have hm : m * A.frameSize < 2 ^ 63 := lt_of_le_of_lt (Nat.mul_le_mul_right _ hmc) hc
    obtain ⟨i', hplays, -, hread⟩ :=
      h.hear hl hleft hm hp fun e he he' => framesRead_eq he he' hmc hsafe
    have hl' : (left.drop (m * A.frameSize)).length = (l - m) * A.frameSize := by
      rw [List.length_drop, hl, Nat.sub_mul]
    have hN := A.numFrames_lt
    have htail := ih (fun m hm => hms m (List.mem_cons_of_mem _ hm)) hplays hl'
      (by rw [List.length_drop]; omega) (by omega) (by omega)
    simp only [List.map_cons, run, reading, hread]
    rw [show (AvAssetReader.hear (A.heard p left) (m * A.frameSize)).2 =
      (A.heard p left).drop (m * A.frameSize) from rfl, ← A.heard_drop hl rfl, ← htail]

/-- A track that goes beyond the declared end by less than `c` frames: behind
    reads of single frames, the source is one frame before this end, and a read
    of all that is left takes off what is behind it. -/
theorem Plays.loses {c : ℕ} (hc : c * A.frameSize < 2 ^ 63) (d : ℕ) (h : Plays p left i)
    (hd : p + d + 1 = A.numFrames) (hfull : i.Full) (hl : left.length = l * A.frameSize)
    (hleft : left.length < 2 ^ 63) (hp : p + l < 2 ^ 63) (hover : A.numFrames < p + l)
    (hless : p + l < A.numFrames + c) :
    ∃ ms : List ℕ, (∀ m ∈ ms, m ≤ c) ∧
      run (reading A) (some i) (ms.map (· * A.frameSize)) ≠
        run AvAssetReader.hear (A.heard p left) (ms.map (· * A.frameSize)) := by
  induction d generalizing p left l i with
  | zero =>
    refine ⟨[l], by simp only [List.mem_singleton, forall_eq]; omega, ?_⟩
    obtain ⟨e, i', -, -, hend, hread, -⟩ := h.read hl hleft (by rwa [← hl]) hp
    obtain rfl : e = true := (hend hfull).2 le_rfl
    intro heq
    have hcount : framesRead A.numFrames p l l true * A.frameSize =
        ((A.heard p left).take (l * A.frameSize)).length := by
      simp only [List.map_cons, List.map_nil, run, reading, hread, List.cons.injEq, and_true] at heq
      exact Int.natCast_inj.1 (congrArg Prod.fst heq)
    rw [List.length_take, A.length_heard hl, Nat.mul_min_mul_right] at hcount
    have hframes := Nat.eq_of_mul_eq_mul_right A.frameSize_pos hcount
    rw [framesRead, if_pos ⟨rfl, by omega⟩] at hframes
    omega
  | succ d ih =>
    have hone : 1 * A.frameSize < 2 ^ 63 :=
      lt_of_le_of_lt (Nat.mul_le_mul_right _ (show 1 ≤ c by omega)) hc
    obtain ⟨i', hplays, hfull', hread⟩ := h.hear hl hleft hone hp fun e he _ => by
      rw [framesRead, if_neg fun hcut => by have := he hcut.1; omega]
      omega
    have hl' : (left.drop (1 * A.frameSize)).length = (l - 1) * A.frameSize := by
      rw [List.length_drop, hl, Nat.sub_mul]
    obtain ⟨ms, hms, hne⟩ := ih hplays (by omega) (hfull' hfull) hl'
      (by rw [List.length_drop]; omega) (by omega) (by omega) (by omega)
    refine ⟨1 :: ms, ?_, fun heq => hne ?_⟩
    · rintro m (_ | ⟨_, hm⟩)
      · omega
      · exact hms m hm
    · simp only [List.map_cons, run, reading, hread] at heq
      rw [A.heard_drop hl rfl]
      exact (List.cons.inj heq).2

/-! ## Readers -/

/-- The frame at which a reader starts. -/
def Asset.start (A : Asset) (seekPositionFrames : ℕ) : ℕ :=
  min (sizeT (seekPositionFrames + A.trimOffsetFrames))
    (sizeT (A.numFrames + A.trimOffsetFrames + (2 ^ 64 - 1)))

/-- What is decoded from this frame on. -/
def Asset.track (A : Asset) (seekPositionFrames : ℕ) : List UInt8 :=
  (A.sampleBuffers (A.start seekPositionFrames)).flatten

theorem Asset.start_lt {k : ℕ} (hn : 1 ≤ A.numFrames) : A.start k < 2 ^ 63 := by
  have hend := A.duration_lt
  have hadd := A.numFrames_add hn
  refine lt_of_le_of_lt (Nat.min_le_right _ _) ?_
  rw [sizeT, hadd]
  omega

theorem plays_createImpl {k : ℕ} (hstart : A.start k < 2 ^ 63) :
    Plays (A.start k) (A.track k) (createImpl A k) := by
  refine ⟨?_, rfl, fun h => absurd h Bool.false_ne_true⟩
  rw [show (createImpl A k).framePos = wrap 64 (A.start k) by simp only [createImpl, Asset.start]]
  exact wrap_of_range (by omega) (by omega)

end

/-- Four frames, of which three are declared. -/
def overlong : Asset where
  duration := 3
  frameSize := 1
  trimOffsetFrames := 0
  sampleBuffers start := [List.drop start [1, 2, 3, 4]]
  frameSize_pos := Nat.one_pos
  trim := .inl rfl
  fits := by decide

def skipMp3LeaderFrames : ℕ := 576

def maxComparisonGranules : ℕ := 128

/-- `previewBufferSizeBytes`, of the precise reader. -/
def previewBufferSizeBytes (P : Asset) : ℕ := sizeT (skipMp3LeaderFrames * P.frameSize)

def maxComparisonLengthBytes (P : Asset) : ℕ :=
  sizeT (previewBufferSizeBytes P * maxComparisonGranules)

/-- A reader with precise timing, one without, and `examined_length_bytes`. -/
structure Comparison where
  precise : Option Impl
  notPrecise : Option Impl
  examined : ℕ

/-- A pass of the loop of `create_impl`, over the decodings `P` and `Q`. -/
def comparePass (P Q : Asset) (s : Comparison) : Next Comparison ℕ :=
  if s.examined < maxComparisonLengthBytes P then
    let ((examined, preciseData), precise) := read P (previewBufferSizeBytes P) s.precise
    let ((_, notPreciseData), notPrecise) := read Q (previewBufferSizeBytes P) s.notPrecise
    if preciseData ≠ notPreciseData then .done skipMp3LeaderFrames
    else .again ⟨precise, notPrecise, sizeT (s.examined + (examined % 2 ^ 64).toNat)⟩
  else .done 0

/-- `m_trimOffsetFrames`, which is determined when the source is opened. -/
def trimOffset (P Q : Asset) (mp3 : Bool) (fuel : ℕ) : Option ℕ :=
  if mp3 then iterate (comparePass P Q) fuel ⟨some (createImpl P 0), some (createImpl Q 0), 0⟩
  else some 0

/-- A buffer of `B` bytes, filled at byte `n` of a track. -/
def preview (track : List UInt8) (n B : ℕ) : List UInt8 :=
  (track.drop n).take B ++ List.replicate (B - (track.drop n).length) 0

theorem length_preview (track : List UInt8) (n B : ℕ) : (preview track n B).length = B := by
  rw [preview, List.length_append, List.length_take, List.length_replicate]
  omega

theorem getElem?_preview (track : List UInt8) (n B x : ℕ) (hx : x < B) :
    (preview track n B)[x]? = some (track.getD (n + x) 0) := by
  unfold preview
  by_cases hlt : n + x < track.length
  · rw [List.getElem?_append_left (by rw [List.length_take, List.length_drop]; omega),
      List.getElem?_take_of_lt hx, List.getElem?_drop, List.getElem?_eq_getElem hlt,
      List.getD_eq_getElem _ _ hlt]
  · rw [List.getElem?_append_right (by rw [List.length_take, List.length_drop]; omega),
      List.getElem?_replicate_of_lt (by simp only [List.length_take, List.length_drop]; omega),
      List.getD_eq_default _ _ (by omega)]

/-- Previews agree iff the tracks do, where a track goes on with silence. -/
theorem preview_eq_iff (track track' : List UInt8) (n B : ℕ) :
    preview track n B = preview track' n B ↔
      ∀ x, n ≤ x → x < n + B → track.getD x 0 = track'.getD x 0 := by
  constructor
  · intro h x hx hx'
    obtain ⟨y, rfl⟩ := Nat.exists_eq_add_of_le hx
    have hy := congrArg (·[y]?) h
    simp only [getElem?_preview _ _ _ _ (show y < B by omega), Option.some.injEq] at hy
    exact hy
  · intro h
    refine List.ext_getElem? fun x => ?_
    by_cases hx : x < B
    · rw [getElem?_preview _ _ _ _ hx, getElem?_preview _ _ _ _ hx,
        h (n + x) (Nat.le_add_right n x) (by omega)]
    · rw [List.getElem?_eq_none (by rw [length_preview]; omega),
        List.getElem?_eq_none (by rw [length_preview]; omega)]

section
variable {P Q : Asset}

/-- Behind `j` passes in which the previews agreed. -/
structure Comparing (P Q : Asset) (j : ℕ) (s : Comparison) : Prop where
  precise : ∃ i, s.precise = some i ∧ Plays (min (skipMp3LeaderFrames * j) P.numFrames)
    ((P.track 0).drop (j * (skipMp3LeaderFrames * P.frameSize))) i
  notPrecise : ∃ i, s.notPrecise = some i ∧ i.Sound ∧
    i.left = (Q.track 0).drop (j * (skipMp3LeaderFrames * P.frameSize))
  examined : s.examined = min (skipMp3LeaderFrames * j) P.numFrames * P.frameSize

/-- The previews of a pass. -/
def Agree (P Q : Asset) (j : ℕ) : Prop :=
  preview (P.track 0) (j * (skipMp3LeaderFrames * P.frameSize))
      (skipMp3LeaderFrames * P.frameSize) =
    preview (Q.track 0) (j * (skipMp3LeaderFrames * P.frameSize))
      (skipMp3LeaderFrames * P.frameSize)

/-- The frames that are compared, if there are so many. -/
def comparedFrames : ℕ := skipMp3LeaderFrames * maxComparisonGranules

variable {j t : ℕ} {s : Comparison}

theorem previewBufferSizeBytes_eq (hframe : P.frameSize < 2 ^ 33) :
    previewBufferSizeBytes P = skipMp3LeaderFrames * P.frameSize :=
  sizeT_of_lt (by unfold skipMp3LeaderFrames; omega)

theorem maxComparisonLengthBytes_eq (hframe : P.frameSize < 2 ^ 33) :
    maxComparisonLengthBytes P = comparedFrames * P.frameSize := by
  unfold maxComparisonLengthBytes
  rw [previewBufferSizeBytes_eq hframe, Nat.mul_right_comm]
  exact sizeT_of_lt (by unfold skipMp3LeaderFrames maxComparisonGranules; omega)

theorem comparing_zero (hP : P.trimOffsetFrames = 0) :
    Comparing P Q 0 ⟨some (createImpl P 0), some (createImpl Q 0), 0⟩ := by
  have hstart : P.start 0 = 0 := by
    rw [Asset.start, hP]
    exact Nat.min_eq_left (Nat.zero_le _)
  refine ⟨⟨_, rfl, ?_⟩, ⟨_, rfl, fun h => absurd h Bool.false_ne_true, ?_⟩, ?_⟩
  · have hplays := plays_createImpl (A := P) (k := 0) (by rw [hstart]; decide)
    rw [hstart] at hplays
    rwa [Nat.mul_zero, Nat.zero_min, Nat.zero_mul, List.drop_zero]
  · rw [Nat.zero_mul, List.drop_zero]
    rfl
  · rw [Nat.mul_zero, Nat.zero_min, Nat.zero_mul]

/-- **A pass**: enough was examined, or the previews differ, or they agree. -/
theorem Comparing.pass (h : Comparing P Q j s) (hframe : P.frameSize < 2 ^ 33)
    (ht : (P.track 0).length = t * P.frameSize) (hle : t ≤ P.numFrames) :
    (comparedFrames ≤ min (skipMp3LeaderFrames * j) P.numFrames ∧
      comparePass P Q s = .done 0) ∨
    (min (skipMp3LeaderFrames * j) P.numFrames < comparedFrames ∧ ¬ Agree P Q j ∧
      comparePass P Q s = .done skipMp3LeaderFrames) ∨
    (min (skipMp3LeaderFrames * j) P.numFrames < comparedFrames ∧ Agree P Q j ∧
      ∃ s', comparePass P Q s = .again s' ∧ Comparing P Q (j + 1) s') := by
  obtain ⟨⟨i, hi, hplays⟩, ⟨i', hi', hsound, hleft⟩, hexamined⟩ := h
  have hmore : s.examined < maxComparisonLengthBytes P ↔
      min (skipMp3LeaderFrames * j) P.numFrames < comparedFrames := by
    rw [hexamined, maxComparisonLengthBytes_eq hframe]
    exact Nat.mul_lt_mul_right P.frameSize_pos
  rcases Nat.lt_or_ge (min (skipMp3LeaderFrames * j) P.numFrames) comparedFrames with hlt | hge
  · right
    -- the precise reader
    have hl : ((P.track 0).drop (j * (skipMp3LeaderFrames * P.frameSize))).length =
        (t - skipMp3LeaderFrames * j) * P.frameSize := by
      rw [List.length_drop, ht, Nat.sub_mul, ← Nat.mul_assoc, Nat.mul_comm j]
    have hN := P.numFrames_lt
    have hNF := P.numFrames_mul_lt
    have htF := Nat.mul_le_mul_right P.frameSize hle
    obtain ⟨p₁, hplays₁, -, hread⟩ := hplays.hear (m := skipMp3LeaderFrames) hl
      (by rw [List.length_drop, ht]; omega)
      (by unfold skipMp3LeaderFrames; omega) (by omega)
      fun e he he' => framesRead_eq he he' le_rfl (.inl (by omega))
    have hnext : min (skipMp3LeaderFrames * j) P.numFrames +
        min (max (t - skipMp3LeaderFrames * j)
          (P.numFrames - min (skipMp3LeaderFrames * j) P.numFrames)) skipMp3LeaderFrames =
        min (skipMp3LeaderFrames * (j + 1)) P.numFrames := by
      rw [Nat.mul_succ]
      omega
    have hpreview : (hear (P.heard (min (skipMp3LeaderFrames * j) P.numFrames)
        ((P.track 0).drop (j * (skipMp3LeaderFrames * P.frameSize))))
        (skipMp3LeaderFrames * P.frameSize)).1.2 = preview (P.track 0)
          (j * (skipMp3LeaderFrames * P.frameSize)) (skipMp3LeaderFrames * P.frameSize) :=
      P.heard_take _ _ _
    -- the other one
    obtain ⟨q₁, hq₁, hdata, hleft₁, hsound₁⟩ :=
      read_data Q (skipMp3LeaderFrames * P.frameSize) hsound
    obtain ⟨⟨⟨count, data⟩, q⟩, hq⟩ :
        ∃ r, read Q (skipMp3LeaderFrames * P.frameSize) (some i') = r := ⟨_, rfl⟩
    rw [hq] at hq₁ hdata
    rw [hleft] at hdata hleft₁
    simp only at hq₁ hdata
    subst hq₁ hdata
    have hpass : comparePass P Q s = _ := if_pos (hmore.2 hlt)
    rw [hi, hi', previewBufferSizeBytes_eq hframe, hread, hq] at hpass
    simp only [hpreview] at hpass
    by_cases hagree : Agree P Q j
    · right
      refine ⟨hlt, hagree, _, hpass.trans (if_neg (not_not.2 hagree)), ⟨p₁, rfl, ?_⟩,
        ⟨q₁, rfl, hsound₁, ?_⟩, ?_⟩
      · rw [List.drop_drop, hnext] at hplays₁
        rwa [Nat.succ_mul]
      · rw [hleft₁, List.drop_drop, Nat.succ_mul]
      · have hbound := Nat.mul_le_mul_right P.frameSize
          (Nat.min_le_right (skipMp3LeaderFrames * (j + 1)) P.numFrames)
        have hsum := congrArg (· * P.frameSize) hnext
        simp only [Nat.add_mul] at hsum
        simp only [hear, P.length_take_heard hl, hexamined]
        rw [← hsum] at hbound ⊢
        rw [Int.emod_eq_of_lt (Int.natCast_nonneg _) (by omega), Int.toNat_natCast]
        exact sizeT_of_lt (by omega)
    · exact .inl ⟨hlt, hagree, hpass.trans (if_pos hagree)⟩
  · exact .inl ⟨hge, if_neg fun h => absurd (hmore.1 h) (by omega)⟩

theorem agree_iff : Agree P Q j ↔ ∀ x, j * (skipMp3LeaderFrames * P.frameSize) ≤ x →
    x < (j + 1) * (skipMp3LeaderFrames * P.frameSize) →
      (P.track 0).getD x 0 = (Q.track 0).getD x 0 := by
  rw [Nat.succ_mul]
  exact preview_eq_iff _ _ _ _

/-- The loop stops at pass `j + d` at the latest. -/
theorem Comparing.terminates (hframe : P.frameSize < 2 ^ 33)
    (ht : (P.track 0).length = t * P.frameSize) (hle : t ≤ P.numFrames) (d : ℕ)
    (h : Comparing P Q j s)
    (hstop : comparedFrames ≤ min (skipMp3LeaderFrames * (j + d)) P.numFrames ∨
      ¬ Agree P Q (j + d)) : Terminates (comparePass P Q) s := by
  induction d generalizing j s with
  | zero =>
    rcases h.pass hframe ht hle with ⟨-, hdone⟩ | ⟨-, -, hdone⟩ | ⟨hlt, hagree, -⟩
    · exact ⟨_, .done hdone⟩
    · exact ⟨_, .done hdone⟩
    · rcases hstop with hstop | hstop
      · exact absurd hlt (not_lt.2 hstop)
      · exact absurd hagree hstop
  | succ d ih =>
    rcases h.pass hframe ht hle with ⟨-, hdone⟩ | ⟨-, -, hdone⟩ | ⟨-, -, s', hagain, hnext⟩
    · exact ⟨_, .done hdone⟩
    · exact ⟨_, .done hdone⟩
    · rw [← Nat.succ_add_eq_add_succ] at hstop
      obtain ⟨r, hr⟩ := ih hnext hstop
      exact ⟨r, .again hagain hr⟩

/-- What the loop stops with. -/
def Determined (P Q : Asset) (r : ℕ) : Prop :=
  (r = 0 ∧ comparedFrames ≤ P.numFrames ∧
    ∀ x < comparedFrames * P.frameSize, (P.track 0).getD x 0 = (Q.track 0).getD x 0) ∨
  (r = skipMp3LeaderFrames ∧ ∃ x, (P.track 0).getD x 0 ≠ (Q.track 0).getD x 0 ∧
    (comparedFrames ≤ P.numFrames → x < comparedFrames * P.frameSize))

theorem Comparing.returns (hframe : P.frameSize < 2 ^ 33)
    (ht : (P.track 0).length = t * P.frameSize) (hle : t ≤ P.numFrames) {r : ℕ}
    (h : Comparing P Q 0 s) (hr : Returns (comparePass P Q) s r) : Determined P Q r := by
  -- the invariant: the tracks agree as far as they were compared
  have hbytes : comparedFrames * P.frameSize =
      maxComparisonGranules * (skipMp3LeaderFrames * P.frameSize) := by
    rw [comparedFrames, Nat.mul_comm skipMp3LeaderFrames, Nat.mul_assoc]
  refine hr.inv (fun s => ∃ j, Comparing P Q j s ∧ ∀ x < j * (skipMp3LeaderFrames * P.frameSize),
    (P.track 0).getD x 0 = (Q.track 0).getD x 0) (Determined P Q) ?_ ?_
    ⟨0, h, fun x hx => absurd hx (by rw [Nat.zero_mul]; exact Nat.not_lt_zero x)⟩
  · rintro s s' ⟨j, hj, hsame⟩ hagain
    rcases hj.pass hframe ht hle with ⟨-, hdone⟩ | ⟨-, -, hdone⟩ | ⟨-, hagree, s'', hagain', hnext⟩
    · cases hdone.symm.trans hagain
    · cases hdone.symm.trans hagain
    · cases hagain'.symm.trans hagain
      refine ⟨j + 1, hnext, fun x hx => ?_⟩
      rcases Nat.lt_or_ge x (j * (skipMp3LeaderFrames * P.frameSize)) with hlt | hge
      · exact hsame x hlt
      · exact agree_iff.1 hagree x hge hx
  · rintro s r ⟨j, hj, hsame⟩ hdone'
    rcases hj.pass hframe ht hle with ⟨hmax, hdone⟩ | ⟨hlt, hagree, hdone⟩ | ⟨-, -, s', hagain, -⟩
    · cases hdone.symm.trans hdone'
      have hj : maxComparisonGranules ≤ j := by
        unfold comparedFrames skipMp3LeaderFrames at hmax
        omega
      refine .inl ⟨rfl, by omega, fun x hx => hsame x (lt_of_lt_of_le hx ?_)⟩
      rw [hbytes]
      exact Nat.mul_le_mul_right _ hj
    · cases hdone.symm.trans hdone'
      rw [agree_iff] at hagree
      simp only [not_forall] at hagree
      obtain ⟨x, -, hx, hne⟩ := hagree
      refine .inr ⟨rfl, x, hne, fun henough => lt_of_lt_of_le hx ?_⟩
      have hj : j + 1 ≤ maxComparisonGranules := by
        unfold comparedFrames skipMp3LeaderFrames at hlt henough
        omega
      rw [hbytes]
      exact Nat.mul_le_mul_right _ hj
    · cases hagain.symm.trans hdone'

end

/-- **The trim offset** of an MP3 file, whose precise decoding has the declared
    length at most: it is determined iff 128 granules are declared, or the
    decodings differ somewhere; else the loop examines nothing more behind the
    declared end, and never stops.  The leader is trimmed off iff the decodings
    differ, within the first 128 granules if so many are declared. -/
theorem trimOffset_iff (P Q : Asset) (mp3 : Bool) (t : ℕ) (hP : P.trimOffsetFrames = 0)
    (hframe : P.frameSize < 2 ^ 33) (ht : (P.track 0).length = t * P.frameSize)
    (hle : t ≤ P.numFrames) :
    ((∃ fuel r, trimOffset P Q mp3 fuel = some r) ↔
      (mp3 = true → comparedFrames ≤ P.numFrames ∨
        ∃ x, (P.track 0).getD x 0 ≠ (Q.track 0).getD x 0)) ∧
    ∀ fuel r, trimOffset P Q mp3 fuel = some r →
      (r = 0 ∨ r = skipMp3LeaderFrames) ∧
      (r = skipMp3LeaderFrames ↔ mp3 = true ∧
        ∃ x, (P.track 0).getD x 0 ≠ (Q.track 0).getD x 0 ∧
          (comparedFrames ≤ P.numFrames → x < comparedFrames * P.frameSize)) := by
  cases mp3 with
  | false =>
    refine ⟨iff_of_true ⟨0, 0, rfl⟩ fun h => absurd h Bool.false_ne_true, fun fuel r h => ?_⟩
    cases h
    exact ⟨.inl rfl, iff_of_false (by decide) fun h => absurd h.1 Bool.false_ne_true⟩
  | true =>
    have hstart := comparing_zero (Q := Q) hP
    have hdetermined : ∀ fuel r, trimOffset P Q true fuel = some r → Determined P Q r :=
      fun fuel r h => hstart.returns hframe ht hle (.of_iterate fuel h)
    refine ⟨⟨fun ⟨fuel, r, h⟩ _ => ?_, fun h => ?_⟩, fun fuel r h => ?_⟩
    · rcases hdetermined fuel r h with ⟨-, henough, -⟩ | ⟨-, x, hne, -⟩
      · exact .inl henough
      · exact .inr ⟨x, hne⟩
    · obtain ⟨d, hstop⟩ : ∃ d, comparedFrames ≤ min (skipMp3LeaderFrames * (0 + d)) P.numFrames ∨
          ¬ Agree P Q (0 + d) := by
        rcases h rfl with henough | ⟨x, hne⟩
        · refine ⟨maxComparisonGranules, .inl ?_⟩
          rw [Nat.zero_add]
          exact le_min le_rfl henough
        · have hpos : 0 < skipMp3LeaderFrames * P.frameSize :=
            Nat.mul_pos (by decide) P.frameSize_pos
          refine ⟨x / (skipMp3LeaderFrames * P.frameSize), .inr fun hagree => hne ?_⟩
          rw [Nat.zero_add, agree_iff] at hagree
          refine hagree x (Nat.div_mul_le_self _ _) ?_
          rw [Nat.mul_comm]
          exact Nat.lt_mul_div_succ x hpos
      obtain ⟨r, hr⟩ := hstart.terminates hframe ht hle d hstop
      obtain ⟨fuel, h⟩ := returns_iff.1 hr
      exact ⟨fuel, r, h⟩
    · rcases hdetermined fuel r h with ⟨rfl, henough, hsame⟩ | ⟨rfl, x, hne, hx⟩
      · refine ⟨.inl rfl, iff_of_false (by decide) ?_⟩
        rintro ⟨-, x, hne, hx⟩
        exact hne (hsame x (hx henough))
      · exact ⟨.inr rfl, iff_of_true rfl ⟨rfl, x, hne, hx⟩⟩

/-- A frame. -/
def short (sample : UInt8) : Asset where
  duration := 1
  frameSize := 1
  trimOffsetFrames := 0
  sampleBuffers start := [List.drop start [sample]]
  frameSize_pos := Nat.one_pos
  trim := .inl rfl
  fits := by decide

/-- A short MP3 file is not opened if its decodings agree; if they differ, its
    leader is trimmed off. -/
theorem trimOffset_iff_short :
    (¬ ∃ fuel r, trimOffset (short 1) (short 1) true fuel = some r) ∧
      ∃ fuel, trimOffset (short 1) (short 2) true fuel = some skipMp3LeaderFrames := by
  have hagree := trimOffset_iff (short 1) (short 1) true 1 rfl (by decide) (by decide +kernel)
    (by decide)
  have hdiffer := trimOffset_iff (short 1) (short 2) true 1 rfl (by decide) (by decide +kernel)
    (by decide)
  have hne : ((short 1).track 0).getD 0 0 ≠ ((short 2).track 0).getD 0 0 := by decide +kernel
  refine ⟨fun h => ?_, ?_⟩
  · rcases hagree.1.1 h rfl with hmore | ⟨x, hx⟩
    · exact absurd hmore (by decide)
    · exact hx rfl
  · obtain ⟨fuel, r, h⟩ := hdiffer.1.2 fun _ => .inr ⟨0, hne⟩
    obtain rfl := (hdiffer.2 fuel r h).2.2 ⟨rfl, 0, hne, fun hmore => absurd hmore (by decide)⟩
    exact ⟨fuel, h⟩

end AvAssetReader

end NiMedia
