/-
  The callbacks through which libFLAC and libvorbisfile read a source
  (`audio/flac/flac_source.h`, `audio/ogg/ogg_source.h`).

  The decoders call back in an order of their own, and expect an open file.

  * `flac_callbacks`: libFLAC gets the answers of an open file, whose length
    moves it to its end, whatever it calls; it is never told that the file ends:
    at the end a read aborts.
  * `ogg_callbacks`: libvorbisfile gets the answers of `fread`, `fseek` and
    `ftell`.
-/
import NiMedia.Flac.Interleave
import NiMedia.Iostreams.OpenFile

namespace NiMedia

open Bytes Words Machine

/-! ## libFLAC -/

namespace Flac

inductive ReadStatus where
  | continue_
  | endOfStream
  | abort
  deriving DecidableEq, Repr

inductive SeekStatus where
  | ok
  | error
  | unsupported
  deriving DecidableEq, Repr

section
variable {σ : Type} [NiMedia.Source σ]

/-- `readCallbackImpl`: the status, the bytes in the buffer, and `*bytes`. -/
def readCallbackImpl (bytes : ℕ) (source : σ) : (ReadStatus × List UInt8 × ℕ) × σ :=
  if 0 < bytes then
    let (ret, source) := NiMedia.Source.read bytes source
    match ret with
    | none => ((.abort, [], bytes), source)
    | some bs =>
      if bs.length = 0 then ((.endOfStream, bs, bs.length), source)
      else ((.continue_, bs, bs.length), source)
  else ((.abort, [], bytes), source)

def seekCallbackImpl (absoluteByteOffset : ℕ) (source : σ) : SeekStatus × σ :=
  let (pos, source) := Device.seek (wrap 64 absoluteByteOffset) .beg source
  (if pos < 0 then .error else .ok, source)

/-- `tellCallbackImpl`; no position stands for the error. -/
def tellCallbackImpl (source : σ) : Option ℕ × σ :=
  let (pos, source) := Device.seek 0 .cur source
  (if pos < 0 then none else some pos.toNat, source)

def lengthCallbackImpl (source : σ) : Option ℕ × σ :=
  let (pos, source) := Device.seek 0 .end_ source
  (if pos < 0 then none else some pos.toNat, source)

def eofCallbackImpl (source : σ) : Bool × σ :=
  let (pos, source) := Device.seek 0 .cur source
  (pos < 0, source)

/-- The source in `metadataCallbackImpl`: an info that is thrown out leaves it
    alone, and the bytes behind the position are counted. -/
def metadataCallback (m : StreamInfoBlock) (source : σ) : Except RuntimeError Info × σ :=
  let (pos, atPos) := Device.seek 0 .cur source
  let (end_, atEnd) := Device.seek 0 .end_ atPos
  let (_, back) := Device.seek pos .beg atEnd
  match metadataCallbackImpl ((end_ - pos) % 2 ^ 64).toNat m with
  | .error e => (.error e, source)
  | .ok info => (.ok info, back)

end

/-- The calls of libFLAC. -/
inductive Callback where
  | read (bytes : ℕ)
  | seek (absoluteByteOffset : ℕ)
  | tell
  | length
  | eof
  | metadata (m : StreamInfoBlock)

inductive CallbackAnswer where
  | read (status : ReadStatus) (bs : List UInt8) (bytes : ℕ)
  | seek (status : SeekStatus)
  | tell (pos : Option ℕ)
  | length (length : Option ℕ)
  | eof (eof : Bool)
  | metadata (info : Except RuntimeError Info)

def callback {σ : Type} [NiMedia.Source σ] (source : σ) : Callback → CallbackAnswer × σ
  | .read bytes =>
    let ((status, bs, bytes), source) := readCallbackImpl bytes source
    (.read status bs bytes, source)
  | .seek q => (.seek (seekCallbackImpl q source).1, (seekCallbackImpl q source).2)
  | .tell => (.tell (tellCallbackImpl source).1, (tellCallbackImpl source).2)
  | .length => (.length (lengthCallbackImpl source).1, (lengthCallbackImpl source).2)
  | .eof => (.eof (eofCallbackImpl source).1, (eofCallbackImpl source).2)
  | .metadata m => (.metadata (metadataCallback m source).1, (metadataCallback m source).2)

/-- The answers of an open file: there is no end of it, and its length moves it. -/
def fileCallback (land : List UInt8 → ℕ → ℕ) (f : OpenFile) : Callback → CallbackAnswer × OpenFile
  | .read bytes =>
    if f.next bytes = [] then (.read .abort [] bytes, f)
    else (.read .continue_ (f.next bytes) (f.next bytes).length, f.skip bytes)
  | .seek q => (.seek .ok, f.moveTo (land f.bytes q))
  | .tell => (.tell (some f.pos), f)
  | .length => (.length (some f.bytes.length), f.moveTo f.bytes.length)
  | .eof => (.eof false, f)
  | .metadata m =>
    (.metadata (metadataCallbackImpl (((f.bytes.length : ℤ) - f.pos) % 2 ^ 64).toNat m), f)

/-- Offsets are positions, and counts `std::streamsize`s. -/
def Callback.Fits : Callback → Prop
  | .read bytes => bytes < 2 ^ 63
  | .seek q => q ≤ maxPos
  | _ => True

instance : DecidablePred Callback.Fits
  | .read bytes => inferInstanceAs (Decidable (bytes < 2 ^ 63))
  | .seek q => inferInstanceAs (Decidable ((q : ℤ) ≤ maxPos))
  | .tell => inferInstanceAs (Decidable True)
  | .length => inferInstanceAs (Decidable True)
  | .eof => inferInstanceAs (Decidable True)
  | .metadata _ => inferInstanceAs (Decidable True)

section
variable {σ : Type} [SizedSource σ] {f : OpenFile} {s : σ}

/-- A read at the end aborts, as a read of no bytes does. -/
theorem readCallback_sim (h : f.At s) (bytes : ℕ) :
    (callback s (.read bytes)).1 = (fileCallback (ExactSource.land σ) f (.read bytes)).1 ∧
      (fileCallback (ExactSource.land σ) f (.read bytes)).2.At (callback s (.read bytes)).2 := by
  obtain ⟨hread, hskip⟩ := h.read bytes
  rcases Nat.eq_zero_or_pos bytes with rfl | hpos
  · have hnext : f.next 0 = [] := rfl
    simp only [callback, readCallbackImpl, fileCallback, hnext, if_pos, Nat.lt_irrefl, if_false]
    exact ⟨trivial, h⟩
  · by_cases hnext : f.next bytes = []
    · have hstay : f.skip bytes = f := by
        simp only [OpenFile.skip, hnext, List.length_nil, add_zero]
      rw [hnext] at hread
      rw [hstay] at hskip
      simp only [callback, readCallbackImpl, if_pos hpos, hread, fileCallback, if_pos hnext]
      exact ⟨rfl, hskip⟩
    · have hlength : ¬ (f.next bytes).length = 0 := fun h => hnext (List.length_eq_zero_iff.1 h)
      rw [deliver_of_ne hnext] at hread
      simp only [callback, readCallbackImpl, if_pos hpos, hread, if_neg hlength, fileCallback,
        if_neg hnext]
      exact ⟨trivial, hskip⟩

/-- The metadata callback comes back to its position. -/
theorem metadataCallback_sim (h : f.At s) (m : StreamInfoBlock) :
    (callback s (.metadata m)).1 = (fileCallback (ExactSource.land σ) f (.metadata m)).1 ∧
      (fileCallback (ExactSource.land σ) f (.metadata m)).2.At (callback s (.metadata m)).2 := by
  obtain ⟨h1, hpos⟩ := h.tell
  obtain ⟨h2, hend⟩ := hpos.toEnd
  obtain ⟨-, hback⟩ := hend.seek h.pos_le
  have hland : (f.moveTo f.bytes.length).moveTo (ExactSource.land σ f.bytes f.pos) = f := by
    rw [h.land_pos]
    rfl
  simp only [OpenFile.moveTo] at hback hland
  rw [hland] at hback
  simp only [callback, metadataCallback, fileCallback, h1, h2]
  cases metadataCallbackImpl (((f.bytes.length : ℤ) - f.pos) % 2 ^ 64).toNat m with
  | error e => exact ⟨rfl, h⟩
  | ok info => exact ⟨rfl, hback⟩

/-- **A callback** answers as the file. -/
theorem callback_sim (h : f.At s) (c : Callback) (hc : c.Fits) :
    (callback s c).1 = (fileCallback (ExactSource.land σ) f c).1 ∧
      (fileCallback (ExactSource.land σ) f c).2.At (callback s c).2 := by
  cases c with
  | read bytes => exact readCallback_sim h bytes
  | seek q =>
    have hwrap : wrap 64 (q : ℤ) = q := by
      have hq : (q : ℤ) ≤ maxPos := hc
      unfold maxPos at hq
      exact wrap_of_range (by norm_num) (by norm_num; omega)
    obtain ⟨h1, h2⟩ := h.seek hc
    have hneg : ¬ (ExactSource.land σ f.bytes q : ℤ) < 0 := by omega
    simp only [callback, seekCallbackImpl, fileCallback, hwrap, h1, if_neg hneg]
    exact ⟨trivial, h2⟩
  | tell =>
    obtain ⟨h1, h2⟩ := h.tell
    have hneg : ¬ (f.pos : ℤ) < 0 := by omega
    simp only [callback, tellCallbackImpl, fileCallback, h1, if_neg hneg, Int.toNat_natCast]
    exact ⟨trivial, h2⟩
  | length =>
    obtain ⟨h1, h2⟩ := h.toEnd
    have hneg : ¬ (f.bytes.length : ℤ) < 0 := by omega
    simp only [callback, lengthCallbackImpl, fileCallback, h1, if_neg hneg, Int.toNat_natCast]
    exact ⟨trivial, h2⟩
  | eof =>
    obtain ⟨h1, h2⟩ := h.tell
    have hneg : ¬ (f.pos : ℤ) < 0 := by omega
    simp only [callback, eofCallbackImpl, fileCallback, h1, decide_eq_false hneg]
    exact ⟨trivial, h2⟩
  | metadata m => exact metadataCallback_sim h m

/-- Neither is the end of the stream told, nor the end of the file. -/
theorem fileCallback_endless (land : List UInt8 → ℕ → ℕ) (f : OpenFile) (c : Callback) :
    (∀ bs n, (fileCallback land f c).1 ≠ .read .endOfStream bs n) ∧
      (fileCallback land f c).1 ≠ .eof true := by
  cases c with
  | read bytes =>
    simp only [fileCallback]
    split_ifs
    · exact ⟨nofun, nofun⟩
    · exact ⟨nofun, nofun⟩
  | seek q => exact ⟨nofun, nofun⟩
  | tell => exact ⟨nofun, nofun⟩
  | length => exact ⟨nofun, nofun⟩
  | eof => exact ⟨nofun, nofun⟩
  | metadata m => exact ⟨nofun, nofun⟩

end

/-- **libFLAC reads an open file**: whatever it calls, in any order, over a file
    or a container, it gets the answers of a position in the bytes of the source,
    which a read moves on, a seek sets, the length moves to the end, and the
    metadata leaves.  At the end a read aborts, and never tells that the stream
    ends; nor does the callback for the end of the file. -/
theorem flac_callbacks {σ : Type} [SizedSource σ] (s : σ) (calls : List Callback)
    (hpos : ExactSource.pos s = 0) (hlength : (ExactSource.bytes s).length ≤ maxPos)
    (hcalls : ∀ c ∈ calls, c.Fits) :
    run callback s calls =
        run (fileCallback (ExactSource.land σ)) (.opened (ExactSource.bytes s)) calls ∧
      ∀ a ∈ run callback s calls, (∀ bs n, a ≠ .read .endOfStream bs n) ∧ a ≠ .eof true := by
  have hrun : run callback s calls =
      run (fileCallback (ExactSource.land σ)) (.opened (ExactSource.bytes s)) calls :=
    run_eq_of_sim (fun s f => OpenFile.At f s) (fun _ _ c h hc => callback_sim h c hc)
      (OpenFile.at_opened hpos hlength) (along_of_forall hcalls s)
  refine ⟨hrun, ?_⟩
  rw [hrun]
  exact forall_mem_run (fun f c => fileCallback_endless _ f c) _ calls

/-- Three bytes: two of them, the length, a read at the end, and the rest. -/
theorem flac_callbacks_three :
    run callback (Container.mk' [1, 2, 3])
        [.read 2, .length, .read 2, .eof, .seek 2, .tell, .read 2] =
      [.read .continue_ [1, 2] 2, .length (some 3), .read .abort [] 2, .eof false, .seek .ok,
        .tell (some 2), .read .continue_ [3] 1] := by
  have h := flac_callbacks (Container.mk' [1, 2, 3])
    [.read 2, .length, .read 2, .eof, .seek 2, .tell, .read 2] rfl (by decide) (by decide)
  exact h.1

end Flac

/-! ## libvorbisfile -/

namespace Ogg

section
variable {σ : Type} [NiMedia.Source σ]

/-- `readCallback`: the bytes that are read. -/
def readCallback (elementSize elementCount : ℕ) (source : σ) : List UInt8 × σ :=
  let (numRead, source) := NiMedia.Source.read (elementSize * elementCount) source
  (numRead.getD [], source)

/-- `SEEK_SET`, `SEEK_CUR` and `SEEK_END`. -/
def seekDirections : List SeekDir := [.beg, .cur, .end_]

/-- `seekCallback`; an origin that is none of those throws. -/
def seekCallback (offset : ℤ) (origin : ℕ) (source : σ) : Option ℤ × σ :=
  match seekDirections[origin]? with
  | none => (none, source)
  | some way =>
    let (pos, source) := Device.seek offset way source
    (some (if pos < 0 then -1 else 0), source)

def tellCallback (source : σ) : ℤ × σ := Device.seek 0 .cur source

end

/-- The calls of libvorbisfile. -/
inductive Callback where
  | read (elementSize elementCount : ℕ)
  | seek (offset : ℤ) (origin : ℕ)
  | tell

inductive CallbackAnswer where
  | read (bs : List UInt8)
  | seek (result : Option ℤ)
  | tell (pos : ℤ)

def callback {σ : Type} [NiMedia.Source σ] (source : σ) : Callback → CallbackAnswer × σ
  | .read size count =>
    (.read (readCallback size count source).1, (readCallback size count source).2)
  | .seek offset origin =>
    (.seek (seekCallback offset origin source).1, (seekCallback offset origin source).2)
  | .tell => (.tell (tellCallback source).1, (tellCallback source).2)

/-- Where `fseek` goes. -/
def target (f : OpenFile) (offset : ℤ) : ℕ → ℤ
  | 0 => offset
  | 1 => f.pos + offset
  | _ => f.bytes.length + offset

/-- `fread`, `fseek` and `ftell`. -/
def fileCallback (land : List UInt8 → ℕ → ℕ) (f : OpenFile) : Callback → CallbackAnswer × OpenFile
  | .read size count => (.read (f.next (size * count)), f.skip (size * count))
  | .seek offset origin =>
    (.seek (some 0), f.moveTo (land f.bytes (target f offset origin).toNat))
  | .tell => (.tell f.pos, f)

/-- Seeks from the beginning to a position; the others are by nothing: they ask
    whether a file can be sought in, or go to its end. -/
def Callback.Fits : Callback → Prop
  | .read size count => size * count < 2 ^ 63
  | .seek offset origin => origin = 0 ∧ 0 ≤ offset ∧ offset ≤ maxPos ∨
      (origin = 1 ∨ origin = 2) ∧ offset = 0
  | .tell => True

instance : DecidablePred Callback.Fits
  | .read size count => inferInstanceAs (Decidable (size * count < 2 ^ 63))
  | .seek _ _ => inferInstanceAs (Decidable (_ ∨ _))
  | .tell => inferInstanceAs (Decidable True)

theorem callback_sim {σ : Type} [SizedSource σ] {f : OpenFile} {s : σ} (h : f.At s) (c : Callback)
    (hc : c.Fits) :
    (callback s c).1 = (fileCallback (ExactSource.land σ) f c).1 ∧
      (fileCallback (ExactSource.land σ) f c).2.At (callback s c).2 := by
  cases c with
  | read size count =>
    obtain ⟨h1, h2⟩ := h.read (size * count)
    simp only [callback, readCallback, fileCallback, h1, getD_deliver]
    exact ⟨trivial, h2⟩
  | seek offset origin =>
    rcases hc with ⟨rfl, h0, hmax⟩ | ⟨rfl | rfl, rfl⟩
    · obtain ⟨q, rfl⟩ := Int.eq_ofNat_of_zero_le h0
      obtain ⟨h1, h2⟩ := h.seek hmax
      have hneg : ¬ (ExactSource.land σ f.bytes q : ℤ) < 0 := by omega
      simp only [callback, seekCallback, seekDirections, List.getElem?_cons_zero, h1, if_neg hneg,
        fileCallback, target]
      exact ⟨trivial, h2⟩
    · obtain ⟨h1, h2⟩ := h.tell
      have hneg : ¬ (f.pos : ℤ) < 0 := by omega
      simp only [callback, seekCallback, seekDirections, List.getElem?_cons_succ,
        List.getElem?_cons_zero, h1, if_neg hneg, fileCallback, target, add_zero, Int.toNat_natCast,
        h.land_pos]
      exact ⟨trivial, h2⟩
    · obtain ⟨h1, h2⟩ := h.toEnd
      have hneg : ¬ (f.bytes.length : ℤ) < 0 := by omega
      simp only [callback, seekCallback, seekDirections, List.getElem?_cons_succ,
        List.getElem?_cons_zero, h1, if_neg hneg, fileCallback, target, add_zero, Int.toNat_natCast,
        land_of_le le_rfl]
      exact ⟨trivial, h2⟩
  | tell =>
    obtain ⟨h1, h2⟩ := h.tell
    simp only [callback, tellCallback, fileCallback, h1]
    exact ⟨trivial, h2⟩

/-- **libvorbisfile reads an open file**: `fread`, `fseek` and `ftell` of a
    position in the bytes of the source, in any order, over a file or a
    container.  Only a seek behind the end shows the difference between those. -/
theorem ogg_callbacks {σ : Type} [SizedSource σ] (s : σ) (calls : List Callback)
    (hpos : ExactSource.pos s = 0) (hlength : (ExactSource.bytes s).length ≤ maxPos)
    (hcalls : ∀ c ∈ calls, c.Fits) :
    run callback s calls =
      run (fileCallback (ExactSource.land σ)) (.opened (ExactSource.bytes s)) calls :=
  run_eq_of_sim (fun s f => OpenFile.At f s) (fun _ _ c h hc => callback_sim h c hc)
    (OpenFile.at_opened hpos hlength) (along_of_forall hcalls s)

theorem ogg_callbacks_three :
    run callback (Container.mk' [1, 2, 3])
        [.read 1 2, .seek 0 2, .tell, .read 1 2, .seek 2 0, .read 2 1] =
      [.read [1, 2], .seek (some 0), .tell 3, .read [], .seek (some 0), .read [3]] :=
  ogg_callbacks (Container.mk' [1, 2, 3])
    [.read 1 2, .seek 0 2, .tell, .read 1 2, .seek 2 0, .read 2 1] rfl (by decide) (by decide)

end Ogg

end NiMedia
