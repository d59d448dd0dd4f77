/-
  Writing a file through a view, as the sinks do.

  A program that writes at the end only is described by what it appends
  (`Appends`); one that goes back to a field it has left room for, by what it
  replaces (`patch_fileView`).
-/
import NiMedia.Iostreams.Subview

namespace NiMedia

open Bytes Words Simulation

/-! ## Views of a file -/

/-- The bytes of the file that a view covers. -/
def Subview.bytes (s : Subview File) : List UInt8 :=
  slice s.device.bytes s.beg.toNat s.size.toNat

/-- A view of what follows a header. -/
theorem Subview.bytes_append {header D : List UInt8} {pos : ℕ} {beg end_ : ℤ}
    (hbeg : beg = header.length) (hend : end_ = header.length + D.length) :
    Subview.bytes ⟨⟨header ++ D, pos⟩, beg, end_⟩ = D := by
  have hsize : (end_ - beg).toNat = D.length := by omega
  have hpos : beg.toNat = header.length := by omega
  rw [Subview.bytes, Subview.size, hsize, hpos, slice_skip le_rfl, Nat.sub_self, slice,
    List.drop_zero, List.take_length]

section
variable {bytes bs : List UInt8} {p b : ℕ}

/-- A view of a file from offset `b` on, at position `p` of the file. -/
def fileView (bytes : List UInt8) (p b : ℕ) : Subview File := ⟨⟨bytes, p⟩, b, maxPos⟩

theorem fileView_opened (bytes : List UInt8) :
    ({ device := File.opened bytes } : Subview File) = fileView bytes 0 0 := by
  unfold fileView File.opened
  rw [Nat.cast_zero]

theorem setView_fileView {c : ℤ} {q : ℕ} (h : c = q) :
    (fileView bytes p b).setView c maxPos = fileView bytes p q := by
  subst h; rfl

theorem absolutePosition_view_beg {pos : ℤ} {off q : ℕ} (hq : q = b + off)
    (hmax : (q : ℤ) ≤ maxPos) : absolutePosition pos b maxPos off .beg = (q : ℤ) := by
  have h63 : maxPos = 2 ^ 63 - 1 := rfl
  rw [absolutePosition_beg (by omega) (by omega), clamp_of_le (by omega) (by omega)]
  omega

theorem absolutePosition_view_cur (hb : b ≤ p) (hmax : (p : ℤ) ≤ maxPos) :
    absolutePosition (p : ℤ) b maxPos 0 .cur = (p : ℤ) := by
  have h63 : maxPos = 2 ^ 63 - 1 := rfl
  rw [absolutePosition_cur (by omega) (by omega), clamp_of_le (by omega) (by omega)]
  omega

theorem device_tell : Device.seek 0 .cur (⟨bytes, p⟩ : File) = ((p : ℤ), ⟨bytes, p⟩) :=
  File.seek_cur 0 _

theorem device_seek_beg (q : ℕ) :
    Device.seek (q : ℤ) .beg (⟨bytes, p⟩ : File) = ((q : ℤ), ⟨bytes, q⟩) :=
  File.seek_beg q _

theorem seek_fileView_of {off : ℤ} {way : SeekDir} {q : ℕ}
    (habs : absolutePosition (p : ℤ) b maxPos off way = (q : ℤ)) :
    (fileView bytes p b).seek off way = ((q : ℤ) - b, fileView bytes q b) := by
  simp only [Subview.seek, fileView, device_tell, habs, device_seek_beg]

theorem seek_fileView (off q : ℕ) (hq : q = b + off) (hmax : (q : ℤ) ≤ maxPos) :
    (fileView bytes p b).seek off .beg = ((off : ℤ), fileView bytes q b) := by
  have hoff : (q : ℤ) - b = off := by omega
  rw [seek_fileView_of (absolutePosition_view_beg hq hmax), hoff]

theorem tell_fileView (hb : b ≤ p) (hmax : (p : ℤ) ≤ maxPos) :
    (fileView bytes p b).tell = (((p - b : ℕ) : ℤ), fileView bytes p b) := by
  have hoff : (p : ℤ) - b = (p - b : ℕ) := by omega
  rw [Subview.tell, seek_fileView_of (absolutePosition_view_cur hb hmax), hoff]

/-- Inside of its bounds, a view writes to its device, up to its end. -/
theorem Subview.write_cut {δ : Type} [Sink δ] {s s' : Subview δ} {pos : ℤ} {k : ℕ}
    (htell : s.tell = (pos, s')) (h0 : 0 ≤ pos) (h : pos ≤ s'.size)
    (hk : k = min bs.length (s'.size - pos).toNat) :
    s.write bs = ((Sink.write (bs.take k) s'.device).1,
      { s' with device := (Sink.write (bs.take k) s'.device).2 }) := by
  have hguard : ¬ (pos = -1 ∨ s'.size < pos) := by omega
  simp only [Subview.write, htell, if_neg hguard, ← hk]

/-- Where there is room, it writes everything. -/
theorem Subview.write_eq {δ : Type} [Sink δ] {s s' : Subview δ} {pos : ℤ}
    (htell : s.tell = (pos, s')) (h0 : 0 ≤ pos) (h : pos + bs.length ≤ s'.size) :
    s.write bs = ((Sink.write bs s'.device).1,
      { s' with device := (Sink.write bs s'.device).2 }) := by
  have hcut : s.write bs = _ :=
    Subview.write_cut (k := bs.length) htell h0 (by omega) (by omega)
  rwa [List.take_length] at hcut

/-- Writing through the view overwrites the file at its position. -/
theorem write_fileView (hb : b ≤ p) (hmax : ((p + bs.length : ℕ) : ℤ) ≤ maxPos) :
    (fileView bytes p b).write bs =
      (some bs.length, fileView (overwrite bytes p bs) (p + bs.length) b) := by
  have hsize : (fileView bytes p b).size = maxPos - b := rfl
  rw [Subview.write_eq (tell_fileView hb (by omega)) (by omega) (by rw [hsize]; omega)]
  rfl

/-- A write is cut at the last position. -/
theorem write_fileView_cut (hb : b ≤ p) (hmax : (p : ℤ) ≤ maxPos) {k : ℕ}
    (hk : k = min bs.length (maxPos - p).toNat) :
    (fileView bytes p b).write bs =
      (some k, fileView (overwrite bytes p (bs.take k)) (p + k) b) := by
  have hsize : (fileView bytes p b).size = maxPos - b := rfl
  have hroom : (fileView bytes p b).size - ((p - b : ℕ) : ℤ) = maxPos - p := by
    rw [hsize]
    omega
  have hlen : (bs.take k).length = k := by
    rw [List.length_take]
    omega
  have hwrite : Sink.write (bs.take k) (⟨bytes, p⟩ : File) =
      (some (bs.take k).length, ⟨overwrite bytes p (bs.take k), p + (bs.take k).length⟩) := rfl
  rw [hlen] at hwrite
  rw [Subview.write_cut (tell_fileView hb hmax) (by omega) (by rw [hsize]; omega)
    (hk.trans (by rw [hroom]))]
  exact congrArg (fun r : Option ℕ × File => (r.1, (⟨r.2, b, maxPos⟩ : Subview File))) hwrite

theorem writeObj_of_write {δ : Type} [Sink δ] {s s' : Subview δ} {n : ℕ}
    (h : s.write bs = (some n, s')) :
    writeObj bs s = .ok (decide (some n = some bs.length), s') := by
  unfold writeObj
  rw [h]

theorem writeObj_fileView (hb : b ≤ p) (hmax : ((p + bs.length : ℕ) : ℤ) ≤ maxPos) :
    writeObj bs (fileView bytes p b) =
      .ok (true, fileView (overwrite bytes p bs) (p + bs.length) b) := by
  rw [writeObj_of_write (write_fileView hb hmax), decide_eq_true rfl]

/-- Writing at the end appends. -/
theorem writeObj_end (hb : b ≤ bytes.length)
    (hmax : ((bytes.length + bs.length : ℕ) : ℤ) ≤ maxPos) :
    writeObj bs (fileView bytes bytes.length b) =
      .ok (true, fileView (bytes ++ bs) (bytes ++ bs).length b) := by
  rw [writeObj_fileView hb hmax, overwrite_end, List.length_append]

/-! ## Appending -/

/-- At the end of a file of `n` bytes, viewed as a whole, the program appends
    `out` and returns `a`. -/
def Appends {α : Type} (m : Io (Subview File) α) (n : ℕ) (out : List UInt8) (a : α) : Prop :=
  ∀ bytes : List UInt8, bytes.length = n → ((n + out.length : ℕ) : ℤ) ≤ maxPos →
    m (fileView bytes n 0) = .ok (a, fileView (bytes ++ out) (n + out.length) 0)

section
variable {α : Type} {n : ℕ} {out : List UInt8} {a : α}

theorem Appends.pure (a : α) : Appends (pure a) n [] a := fun bytes _ _ => by
  rw [List.append_nil]; rfl

theorem Appends.pure_eq {a' : α} (h : a = a') : Appends (Pure.pure a) n [] a' := h ▸ .pure a

theorem Appends.bind_writeObj {k : Bool → Io (Subview File) α} {bs : List UInt8}
    (h : Appends (k true) (n + bs.length) out a) :
    Appends (writeObj bs >>= k) n (bs ++ out) a := by
  rintro bytes rfl hmax
  rw [List.length_append] at hmax
  have hbs : writeObj bs (fileView bytes bytes.length 0) = _ :=
    writeObj_end (Nat.zero_le _) (by omega)
  rw [List.length_append] at hbs
  have hout := h (bytes ++ bs) List.length_append (by omega)
  rw [run_bind, hbs, Except.bind, hout, List.append_assoc, List.length_append, Nat.add_assoc]

theorem Appends.bind_writeObj_last {k : Bool → Io (Subview File) α} {bs : List UInt8}
    (h : Appends (k true) (n + bs.length) [] a) : Appends (writeObj bs >>= k) n bs a := by
  have := Appends.bind_writeObj h
  rwa [List.append_nil] at this

theorem Appends.bind_liftM {β : Type} {k : β → Io (Subview File) α} {x : Except RuntimeError β}
    {b : β} (hx : x = .ok b) (h : Appends (k b) n out a) : Appends (liftM x >>= k) n out a := by
  rintro bytes rfl hmax
  rw [run_bind, run_liftM, hx]
  exact h bytes rfl hmax

theorem Appends.bind_tell {k : ℤ → Io (Subview File) α} (h : Appends (k n) n out a) :
    Appends (tell >>= k) n out a := by
  rintro bytes rfl hmax
  have htell : (fileView bytes bytes.length 0).tell = _ :=
    tell_fileView (Nat.zero_le _) (by omega)
  rw [Nat.sub_zero] at htell
  have hrun : tell (fileView bytes bytes.length 0) =
      .ok ((bytes.length : ℤ), fileView bytes bytes.length 0) := congrArg Except.ok htell
  rw [run_bind, hrun, Except.bind, h bytes rfl hmax]

end

/-! ## Patching -/

/-- Seeking back to a field and writing it. -/
theorem patch_fileView {pre mid post : List UInt8} {off : ℤ} (hoff : off = pre.length)
    (hlen : bs.length = mid.length)
    (hmax : (pre ++ (mid ++ post)).length < 2 ^ 63) {α : Type} (k : Io (Subview File) α) :
    (do let _ ← seek off .beg; let _ ← writeObj bs; k) (fileView (pre ++ (mid ++ post)) p 0) =
      k (fileView (pre ++ (bs ++ post)) (pre.length + bs.length) 0) := by
  subst hoff
  simp only [List.length_append] at hmax
  have hseek : (fileView (pre ++ (mid ++ post)) p 0).seek pre.length .beg = _ :=
    seek_fileView pre.length pre.length (Nat.zero_add _).symm (le_maxPos (by omega))
  have hrun : (seek (pre.length : ℤ) .beg : Io (Subview File) ℤ)
      (fileView (pre ++ (mid ++ post)) p 0) =
      .ok ((pre.length : ℤ), fileView (pre ++ (mid ++ post)) pre.length 0) :=
    congrArg Except.ok hseek
  have hwrite : writeObj bs (fileView (pre ++ (mid ++ post)) pre.length 0) = _ :=
    writeObj_fileView (Nat.zero_le _) (le_maxPos (by omega))
  rw [overwrite_append hlen] at hwrite
  rw [run_bind, hrun, Except.bind, run_bind, hwrite, Except.bind]

/-! ## Writing blocks -/

/-- Blocks written one after the other through a view from offset `b` on. -/
theorem foldl_write_fileView : ∀ (ws : List (List UInt8)) (bytes : List UInt8),
    b ≤ bytes.length → ((bytes.length + ws.flatten.length : ℕ) : ℤ) ≤ maxPos →
    ws.foldl (fun s bs => (Subview.write bs s).2) (fileView bytes bytes.length b) =
      fileView (bytes ++ ws.flatten) (bytes ++ ws.flatten).length b
  | [], bytes, _, _ => by rw [List.flatten_nil, List.append_nil]; rfl
  | bs :: ws, bytes, hb, hmax => by
    rw [List.flatten_cons, List.length_append] at hmax
    have hwrite : (fileView bytes bytes.length b).write bs = _ := write_fileView hb (by omega)
    have hlen : (bytes ++ bs).length = bytes.length + bs.length := List.length_append
    rw [overwrite_end, ← hlen] at hwrite
    rw [List.foldl_cons, hwrite, foldl_write_fileView ws (bytes ++ bs) (by omega) (by omega),
      List.flatten_cons, List.append_assoc]

end

end NiMedia
