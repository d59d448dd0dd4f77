/-
  Sources as open files: a position in a byte string.

  Decoders read a source through callbacks, as they read a file.  `OpenFile` is
  what they expect, and `OpenFile.At` says that a source stands where the file
  does, with a rule for each call.  A seek behind the end lands where the source
  lets it (`land`).
-/
import NiMedia.Iostreams.View
import NiMedia.Os.CoreAudio

namespace NiMedia

open Bytes Words

/-! ## Sources that tell their end -/

class SizedSource (δ : Type) extends ExactSource δ where
  seek_end : ∀ d, (bytes d).length ≤ maxPos → (seek 0 .end_ d).1 = (bytes d).length ∧
    bytes (seek 0 .end_ d).2 = bytes d ∧ pos (seek 0 .end_ d).2 = (bytes d).length

instance : SizedSource Container where
  seek_end c hc := by
    -- by rewriting: the seek must not be evaluated
    have hbytes : ∀ d : Container, ExactSource.bytes d = d.container := fun _ => rfl
    have hpos : ∀ d : Container, ExactSource.pos d = d.pos := fun _ => rfl
    have hseek : Device.seek 0 .end_ c = c.seek 0 .end_ := rfl
    rw [hbytes] at hc
    rw [hseek, hbytes, hbytes, hpos]
    exact c.seek_end hc

theorem File.seek_end (f : File) :
    Device.seek 0 .end_ f = ((f.bytes.length : ℤ), { f with pos := f.bytes.length }) := by
  have hneg : ¬ (f.bytes.length : ℤ) < 0 := by omega
  simp only [Device.seek, File.seek, add_zero, if_neg hneg, Int.toNat_natCast]

theorem File.sized (f : File) (_ : (ExactSource.bytes f).length ≤ maxPos) :
    (Device.seek 0 .end_ f).1 = (ExactSource.bytes f).length ∧
      ExactSource.bytes (Device.seek 0 .end_ f).2 = ExactSource.bytes f ∧
      ExactSource.pos (Device.seek 0 .end_ f).2 = (ExactSource.bytes f).length := by
  rw [File.seek_end]
  exact ⟨rfl, rfl, rfl⟩

instance : SizedSource File where
  seek_end := File.sized

/-! ## Open files -/

structure OpenFile where
  bytes : List UInt8
  pos : ℕ

namespace OpenFile

def opened (bytes : List UInt8) : OpenFile := ⟨bytes, 0⟩

/-- The next bytes. -/
def next (n : ℕ) (f : OpenFile) : List UInt8 := slice f.bytes f.pos n

def skip (n : ℕ) (f : OpenFile) : OpenFile := { f with pos := f.pos + (f.next n).length }

def moveTo (q : ℕ) (f : OpenFile) : OpenFile := { f with pos := q }

/-- The source shows the file, from the position of the file on. -/
structure At {σ : Type} [SizedSource σ] (f : OpenFile) (s : σ) : Prop where
  bytes : ExactSource.bytes s = f.bytes
  pos : ExactSource.pos s = f.pos
  pos_le : f.pos ≤ maxPos
  length_le : f.bytes.length ≤ maxPos

section
variable {σ : Type} [SizedSource σ] {f : OpenFile} {s : σ}

theorem at_opened (hpos : ExactSource.pos s = 0) (hlength : (ExactSource.bytes s).length ≤ maxPos) :
    (opened (ExactSource.bytes s)).At s :=
  ⟨rfl, hpos, le_maxPos (n := 0) (by norm_num), hlength⟩

theorem At.tell (h : f.At s) :
    (Device.seek 0 .cur s).1 = f.pos ∧ f.At (Device.seek 0 .cur s).2 := by
  obtain ⟨h1, h2, h3⟩ := ExactSource.tell_eq s (by rw [h.pos]; exact h.pos_le)
  rw [h.bytes] at h2
  rw [h.pos] at h1 h3
  exact ⟨h1, h2, h3, h.pos_le, h.length_le⟩

/-- A read moves the position, to the end at most. -/
theorem At.read (h : f.At s) (n : ℕ) :
    (Source.read n s).1 = deliver (f.next n) ∧ (f.skip n).At (Source.read n s).2 := by
  obtain ⟨h1, h2, h3⟩ := ExactSource.read_eq n s
  rw [h.bytes, h.pos] at h1 h3
  have hlen := length_slice_min f.bytes f.pos n
  have hpos := h.pos_le
  have hlength := h.length_le
  refine ⟨h1, h2.trans h.bytes, h3, ?_, hlength⟩
  simp only [skip, next]
  omega

theorem At.seek (h : f.At s) {q : ℕ} (hq : q ≤ maxPos) :
    (Device.seek q .beg s).1 = ExactSource.land σ f.bytes q ∧
      (f.moveTo (ExactSource.land σ f.bytes q)).At (Device.seek q .beg s).2 := by
  obtain ⟨h1, h2, h3⟩ := ExactSource.seek_eq q s hq
  rw [h.bytes] at h1 h2 h3
  refine ⟨h1, h2, h3, ?_, h.length_le⟩
  have hlength := h.length_le
  rcases ExactSource.land_eq (δ := σ) with hland | hland
  · simp only [moveTo, hland]
    exact hq
  · simp only [moveTo, hland]
    omega

theorem At.toEnd (h : f.At s) :
    (Device.seek 0 .end_ s).1 = f.bytes.length ∧
      (f.moveTo f.bytes.length).At (Device.seek 0 .end_ s).2 := by
  have hlength := h.length_le
  obtain ⟨h1, h2, h3⟩ := SizedSource.seek_end s (by rw [h.bytes]; exact hlength)
  rw [h.bytes] at h1 h2 h3
  exact ⟨h1, h2, h3, hlength, hlength⟩

/-- A seek to the position changes nothing. -/
theorem At.land_pos (h : f.At s) : ExactSource.land σ f.bytes f.pos = f.pos := by
  rw [← h.bytes, ← h.pos]
  exact ExactSource.land_pos s

end

end OpenFile

end NiMedia
