/-
  Runs of `container_sink` (`device/container.h`).

  A write overwrites what there is behind the position and appends the rest; but
  where only a part of it overwrites, `write` inserts all of it at the end.

  * `container_sink_iff`: a run keeps to what a byte file does iff no write of
    it begins inside of the container and ends behind its end.
-/
import NiMedia.Lib.Machine
import NiMedia.Iostreams.Device

namespace NiMedia

open Bytes Machine

/-- The calls on a sink. -/
inductive SinkCall where
  | write (s : List UInt8)
  | seek (off : ℤ) (way : SeekDir)

/-- A call on `container_sink`, with the count or the position that it returns. -/
def Container.sinkStep (c : Container) : SinkCall → ℤ × Container
  | .write s => ((c.write s).1.elim (-1) Nat.cast, (c.write s).2)
  | .seek off way => c.seek off way

/-- A write of a byte file: `s` stands at the old position, over what was there
    or behind the end; the rest is as it was. -/
def writesFile (c : Container) : SinkCall → Prop
  | .write s =>
    (c.sinkStep (.write s)).1 = s.length ∧
      (c.sinkStep (.write s)).2.container =
        c.container.take c.pos ++ s ++ c.container.drop (c.pos + s.length) ∧
      (c.sinkStep (.write s)).2.pos = c.pos + s.length
  | .seek _ _ => True

/-- A write from inside of the container to behind its end. -/
def straddles (c : Container) : SinkCall → Prop
  | .write s => c.pos < c.container.length ∧ c.container.length < c.pos + s.length
  | .seek _ _ => False

/-- What is overwritten by a write that straddles the end is all behind the
    position. -/
theorem Container.write_straddles {s : List UInt8} {c : Container} (h : straddles c (.write s)) :
    (c.write s).2.container =
      c.container.take c.pos ++ (s.take (c.container.length - c.pos) ++ s) := by
  obtain ⟨h1, h2⟩ := h
  have hres : c.overwritten s = c.container.length - c.pos := by
    rw [overwritten, if_pos (by omega), Nat.min_eq_right (by omega)]
  have hlt : c.overwritten s < s.length := by omega
  have hover : overwrite c.container c.pos (s.take (c.container.length - c.pos)) =
      c.container.take c.pos ++ s.take (c.container.length - c.pos) := by
    have hpad : c.pos - c.container.length = 0 := by omega
    have hdrop : c.container.drop (c.pos + (c.container.length - c.pos)) = [] :=
      List.drop_eq_nil_of_le (by omega)
    have hmin : min (c.container.length - c.pos) s.length = c.container.length - c.pos := by omega
    rw [overwrite, hpad, List.replicate_zero, List.nil_append, List.length_take, hmin, hdrop,
      List.append_nil]
  simp only [write, if_pos hlt]
  rw [hres, hover, List.append_assoc]

theorem Container.write_not_straddles {s : List UInt8} {c : Container}
    (h : ¬ straddles c (.write s)) :
    (c.write s).2.container =
        c.container.take c.pos ++ s ++ c.container.drop (c.pos + s.length) ∧
      (c.write s).2.pos = c.pos + s.length := by
  have hle := c.pos_le
  by_cases hend : c.pos = c.container.length
  · -- all of it is appended
    have hres : c.overwritten s = 0 := if_neg (not_not.2 hend)
    have hcopy : overwrite c.container c.pos (s.take 0) = c.container := by
      rw [List.take_zero, hend, overwrite_end, List.append_nil]
    have hdrop : c.container.drop (c.pos + s.length) = [] := List.drop_eq_nil_of_le (by omega)
    rw [hdrop, List.append_nil, hend, List.take_length]
    simp only [write, hres]
    by_cases hs : 0 < s.length
    · rw [if_pos hs]
      simp only [hcopy, List.length_append, true_and]
    · have hnil : s = [] := List.length_eq_zero_iff.1 (by omega)
      subst hnil
      rw [if_neg hs]
      simp only [hcopy, List.append_nil, true_and]
      simpa using hend
  · -- all of it overwrites
    have hin : c.pos + s.length ≤ c.container.length := by
      by_contra hlt
      exact h ⟨by omega, by omega⟩
    have hres : c.overwritten s = s.length := by
      rw [overwritten, if_pos hend, Nat.min_eq_left (by omega)]
    have hpad : c.pos - c.container.length = 0 := by omega
    simp only [write, hres, Nat.lt_irrefl, if_false, List.take_length]
    rw [overwrite, hpad, List.replicate_zero, List.nil_append, List.append_assoc]
    exact ⟨rfl, trivial⟩

theorem writesFile_iff (c : Container) (call : SinkCall) :
    writesFile c call ↔ ¬ straddles c call := by
  cases call with
  | seek off way => exact ⟨fun _ h => h, fun _ => trivial⟩
  | write s =>
    have hcount : (c.sinkStep (.write s)).1 = s.length := by
      simp only [Container.sinkStep, Container.write]
      split_ifs <;> rfl
    constructor
    · rintro ⟨-, hfile, -⟩ hs
      -- too many bytes
      have hlong := congrArg List.length (Container.write_straddles hs)
      obtain ⟨h1, h2⟩ := hs
      have hfile' := congrArg List.length hfile
      change (c.write s).2.container.length = _ at hfile'
      rw [hlong] at hfile'
      simp only [List.length_append, List.length_take, List.length_drop] at hfile'
      omega
    · intro hs
      exact ⟨hcount, Container.write_not_straddles hs⟩

/-- **Byte files.**  In a run from any container, the writes are those of a byte
    file iff none of them straddles the end. -/
theorem container_sink_iff (container : List UInt8) (calls : List SinkCall) :
    Along Container.sinkStep writesFile (Container.mk' container) calls ↔
      Along Container.sinkStep (fun c call => ¬ straddles c call) (Container.mk' container)
        calls :=
  along_congr writesFile_iff _ _

/-- Three bytes from the last one of three on: five are due, and six are left. -/
theorem container_sink_duplicates :
    ¬ Along Container.sinkStep writesFile (Container.mk' [0x61, 0x62, 0x63])
      [.seek 2 .beg, .write [0x78, 0x79, 0x7A]] := by
  rintro ⟨-, ⟨-, hfile, -⟩, -⟩
  exact absurd hfile (by decide)

end NiMedia
