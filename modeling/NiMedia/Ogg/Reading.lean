/-
  What a read of the Ogg Vorbis source delivers.

  * `delivered_iff`: a read delivers the bytes to come, and reports the end of
    the stream only there, unless it meets a hole before any bytes.
  * `reads_in_order`: no byte is lost in a run.
-/
import NiMedia.Ogg.Source

namespace NiMedia

open Words

namespace Ogg

section
variable {δ : Type} (D : Decoder δ)

/-- What a read of `size` bytes is to do: deliver bytes of those to come, in
    order, and nothing only at the end. -/
structure Delivered (size : ℕ) (d d' : δ) (s s' : Source δ) (out : List UInt8) : Prop where
  file : s'.vorbisFile = some d'
  length_le : out.length ≤ size
  in_order : D.toCome d = out ++ D.toCome d'
  pos : s'.pos = s.pos + out.length
  at_end : out = [] → D.toCome d = []

/-- The read meets a hole at first. -/
def Interrupted (size : ℕ) (d : δ) : Prop :=
  (D.ovRead (request (wrap 32 size)) d).1 = .code ovHole

variable {D} {requested : ℤ} {out bs : List UInt8} {d d' : δ}

/-! ## The loop -/

theorem readLoop_bytes (h : D.ovRead (request requested) d = (.bytes bs, d')) :
    readLoop D requested out d = readLoop D (requested - bs.length) (out ++ bs) d' := by
  rw [readLoop]
  split
  · rename_i h'
    rw [h] at h'
    cases h'
    rfl
  · rename_i h'
    rw [h] at h'
    cases h'

theorem readLoop_code {c : ℤ} (h : D.ovRead (request requested) d = (.code c, d')) :
    readLoop D requested out d = (out, d') := by
  rw [readLoop]
  split
  · rename_i h'
    rw [h] at h'
    cases h'
  · rename_i h'
    rw [h] at h'
    cases h'
    rfl

/-- The loop delivers bytes to come in their order, and not more than asked for. -/
theorem readLoop_spec (out : List UInt8) (d : δ) (hreq : 0 ≤ requested) :
    ∃ bs d', readLoop D requested out d = (out ++ bs, d') ∧ (bs.length : ℤ) ≤ requested ∧
      D.toCome d = bs ++ D.toCome d' := by
  induction requested, out, d using readLoop.induct D with
  | case1 requested out d bs d' h ih =>
    obtain ⟨-, hle, hcome⟩ := D.read_bytes h
    have hlen := hle.trans (request_le requested)
    obtain ⟨bs', d'', hout, hle', hcome'⟩ := ih (by omega)
    refine ⟨bs ++ bs', d'', ?_, ?_, ?_⟩
    · rw [readLoop_bytes h, hout, List.append_assoc]
    · rw [List.length_append]
      omega
    · rw [hcome, hcome', List.append_assoc]
  | case2 requested out d c d' h =>
    refine ⟨[], d', ?_, by simpa using hreq, (D.read_code h).2.1.symm⟩
    rw [readLoop_code h, List.append_nil]

/-- What the loop delivers in all begins with what it delivers at first. -/
theorem readLoop_eq_nil_iff :
    (readLoop D requested [] d).1 = [] ↔
      ∃ c d', D.ovRead (request requested) d = (.code c, d') := by
  rcases h : D.ovRead (request requested) d with ⟨bs | c, d'⟩
  · obtain ⟨hne, hle, -⟩ := D.read_bytes h
    have hlen := hle.trans (request_le requested)
    obtain ⟨bs', d'', hout, -, -⟩ :=
      readLoop_spec (D := D) ([] ++ bs) d' (show 0 ≤ requested - bs.length by omega)
    rw [readLoop_bytes h, hout]
    simp [hne]
  · rw [readLoop_code h]
    simp

/-- A request that is not positive brings nothing. -/
theorem readLoop_of_nonpos (out : List UInt8) (d : δ) (hreq : requested ≤ 0) :
    ∃ d', readLoop D requested out d = (out, d') ∧ D.toCome d' = D.toCome d := by
  rcases h : D.ovRead (request requested) d with ⟨bs | c, d'⟩
  · obtain ⟨hne, hle, -⟩ := D.read_bytes h
    have hpos := List.length_pos_iff.2 hne
    have hlen := hle.trans (request_le requested)
    omega
  · exact ⟨d', readLoop_code h, (D.read_code h).2.1⟩

/-! ## Reads -/

variable {s : Source δ} {size : ℕ}

theorem read_eq (hs : s.vorbisFile = some d)
    (hloop : readLoop D (wrap 32 size) [] d = (out, d')) :
    read D size s = (out, ⟨some d', wrap 64 (s.pos + out.length)⟩) := by
  simp only [read, hs, hloop]

theorem read_eq_nil_iff (hs : s.vorbisFile = some d) :
    (read D size s).1 = [] ↔
      ∃ c d', D.ovRead (request (wrap 32 size)) d = (.code c, d') := by
  rw [← readLoop_eq_nil_iff]
  rcases hloop : readLoop D (wrap 32 size) [] d with ⟨out, d'⟩
  rw [read_eq hs hloop]

/-- Whatever the decoder meets, a read delivers the next bytes, and its position
    advances by them. -/
theorem read_spec (size : ℕ) (hs : s.vorbisFile = some d) (hpos : 0 ≤ s.pos)
    (hfits : s.pos + (D.toCome d).length < 2 ^ 63) :
    ∃ d', (read D size s).2.vorbisFile = some d' ∧ (read D size s).1.length ≤ size ∧
      D.toCome d = (read D size s).1 ++ D.toCome d' ∧
      (read D size s).2.pos = s.pos + (read D size s).1.length := by
  have hloop : ∃ bs d', readLoop D (wrap 32 size) [] d = (bs, d') ∧ bs.length ≤ size ∧
      D.toCome d = bs ++ D.toCome d' := by
    rcases lt_or_ge (wrap 32 size) 0 with hneg | hnonneg
    · obtain ⟨d', hread, hcome⟩ := readLoop_of_nonpos (D := D) [] d hneg.le
      exact ⟨[], d', hread, Nat.zero_le _, hcome.symm⟩
    · obtain ⟨bs, d', hread, hle, hcome⟩ := readLoop_spec (D := D) [] d hnonneg
      have hcast : wrap 32 size ≤ size := (wrap_natCast 31 size).1
      exact ⟨bs, d', hread, by omega, hcome⟩
  obtain ⟨bs, d', hread, hle, hcome⟩ := hloop
  have hlen := congrArg List.length hcome
  rw [List.length_append] at hlen
  rw [read_eq hs hread]
  exact ⟨d', rfl, hle, hcome, wrap_of_range (by omega) (by omega)⟩

/-- **Ends.**  A read is right iff no bytes are to come, or it asks for a
    positive number of bytes as an `int` and does not meet a hole at first. -/
theorem delivered_iff (hs : s.vorbisFile = some d) (hpos : 0 ≤ s.pos)
    (hfits : s.pos + (D.toCome d).length < 2 ^ 63) :
    (∃ d', Delivered D size d d' s (read D size s).2 (read D size s).1) ↔
      D.toCome d = [] ∨ 0 < wrap 32 size ∧ ¬ Interrupted D size d := by
  obtain ⟨d', hfile, hle, hcome, hpos'⟩ := read_spec size hs hpos hfits
  have hdel : (∃ d', Delivered D size d d' s (read D size s).2 (read D size s).1) ↔
      ((read D size s).1 = [] → D.toCome d = []) := by
    constructor
    · rintro ⟨_, h⟩
      exact h.at_end
    · intro h
      exact ⟨d', hfile, hle, hcome, hpos', h⟩
  rw [hdel, read_eq_nil_iff hs]
  constructor
  · intro h
    by_cases hcome : D.toCome d = []
    · exact .inl hcome
    · refine .inr ⟨?_, ?_⟩
      · by_contra hreq
        rcases hret : D.ovRead (request (wrap 32 size)) d with ⟨bs | c, d''⟩
        · obtain ⟨hne, hlen, -⟩ := D.read_bytes hret
          have hpos := List.length_pos_iff.2 hne
          have hmax := request_le (wrap 32 size)
          omega
        · exact hcome (h ⟨c, d'', hret⟩)
      · intro hint
        exact hcome (h ⟨ovHole, (D.ovRead (request (wrap 32 size)) d).2, Prod.ext hint rfl⟩)
  · rintro (hnil | ⟨hreq, hint⟩) ⟨c, d'', hret⟩
    · exact hnil
    · rcases (D.read_code hret).2.2 (request_pos.2 hreq) with hhole | ⟨-, hnil⟩
      · exact absurd (by rw [Interrupted, hret, hhole]) hint
      · exact hnil

/-- Reads of these sizes, one after the other. -/
def reads (D : Decoder δ) : List ℕ → Source δ → List UInt8 × Source δ
  | [], s => ([], s)
  | size :: sizes, s =>
    let first := read D size s
    let others := reads D sizes first.2
    (first.1 ++ others.1, others.2)

/-- **No byte is lost.**  In a run, too, the bytes come in their order. -/
theorem reads_in_order (sizes : List ℕ) (hs : s.vorbisFile = some d) (hpos : 0 ≤ s.pos)
    (hfits : s.pos + (D.toCome d).length < 2 ^ 63) :
    ∃ d', (reads D sizes s).2.vorbisFile = some d' ∧
      D.toCome d = (reads D sizes s).1 ++ D.toCome d' ∧
      (reads D sizes s).2.pos = s.pos + (reads D sizes s).1.length := by
  induction sizes generalizing s d with
  | nil => exact ⟨d, hs, rfl, (Int.add_zero _).symm⟩
  | cons size sizes ih =>
    obtain ⟨d', hfile, -, hcome, hpos'⟩ := read_spec size hs hpos hfits
    have hlen := congrArg List.length hcome
    rw [List.length_append] at hlen
    obtain ⟨d'', hfile', hcome', hpos''⟩ := ih hfile (by omega) (by omega)
    refine ⟨d'', hfile', ?_, ?_⟩
    · rw [hcome, hcome', ← List.append_assoc]
      rfl
    · simp only [reads, List.length_append]
      omega

end

/-! ## A stream with a hole -/

/-- `OV_EINVAL`. -/
def ovEinval : ℤ := -131

/-- What a stream is made of. -/
inductive Item where
  | packet (b : UInt8) (bs : List UInt8)
  | hole

def Item.bytes : Item → List UInt8
  | packet b bs => b :: bs
  | hole => []

/-- What is left of a packet. -/
def Item.ofBytes : List UInt8 → List Item
  | [] => []
  | b :: bs => [packet b bs]

theorem flatMap_ofBytes (bs : List UInt8) : (Item.ofBytes bs).flatMap Item.bytes = bs := by
  cases bs with
  | nil => rfl
  | cons b bs => exact List.append_nil _

/-- A request of a positive length. -/
def readItems (n : ℕ) : List Item → Ret × List Item
  | [] => (.code 0, [])
  | .hole :: rest => (.code ovHole, rest)
  | .packet b bs :: rest => (.bytes ((b :: bs).take n), Item.ofBytes ((b :: bs).drop n) ++ rest)

/-- A decoder of the stream. -/
def items : Decoder (List Item) where
  ovRead n d := if n ≤ 0 then (.code ovEinval, d) else readItems n.toNat d
  ovPcmSeek _ d := (ovEinval, d)
  toCome d := d.flatMap Item.bytes
  read_bytes := by
    intro n d bs d' h
    by_cases hn : n ≤ 0
    · rw [if_pos hn] at h
      cases h
    · rw [if_neg hn] at h
      rcases d with _ | ⟨⟨b, bs⟩ | _, rest⟩
      · cases h
      · cases h
        refine ⟨?_, ?_, ?_⟩
        · rw [← List.length_pos_iff, List.length_take, List.length_cons]
          omega
        · rw [List.length_take]
          omega
        · rw [List.flatMap_append, flatMap_ofBytes, ← List.append_assoc, List.take_append_drop]
          rfl
      · cases h
  read_code := by
    intro n d c d' h
    by_cases hn : n ≤ 0
    · rw [if_pos hn] at h
      cases h
      exact ⟨show ovEinval ≤ 0 by decide, rfl, fun hpos => absurd hpos (by omega)⟩
    · rw [if_neg hn] at h
      rcases d with _ | ⟨⟨b, bs⟩ | _, rest⟩
      · cases h
        exact ⟨le_rfl, rfl, fun _ => .inr ⟨rfl, rfl⟩⟩
      · cases h
      · cases h
        exact ⟨show ovHole ≤ 0 by decide, rfl, fun _ => .inl rfl⟩

theorem delivered_packet : ∃ d', Delivered items 2 [.packet 1 [2, 3, 4]] d'
    (opened [.packet 1 [2, 3, 4]]) (read items 2 (opened [.packet 1 [2, 3, 4]])).2
    (read items 2 (opened [.packet 1 [2, 3, 4]])).1 :=
  (delivered_iff rfl (by decide) (by decide)).2 (.inr ⟨by decide, by
    intro h
    cases h⟩)

/-- A hole at the beginning is reported as the end of the stream. -/
theorem hole_ends : ¬ ∃ d', Delivered items 2 [.hole, .packet 1 [2]] d'
    (opened [.hole, .packet 1 [2]]) (read items 2 (opened [.hole, .packet 1 [2]])).2
    (read items 2 (opened [.hole, .packet 1 [2]])).1 := by
  rintro ⟨d', h⟩
  have hnil : (read items 2 (opened [.hole, .packet 1 [2]])).1 = [] :=
    (read_eq_nil_iff rfl).2 ⟨ovHole, [.packet 1 [2]], rfl⟩
  exact absurd (h.at_end hnil) (by decide)

end Ogg

end NiMedia
