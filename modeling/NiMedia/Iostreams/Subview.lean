/-
  Views on devices (`iostreams/device/subview.h`), `fetch` (`iostreams/fetch.h`)
  and `write_obj` (`iostreams/write_obj.h`).

  A view that has not been narrowed delivers the bytes of its device.  What a
  reader fetches from a source that delivers the bytes of a content is what it
  fetches from a file of these bytes: `Sim (Rel B) (Same (Rel B))` relates the
  two, and every reader in this development is shown to be so related to itself.
-/
import NiMedia.Lib.Simulation
import NiMedia.Pcm.Format
import NiMedia.Iostreams.Device

namespace NiMedia

open Bytes Words Simulation

/-! ## Views -/

/-- `subview_device`. -/
structure Subview (δ : Type) where
  device : δ
  beg : ℤ := 0
  end_ : ℤ := maxPos

namespace Subview

variable {δ : Type}

def size (s : Subview δ) : ℤ := s.end_ - s.beg

def setView (beg : ℤ) (end_ : ℤ) (s : Subview δ) : Subview δ := { s with beg, end_ }

section
variable [Device δ]

def seek (off : ℤ) (way : SeekDir) (s : Subview δ) : ℤ × Subview δ :=
  let (oldPos, device) := Device.seek 0 .cur s.device
  let newPos := absolutePosition oldPos s.beg s.end_ off way
  let (pos, device) := Device.seek newPos .beg device
  (pos - s.beg, { s with device })

def tell (s : Subview δ) : ℤ × Subview δ := s.seek 0 .cur

end

/-- `subview_source::read`. -/
def read [Source δ] (n : ℕ) (s : Subview δ) : Option (List UInt8) × Subview δ :=
  let (pos, s) := s.tell
  if pos = -1 ∨ s.size < pos then (none, s)
  else
    let (r, device) := Source.read (min n (s.size - pos).toNat) s.device
    (r, { s with device })

/-- `subview_sink::write`. -/
def write [Sink δ] (bs : List UInt8) (s : Subview δ) : Option ℕ × Subview δ :=
  let (pos, s) := s.tell
  if pos = -1 ∨ s.size < pos then (none, s)
  else
    let (r, device) := Sink.write (bs.take (min bs.length (s.size - pos).toNat)) s.device
    (r, { s with device })

instance [Device δ] : Device (Subview δ) where
  seek := seek

instance [Source δ] : Source (Subview δ) where
  read := read

end Subview

section
variable {δ : Type} [ByteSource δ] {B : Content} {p : ℕ} {s : Subview δ}

/-- The view is all of the device. -/
def Subview.WholeAt (B : Content) (p : ℕ) (s : Subview δ) : Prop :=
  ByteSource.At B p s.device ∧ s.beg = 0 ∧ s.end_ = maxPos

theorem absolutePosition_whole_beg {pos : ℤ} {q : ℕ} (hq : q ≤ maxPos) :
    absolutePosition pos 0 maxPos q .beg = q := by
  unfold maxPos at *
  rw [absolutePosition_beg (by omega) (by omega), clamp_of_le (by omega) (by omega)]
  omega

theorem absolutePosition_whole_cur {pos : ℤ} {d : ℕ} (h0 : 0 ≤ pos) (h : pos + d ≤ maxPos) :
    absolutePosition pos 0 maxPos d .cur = pos + d := by
  unfold maxPos at *
  rw [absolutePosition_cur (by omega) (by omega), clamp_of_le (by omega) (by omega)]

theorem Subview.seek_beg_at (q : ℕ) (h : WholeAt B p s) (hq : q ≤ maxPos) :
    ∃ r s', s.seek q .beg = (r, s') ∧ (q ≤ B.bytes.length → r = q ∧ WholeAt B q s') ∧
      (B.bytes.length ≤ q → B.bytes.length ≤ r ∧ r ≤ maxPos ∧
        ∀ p', B.bytes.length < p' → WholeAt B p' s') := by
  obtain ⟨device, beg, end_⟩ := s
  obtain ⟨hat, hbeg, hend⟩ := h
  obtain rfl : beg = 0 := hbeg
  obtain rfl : end_ = maxPos := hend
  obtain ⟨r₁, d₁, h₁, hat₁, -, -⟩ := ByteSource.tell_at hat
  obtain ⟨r₂, d₂, h₂, hin, hout⟩ := ByteSource.seek_beg_at q hat₁ hq
  refine ⟨r₂, ⟨d₂, 0, maxPos⟩, ?_, fun hle => ?_, fun hge => ?_⟩
  · simp only [Subview.seek, h₁, absolutePosition_whole_beg hq, h₂, sub_zero]
  · exact ⟨(hin hle).1, (hin hle).2, rfl, rfl⟩
  · exact ⟨(hout hge).1, (hout hge).2.1, fun p' hp' => ⟨(hout hge).2.2 p' hp', rfl, rfl⟩⟩

theorem Subview.tell_at (h : WholeAt B p s) : ∃ r s', s.tell = (r, s') ∧ WholeAt B p s' ∧
    (p ≤ B.bytes.length → r = p) ∧ (B.bytes.length < p → B.bytes.length ≤ r ∧ r ≤ maxPos) := by
  obtain ⟨device, beg, end_⟩ := s
  obtain ⟨hat, hbeg, hend⟩ := h
  obtain rfl : beg = 0 := hbeg
  obtain rfl : end_ = maxPos := hend
  obtain ⟨r₁, d₁, h₁, hat₁, hin₁, hout₁⟩ := ByteSource.tell_at hat
  have hlen := B.length_le
  -- the position told is sought again
  have hr₁ : 0 ≤ r₁ ∧ r₁ ≤ maxPos := by
    rcases Nat.lt_or_ge B.bytes.length p with hp | hp
    · have := hout₁ hp; omega
    · rw [hin₁ hp]; omega
  obtain ⟨q, rfl⟩ := Int.eq_ofNat_of_zero_le hr₁.1
  obtain ⟨r₂, d₂, h₂, hin₂, hout₂⟩ := ByteSource.seek_beg_at q hat₁ hr₁.2
  have habs : absolutePosition (q : ℤ) 0 maxPos 0 .cur = q :=
    (absolutePosition_whole_cur (d := 0) hr₁.1 (by simpa using hr₁.2)).trans (add_zero _)
  refine ⟨r₂, ⟨d₂, 0, maxPos⟩, ?_, ?_, fun hp => ?_, fun hp => ?_⟩
  · simp only [Subview.tell, Subview.seek, h₁, habs, h₂, sub_zero]
  · rcases Nat.lt_or_ge B.bytes.length p with hp | hp
    · have hge := (hout₁ hp).1
      exact ⟨(hout₂ (by omega)).2.2 p hp, rfl, rfl⟩
    · obtain rfl : q = p := by have := hin₁ hp; omega
      exact ⟨(hin₂ hp).2, rfl, rfl⟩
  · obtain rfl : q = p := by have := hin₁ hp; omega
    exact (hin₂ hp).1
  · have hge := (hout₁ hp).1
    exact ⟨(hout₂ (by omega)).1, (hout₂ (by omega)).2.1⟩

theorem Subview.read_at (n : ℕ) (h : WholeAt B p s) : ∃ s',
    s.read n = (deliver (slice B.bytes p n), s') ∧
      WholeAt B (p + (slice B.bytes p n).length) s' := by
  obtain ⟨r, ⟨device, beg, end_⟩, htell, ⟨hat, hbeg, hend⟩, hin, hout⟩ := Subview.tell_at h
  obtain rfl : beg = 0 := hbeg
  obtain rfl : end_ = maxPos := hend
  have hlen := B.length_le
  have hr : 0 ≤ r ∧ r ≤ maxPos := by
    rcases Nat.lt_or_ge B.bytes.length p with hp | hp
    · have := hout hp; omega
    · rw [hin hp]; omega
  have hguard : ¬ (r = -1 ∨ maxPos - 0 < r) := by omega
  -- the view ends behind the bytes, so it does not cut them
  have hcut : slice B.bytes p (min n (maxPos - 0 - r).toNat) = slice B.bytes p n := by
    rcases Nat.lt_or_ge B.bytes.length p with hp | hp
    · rw [slice_of_length_le hp.le, slice_of_length_le hp.le]
    · have hr := hin hp
      rw [slice, slice, List.take_eq_take_iff, List.length_drop]
      omega
  obtain ⟨d', hread, hat'⟩ := ByteSource.read_at (min n (maxPos - 0 - r).toNat) hat
  rw [hcut] at hread hat'
  refine ⟨⟨d', 0, maxPos⟩, ?_, hat', rfl, rfl⟩
  simp only [Subview.read, htell, Subview.size, if_neg hguard, hread]

theorem Subview.seek_cur_at (d : ℕ) (h : WholeAt B p s) (hp : p ≤ B.bytes.length)
    (hq : (p + d : ℕ) ≤ maxPos) : ∃ r s', s.seek d .cur = (r, s') ∧ WholeAt B (p + d) s' := by
  obtain ⟨device, beg, end_⟩ := s
  obtain ⟨hat, hbeg, hend⟩ := h
  obtain rfl : beg = 0 := hbeg
  obtain rfl : end_ = maxPos := hend
  obtain ⟨r₁, d₁, h₁, hat₁, hin₁, -⟩ := ByteSource.tell_at hat
  obtain rfl : r₁ = p := hin₁ hp
  obtain ⟨r₂, d₂, h₂, hin₂, hout₂⟩ := ByteSource.seek_beg_at (p + d) hat₁ hq
  have habs : absolutePosition (p : ℤ) 0 maxPos d .cur = (p + d : ℕ) :=
    absolutePosition_whole_cur (by omega) (by omega)
  refine ⟨r₂, ⟨d₂, 0, maxPos⟩, ?_, ?_, rfl, rfl⟩
  · simp only [Subview.seek, h₁, habs, h₂, sub_zero]
  · rcases Nat.lt_or_ge B.bytes.length (p + d) with hp' | hp'
    · exact (hout₂ hp'.le).2.2 _ hp'
    · exact (hin₂ hp').2

/-- **A whole view** delivers the bytes of its device. -/
instance : ByteSource (Subview δ) where
  At := Subview.WholeAt
  read_at n h := Subview.read_at n h
  tell_at h := Subview.tell_at h
  seek_beg_at q h hq := Subview.seek_beg_at q h hq
  seek_cur_at d h hp hq := Subview.seek_cur_at d h hp hq

end

/-! ## Fetching -/

/-- Programs over a device that may throw. -/
abbrev Io (σ : Type) := StateT σ (Except RuntimeError)

/-- The object representation of a trivially copyable type. -/
structure Layout (α : Type) where
  size : ℕ
  size_pos : 0 < size
  decode : List UInt8 → α

section
variable {σ α β γ : Type}

/-- `throw std::runtime_error( what )`. -/
def raise (what : String) : Io σ α := throw ⟨what⟩

def seek [Device σ] (off : ℤ) (way : SeekDir) : Io σ ℤ := fun s => .ok (Device.seek off way s)

def tell {δ : Type} [Device δ] : Io (Subview δ) ℤ := fun s => .ok s.tell

def readBytes [Source σ] (n : ℕ) : Io σ (Option (List UInt8)) := fun s => .ok (Source.read n s)

/-- `fetch( src, arg )`: fails (`none`) unless all bytes are read. -/
def fetch [Source σ] (L : Layout α) : Io σ (Option α) := do
  let r ← readBytes L.size
  pure (r.bind fun bs => if bs.length = L.size then some (L.decode bs) else none)

/-- `fetch( src, arg1, arg2 )`: both are read, whether or not the first is. -/
def fetch₂ [Source σ] (L : Layout α) (M : Layout β) : Io σ (Option (α × β)) := do
  let a ← fetch L
  let b ← fetch M
  pure (a.bind fun a => b.map fun b => (a, b))

/-- `fetch( src, arg1, arg2, arg3 )`. -/
def fetch₃ [Source σ] (L : Layout α) (M : Layout β) (N : Layout γ) :
    Io σ (Option (α × β × γ)) := do
  let a ← fetch L
  let b ← fetch M
  let c ← fetch N
  pure (a.bind fun a => b.bind fun b => c.map fun c => (a, b, c))

/-- `write_obj( sink, arg )`, where `bs` are the bytes of the object. -/
def writeObj {δ : Type} [Sink δ] (bs : List UInt8) : Io (Subview δ) Bool := fun s =>
  let (r, s) := s.write bs
  .ok (decide (r = some bs.length), s)

/-- The object at position `p`, if there is one. -/
def Layout.get (L : Layout α) (B : List UInt8) (p : ℕ) : Option α :=
  if (slice B p L.size).length = L.size then some (L.decode (slice B p L.size)) else none

variable {L : Layout α} {B : List UInt8} {p : ℕ}

theorem Layout.get_of_le (h : p + L.size ≤ B.length) :
    L.get B p = some (L.decode (slice B p L.size)) := if_pos (length_slice h)

theorem Layout.get_eq_some {a : α} (h : L.get B p = some a) :
    p + L.size ≤ B.length ∧ (slice B p L.size).length = L.size ∧
      a = L.decode (slice B p L.size) := by
  unfold Layout.get at h
  split_ifs at h with hl
  have h1 := length_slice_min B p L.size
  have h2 := L.size_pos
  exact ⟨by omega, hl, (Option.some.inj h).symm⟩

theorem Layout.get_deliver (L : Layout α) (B : List UInt8) (p : ℕ) :
    ((deliver (slice B p L.size)).bind fun bs =>
      if bs.length = L.size then some (L.decode bs) else none) = L.get B p := by
  unfold deliver Layout.get
  by_cases h : slice B p L.size = []
  · have h2 := L.size_pos
    rw [if_pos h, h, if_neg (by simp only [List.length_nil]; omega)]; rfl
  · rw [if_neg h]; rfl

/-- **`fetch`** from a file. -/
theorem fetch_file (L : Layout α) (B : List UInt8) (p : ℕ) :
    fetch L (⟨B, p⟩ : File) = .ok (L.get B p, ⟨B, p + (slice B p L.size).length⟩) :=
  congrArg (fun r => Except.ok (r, _)) (L.get_deliver B p)

end

/-! ## Sources that deliver the same -/

section
variable {σ τ : Type} {R : σ → τ → Prop}

theorem liftM_sim {α : Type} (x : Except RuntimeError α) :
    Sim R (Same R) (liftM x : Io σ α) (liftM x : Io τ α) := by
  cases x with
  | error e => exact Sim.throw
  | ok a => exact Sim.pure fun s f h => ⟨rfl, h⟩

/-- Objects are fetched alike from related sources. -/
def FetchAlike [Source σ] [Source τ] (R : σ → τ → Prop) : Prop :=
  ∀ {α : Type} (L : Layout α), Sim R (Same R) (fetch L : Io σ _) (fetch L : Io τ _)

end

/-! ## Reading a source is reading a file -/

section
variable {σ α β γ : Type} [ByteSource σ] {B : Content}

/-- The source delivers the bytes of the file, from the same position on. -/
def Rel (B : Content) (s : σ) (f : File) : Prop := f.bytes = B.bytes ∧ ByteSource.At B f.pos s

/-- Related, at position `N` at most. -/
def RelUpTo (B : Content) (N : ℕ) (s : σ) (f : File) : Prop := Rel B s f ∧ f.pos ≤ N

/-- Related, and not behind the end. -/
abbrev RelIn (B : Content) : σ → File → Prop := RelUpTo B B.bytes.length

/-- Where a seek forward goes that starts not behind the end. -/
def SoughtFrom (B : Content) (s : σ) (f : File) : Prop :=
  ∃ (p d : ℕ) (s₀ : σ), ByteSource.At B p s₀ ∧ p ≤ B.bytes.length ∧ p + d ≤ 2 ^ 34 ∧
    s = (Device.seek d .cur s₀).2 ∧ f = ⟨B.bytes, p + d⟩

theorem SoughtFrom.rel {s : σ} {f : File} (h : SoughtFrom B s f) : Rel B s f := by
  obtain ⟨p, d, s₀, hat, hp, hd, rfl, rfl⟩ := h
  obtain ⟨r, s', hseek, hat'⟩ := ByteSource.seek_cur_at d hat hp (le_maxPos (by omega))
  rw [hseek]
  exact ⟨rfl, hat'⟩

/-- A file is a source of its bytes. -/
theorem rel_self {f : File} (hB : f.bytes = B.bytes) (h : f.pos ≤ B.bytes.length) : Rel B f f :=
  ⟨hB, hB, fun _ => rfl, fun h' => absurd h (by omega)⟩

/-- Bytes that have been read lie before the end. -/
theorem readBytes_simUpTo (N n : ℕ) :
    Sim (RelUpTo B N)
      (fun a s b f => a = b ∧ RelUpTo B (N + n) s f ∧ (a ≠ none → f.pos ≤ B.bytes.length))
      (readBytes n : Io σ _) (readBytes n : Io File _) := by
  rintro s ⟨_, p⟩ ⟨⟨rfl, hat⟩, hN⟩
  obtain ⟨s', hread, hat'⟩ := ByteSource.read_at n hat
  have hlen := length_slice_min B.bytes p n
  change p ≤ N at hN
  simp only [readBytes, hread]
  refine ⟨rfl, ⟨⟨rfl, hat'⟩, ?_⟩, fun hne => ?_⟩
  · change p + (slice B.bytes p n).length ≤ N + n
    omega
  · by_contra hlt
    have hnil : slice B.bytes p n = [] := by
      rw [← List.length_eq_zero_iff]
      change ¬ p + (slice B.bytes p n).length ≤ _ at hlt
      omega
    exact hne (by rw [hnil]; rfl)

theorem fetch_simUpTo (L : Layout α) (N : ℕ) :
    Sim (RelUpTo B N)
      (fun a s b f => a = b ∧ RelUpTo B (N + L.size) s f ∧ (a ≠ none → f.pos ≤ B.bytes.length))
      (fetch L : Io σ _) (fetch L : Io File _) := by
  refine (readBytes_simUpTo N L.size).bind_eq fun r => Sim.pure fun s f h => ?_
  exact ⟨rfl, h.1, fun hne => h.2 fun hnone => hne (by rw [hnone]; rfl)⟩

theorem fetch₂_simUpTo (L : Layout α) (M : Layout β) (N : ℕ) :
    Sim (RelUpTo B N)
      (fun a s b f => a = b ∧ RelUpTo B (N + (L.size + M.size)) s f ∧
        (a ≠ none → f.pos ≤ B.bytes.length))
      (fetch₂ L M : Io σ _) (fetch₂ L M : Io File _) := by
  refine (fetch_simUpTo L N).bind_eq fun a => ?_
  refine Sim.pre (fun _ _ h => h.1) ((fetch_simUpTo M (N + L.size)).bind_eq fun b => ?_)
  refine Sim.pure fun s f h => ?_
  obtain ⟨hR, hin⟩ := h
  rw [Nat.add_assoc] at hR
  refine ⟨rfl, hR, fun hne => hin ?_⟩
  rintro rfl
  cases a <;> exact hne rfl

/-- What has been fetched has been decoded. -/
theorem fetch_simOf (L : Layout α) (N : ℕ) {Q : α → Prop} (hQ : ∀ bs, Q (L.decode bs)) :
    Sim (RelUpTo B N)
      (fun a s b f => a = b ∧ Rel B s f ∧ ∀ x, a = some x →
        RelUpTo B (min (N + L.size) B.bytes.length) s f ∧ Q x)
      (fetch L : Io σ _) (fetch L : Io File _) := by
  refine (readBytes_simUpTo N L.size).bind_eq fun r => Sim.pure fun s f h => ?_
  obtain ⟨hR, hin⟩ := h
  refine ⟨rfl, hR.1, fun x hx => ?_⟩
  obtain ⟨bs, rfl, hbs⟩ := Option.bind_eq_some_iff.1 hx
  split_ifs at hbs
  obtain rfl := Option.some.inj hbs
  exact ⟨⟨hR.1, le_min hR.2 (hin nofun)⟩, hQ bs⟩

/-- From any position. -/
theorem Sim.of_upTo {n : ℕ} {m : Io σ (Option α)} {m' : Io File (Option α)}
    (h : ∀ N, Sim (RelUpTo B N)
      (fun a s b f => a = b ∧ RelUpTo B (N + n) s f ∧ (a ≠ none → f.pos ≤ B.bytes.length)) m m') :
    Sim (Rel B) (fun a s b f => a = b ∧ Rel B s f ∧ (a ≠ none → RelIn B s f)) m m' := by
  intro s f hR
  refine (h f.pos s f ⟨hR, le_rfl⟩).mono fun x y hxy => ?_
  obtain ⟨heq, hR, hin⟩ := hxy
  exact ⟨heq, hR.1, fun hne => ⟨hR.1, hin hne⟩⟩

theorem readBytes_sim (n : ℕ) :
    Sim (Rel B) (fun a s b f => a = b ∧ Rel B s f ∧ (a ≠ none → RelIn B s f))
      (readBytes n : Io σ _) (readBytes n : Io File _) :=
  Sim.of_upTo fun N => readBytes_simUpTo N n

theorem fetch_simIn (L : Layout α) :
    Sim (Rel B) (fun a s b f => a = b ∧ Rel B s f ∧ (a ≠ none → RelIn B s f))
      (fetch L : Io σ _) (fetch L : Io File _) :=
  Sim.of_upTo (fetch_simUpTo L)

theorem fetch₂_simIn (L : Layout α) (M : Layout β) :
    Sim (Rel B) (fun a s b f => a = b ∧ Rel B s f ∧ (a ≠ none → RelIn B s f))
      (fetch₂ L M : Io σ _) (fetch₂ L M : Io File _) :=
  Sim.of_upTo (fetch₂_simUpTo L M)

theorem fetch_sim (L : Layout α) :
    Sim (Rel B) (Same (Rel B)) (fetch L : Io σ _) (fetch L : Io File _) :=
  (fetch_simIn L).mono fun _ _ _ _ h => ⟨h.1, h.2.1⟩

theorem fetchAlike_rel : FetchAlike (Rel B : σ → File → Prop) := fetch_sim

theorem fetch₃_simIn (L : Layout α) (M : Layout β) (N : Layout γ) :
    Sim (Rel B) (fun a s b f => a = b ∧ Rel B s f ∧ (a ≠ none → RelIn B s f))
      (fetch₃ L M N : Io σ _) (fetch₃ L M N : Io File _) := by
  refine (fetch_sim L).bind_same fun a => (fetch_sim M).bind_same fun b => ?_
  refine (fetch_simIn N).bind_eq fun c => Sim.pure fun s f h => ?_
  refine ⟨rfl, h.1, fun hne => h.2 ?_⟩
  rintro rfl
  cases a <;> cases b <;> exact hne rfl

theorem seek_beg_sim {q : ℕ} (hq : q ≤ maxPos) :
    Sim (Rel B) (fun _ s _ f => RelUpTo B q s f) (seek q .beg : Io σ _)
      (seek q .beg : Io File _) := by
  rintro s f ⟨hB, hat⟩
  obtain ⟨r, s', hseek, hin, hout⟩ := ByteSource.seek_beg_at q hat hq
  have hfile : Device.seek (q : ℤ) .beg f = _ := File.seek_beg q f
  simp only [seek, hseek, hfile]
  refine ⟨⟨hB, ?_⟩, le_rfl⟩
  rcases Nat.lt_or_ge B.bytes.length q with h | h
  · exact (hout h.le).2.2 q h
  · exact (hin h).2

/-- Not behind the end, the position is the one of the file. -/
theorem tell_sim {N : ℕ} (hN : N ≤ B.bytes.length) :
    Sim (RelUpTo B N) (Same (RelUpTo B N)) (seek 0 .cur : Io σ _) (seek 0 .cur : Io File _) := by
  rintro s f ⟨⟨hB, hat⟩, hle⟩
  obtain ⟨r, s', hseek, hat', hin, -⟩ := ByteSource.tell_at hat
  have hfile : Device.seek (0 : ℤ) .cur f = _ := File.seek_cur 0 f
  simp only [seek, hseek, hfile]
  exact ⟨hin (hle.trans hN), ⟨hB, hat'⟩, hle⟩

theorem seek_cur_sought {N d : ℕ} (hN : N ≤ B.bytes.length) (hmax : N + d ≤ 2 ^ 34) :
    Sim (RelUpTo B N) (fun _ s _ f => SoughtFrom B s f) (seek d .cur : Io σ _)
      (seek d .cur : Io File _) := by
  rintro s f ⟨⟨hB, hat⟩, hle⟩
  have hfile : Device.seek (d : ℤ) .cur f = _ := File.seek_cur d f
  simp only [seek, hfile]
  exact ⟨f.pos, d, s, hat, hle.trans hN, by omega, rfl, by rw [hB]⟩

theorem seek_cur_sim {N d : ℕ} (hN : N ≤ B.bytes.length) (hmax : (N + d : ℕ) ≤ maxPos) :
    Sim (RelUpTo B N) (fun _ s _ f => Rel B s f) (seek d .cur : Io σ _)
      (seek d .cur : Io File _) := by
  rintro s f ⟨⟨hB, hat⟩, hle⟩
  obtain ⟨r, s', hseek, hat'⟩ := ByteSource.seek_cur_at d hat (hle.trans hN) (by omega)
  have hfile : Device.seek (d : ℤ) .cur f = _ := File.seek_cur d f
  simp only [seek, hseek, hfile]
  exact ⟨hB, hat'⟩

end

end NiMedia
