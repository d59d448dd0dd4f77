/-
  Reading whole frames from sources with a header.

  A view ends where the header says, and the bytes of the device may end before
  that.  There `read` goes over all bytes that are left, but delivers whole
  frames only.

  * `staysAligned_iff`: calls about whole frames keep to whole frames iff the
    bytes that are there are whole frames.
-/
import NiMedia.Audio.Header
import NiMedia.Iostreams.View

namespace NiMedia

open Bytes Words Machine

/-- The position, relative to the view. -/
def position {σ : Type} [Device σ] (s : σ) : ℤ := (Device.seek 0 .cur s).1

/-- A call about whole frames of `F` bytes; offsets are 64 bit. -/
def wholeFrames (F : ℕ) : SourceCall → Prop
  | .read n => F ∣ n
  | .seek off _ => (F : ℤ) ∣ off ∧ -2 ^ 63 ≤ off ∧ off < 2 ^ 63

/-- The call leaves the position at a whole frame, and goes over the bytes that
    it delivers. -/
def keepsFrames {σ : Type} [Source σ] (F : ℕ) (s : σ) (call : SourceCall) : Prop :=
  (F : ℤ) ∣ position (sourceStep s call).2 ∧
    ∀ bs, (sourceStep s call).1 = .bytes (some bs) →
      position (sourceStep s call).2 = position s + bs.length

section
variable {ι δ : Type} [ToIfstreamInfo ι]

/-- All calls about whole frames keep to whole frames. -/
def staysAligned [Source δ] (s : HeaderSource ι δ) : Prop :=
  (s.bytesPerFrame : ℤ) ∣ position s ∧
    ∀ calls, (∀ call ∈ calls, wholeFrames s.bytesPerFrame call) →
      Along sourceStep (keepsFrames s.bytesPerFrame) s calls

/-- A seek goes to a bound of the view, or is not clamped at all. -/
theorem absolutePosition_cases {pos beg end_ off : ℤ} (way : SeekDir) (h0 : 0 ≤ beg)
    (h1 : beg ≤ pos) (h2 : pos ≤ end_) (hmax : end_ ≤ maxPos) (ho1 : -2 ^ 63 ≤ off)
    (ho2 : off < 2 ^ 63) :
    absolutePosition pos beg end_ off way = beg ∨ absolutePosition pos beg end_ off way = end_ ∨
      absolutePosition pos beg end_ off way = seekBase pos beg end_ way + off := by
  unfold maxPos at hmax
  have hbase : 0 ≤ seekBase pos beg end_ way ∧ seekBase pos beg end_ way < 2 ^ 63 := by
    cases way <;> simp only [seekBase] <;> omega
  generalize hb : seekBase pos beg end_ way = b at hbase
  rcases lt_or_ge (b + off) (2 ^ 63) with hlt | hge
  · rw [absolutePosition_eq (by rw [hb]; omega) (by rw [hb]; exact hlt), hb, clamp]
    split_ifs <;> simp
  · -- the sum wraps around to a negative number
    left
    have hwrap : wrap 64 (b + off) = b + off - 2 ^ 64 := by
      rw [wrap, Int.bmod_def]
      norm_num
      omega
    have hclamp : clamp (wrap 64 (b + off)) beg end_ = beg := by
      rw [hwrap, clamp, if_pos (by omega)]
    subst hb
    cases way <;> exact hclamp

variable [ExactSource δ] {B : List UInt8} {beg N p F : ℕ} {s : HeaderSource ι δ}

/-- A source of frames of `F` bytes whose view is on `N` bytes from `beg` on, at
    position `p`. -/
structure FramesAt (B : List UInt8) (beg N F p : ℕ) (s : HeaderSource ι δ) : Prop where
  view : ViewAt B beg (beg + N) p s.view
  bytesPerFrame : s.bytesPerFrame = F

theorem FramesAt.position_eq (h : FramesAt B beg N F p s) : position s = (p : ℤ) - beg :=
  h.view.tell_fst

/-- What is read, and what is delivered of it. -/
theorem FramesAt.read (h : FramesAt B beg N F p s) (n : ℕ) :
    ∃ s' bs, bs = slice B p (min n (beg + N - p)) ∧
      sourceStep s (.read n) =
        (.bytes ((deliver bs).map fun bs => bs.take (bs.length - bs.length % F)), s') ∧
      FramesAt B beg N F (p + bs.length) s' := by
  obtain ⟨view, info⟩ := s
  obtain ⟨view', hread, hview⟩ := h.view.read n
  have hF : HeaderSource.bytesPerFrame ⟨view, info⟩ = F := h.bytesPerFrame
  refine ⟨⟨view', info⟩, _, rfl, ?_, hview, h.bytesPerFrame⟩
  simp only [sourceStep, Source.read, HeaderSource.read, hread, hF]

theorem FramesAt.seek (h : FramesAt B beg N F p s) {off : ℤ} {way : SeekDir} {q : ℕ}
    (hq : absolutePosition p beg (beg + N : ℕ) off way = q)
    (hland : beg ≤ ExactSource.land δ B q ∧ ExactSource.land δ B q ≤ beg + N) :
    ∃ s', (sourceStep s (.seek off way)).2 = s' ∧
      FramesAt B beg N F (ExactSource.land δ B q) s' := by
  obtain ⟨view, info⟩ := s
  obtain ⟨view', hseek, hview⟩ := h.view.seek off way hq hland
  refine ⟨⟨view', info⟩, ?_, hview, h.bytesPerFrame⟩
  simp only [sourceStep, Device.seek, HeaderSource.seek, hseek]

/-! ## Whole frames -/

/-- At a whole frame. -/
def aligned (B : List UInt8) (beg N F : ℕ) (s : HeaderSource ι δ) : Prop :=
  ∃ a, FramesAt B beg N F (beg + a) s ∧ F ∣ a

theorem aligned.dvd_position (h : aligned B beg N F s) : (F : ℤ) ∣ position s := by
  obtain ⟨a, hat, ha⟩ := h
  rw [hat.position_eq]
  have hsub : ((beg + a : ℕ) : ℤ) - beg = a := by omega
  rw [hsub]
  exact Int.natCast_dvd_natCast.2 ha

theorem dvd_min {F a b : ℕ} (ha : F ∣ a) (hb : F ∣ b) : F ∣ min a b := by
  rcases Nat.le_total a b with h | h
  · rwa [Nat.min_eq_left h]
  · rwa [Nat.min_eq_right h]

/-- A read goes over the bytes that are asked for, that the view has and that
    the device has. -/
theorem length_read (B : List UInt8) (beg N a n : ℕ) (ha : a ≤ N) :
    (slice B (beg + a) (min n (beg + N - (beg + a)))).length =
      min n (min N (B.length - beg) - a) := by
  rw [length_slice_min]
  omega

theorem aligned.read (h : aligned B beg N F s) (havail : F ∣ min N (B.length - beg)) {n : ℕ}
    (hn : F ∣ n) :
    aligned B beg N F (sourceStep s (.read n)).2 ∧ keepsFrames F s (.read n) := by
  obtain ⟨a, hat, ha⟩ := h
  obtain ⟨s', bs, hbs, hstep, hat'⟩ := hat.read n
  have haN : a ≤ N := by
    have := hat.view.pos_le
    omega
  have hlen : bs.length = min n (min N (B.length - beg) - a) := by
    rw [hbs, length_read B beg N a n haN]
  have hdvd : F ∣ bs.length := by
    rw [hlen]
    exact dvd_min hn (Nat.dvd_sub havail ha)
  rw [Nat.add_assoc] at hat'
  have haligned : aligned B beg N F s' := ⟨a + bs.length, hat', Nat.dvd_add ha hdvd⟩
  rw [keepsFrames, hstep]
  refine ⟨haligned, haligned.dvd_position, fun bs' hbs' => ?_⟩
  -- the delivered bytes are all of the bytes
  have hall : bs' = bs := by
    have htake : bs.take (bs.length - bs.length % F) = bs := by
      rw [Nat.mod_eq_zero_of_dvd hdvd, Nat.sub_zero, List.take_length]
    simp only [SourceAnswer.bytes.injEq, deliver] at hbs'
    split_ifs at hbs'
    · cases hbs'
    · rw [Option.map_some, htake] at hbs'
      exact (Option.some.inj hbs').symm
  rw [hat'.position_eq, hat.position_eq, hall]
  push_cast
  ring

theorem aligned.seek (h : aligned B beg N F s) (hN : F ∣ N) (havail : F ∣ min N (B.length - beg))
    {off : ℤ} {way : SeekDir} (hoff : wholeFrames F (.seek off way)) :
    aligned B beg N F (sourceStep s (.seek off way)).2 ∧ keepsFrames F s (.seek off way) := by
  obtain ⟨a, hat, ha⟩ := h
  obtain ⟨hdvd, ho1, ho2⟩ := hoff
  have hle := hat.view.pos_le
  -- the position that is sought
  obtain ⟨b, hb, hbN, hFb⟩ : ∃ b : ℕ, absolutePosition ((beg + a : ℕ) : ℤ) beg
      ((beg + N : ℕ) : ℤ) off way = ((beg + b : ℕ) : ℤ) ∧ b ≤ N ∧ F ∣ b := by
    have hcases := absolutePosition_cases way (Int.natCast_nonneg beg)
      (Int.ofNat_le.2 hat.view.le_pos) (Int.ofNat_le.2 hle) hat.view.max ho1 ho2
    have hge : (beg : ℤ) ≤ absolutePosition ((beg + a : ℕ) : ℤ) beg ((beg + N : ℕ) : ℤ) off way :=
      le_absolutePosition (by omega)
    have hle' : absolutePosition ((beg + a : ℕ) : ℤ) beg ((beg + N : ℕ) : ℤ) off way ≤
        ((beg + N : ℕ) : ℤ) := absolutePosition_le (by omega)
    rcases hcases with h | h | h
    · exact ⟨0, by rw [h]; rfl, Nat.zero_le _, Nat.dvd_zero F⟩
    · exact ⟨N, h, le_rfl, hN⟩
    · rw [h] at hge hle' ⊢
      obtain ⟨b, hb⟩ := Int.eq_ofNat_of_zero_le (sub_nonneg.2 hge)
      refine ⟨b, by omega, by omega, Int.natCast_dvd_natCast.1 ?_⟩
      rw [← hb]
      cases way with
      | beg => simpa [seekBase] using hdvd
      | cur =>
        have hrel : seekBase ((beg + a : ℕ) : ℤ) beg ((beg + N : ℕ) : ℤ) .cur + off - beg =
            a + off := by
          simp only [seekBase]
          omega
        rw [hrel]
        exact Int.dvd_add (Int.natCast_dvd_natCast.2 ha) hdvd
      | end_ =>
        have hrel : seekBase ((beg + a : ℕ) : ℤ) beg ((beg + N : ℕ) : ℤ) .end_ + off - beg =
            N + off := by
          simp only [seekBase]
          omega
        rw [hrel]
        exact Int.dvd_add (Int.natCast_dvd_natCast.2 hN) hdvd
  -- and the one where the device lands
  obtain ⟨c, hc, hcN, hFc⟩ : ∃ c, ExactSource.land δ B (beg + b) = beg + c ∧ c ≤ N ∧ F ∣ c := by
    rcases hat.view.land_cases (beg + b) with h | ⟨h, h1, h2⟩
    · exact ⟨b, h, hbN, hFb⟩
    · refine ⟨B.length - beg, by rw [h]; omega, by omega, ?_⟩
      rwa [Nat.min_eq_right (by omega)] at havail
  obtain ⟨s', hs', hat'⟩ := hat.seek hb (by rw [hc]; omega)
  rw [hc] at hat'
  have haligned : aligned B beg N F s' := ⟨c, hat', hFc⟩
  rw [keepsFrames, hs']
  exact ⟨haligned, haligned.dvd_position, fun bs hbs => by cases hbs⟩

/-- **Whole frames.**  From its beginning on, a source keeps to whole frames iff
    the bytes of its view that are there are whole frames. -/
theorem staysAligned_iff (h : FramesAt B beg N F beg s) (hN : F ∣ N) :
    staysAligned s ↔ F ∣ min N (B.length - beg) := by
  have hbegin : aligned B beg N F s := ⟨0, h, Nat.dvd_zero F⟩
  unfold staysAligned
  rw [h.bytesPerFrame]
  constructor
  · rintro ⟨-, hcalls⟩
    -- all of it is read
    have hread : ∀ call ∈ [SourceCall.read N], wholeFrames F call := by
      intro call hcall
      rw [List.mem_singleton.1 hcall]
      exact hN
    obtain ⟨⟨hdvd, -⟩, -⟩ := hcalls _ hread
    obtain ⟨s', bs, hbs, hstep, hat'⟩ := h.read N
    have hlen := length_read B beg N 0 N (Nat.zero_le N)
    rw [Nat.add_zero, ← hbs] at hlen
    rw [hstep, hat'.position_eq] at hdvd
    have hrel : ((beg + bs.length : ℕ) : ℤ) - beg = bs.length := by omega
    rw [hrel, hlen, Int.natCast_dvd_natCast] at hdvd
    rwa [Nat.sub_zero, Nat.min_eq_right (Nat.min_le_left _ _)] at hdvd
  · intro havail
    refine ⟨hbegin.dvd_position, fun calls hcalls => ?_⟩
    have hwhole : Along sourceStep (fun _ call => wholeFrames F call) s calls :=
      along_of_forall hcalls s
    refine along_of_inv (aligned B beg N F) (fun s call hs hcall => ?_)
      (fun s call hs hcall => ?_) hbegin hwhole
    · cases call with
      | read n => exact (hs.read havail hcall).1
      | seek off way => exact (hs.seek hN havail hcall).1
    · cases call with
      | read n => exact (hs.read havail hcall).2
      | seek off way => exact (hs.seek hN havail hcall).2

/-! ## Constructed sources -/

/-- The bytes of its view that the device has are whole frames. -/
def wholeFramesLeft (B : List UInt8) (s : HeaderSource ι δ) : Prop :=
  s.bytesPerFrame ∣
    min (ToIfstreamInfo.toIfstreamInfo s.info).numBytes (B.length - s.view.beg.toNat)

/-- The last position of a view. -/
def lastPos : ℕ := 2 ^ 63 - 1

theorem viewAt_whole {B : Content} {s : Subview δ} (h : ByteSource.At B p s) :
    ViewAt B.bytes 0 lastPos (ExactSource.pos s.device) s ∧
      (p ≤ B.bytes.length → ExactSource.pos s.device = p) := by
  obtain ⟨hat, hbeg, hend⟩ := h
  obtain ⟨hB, hmax, hin⟩ := ExactSource.at_pos hat
  unfold maxPos at hmax
  refine ⟨⟨hbeg, hend, hB, rfl, Nat.zero_le _, ?_, by decide⟩, hin⟩
  unfold lastPos
  omega

/-- A seek forward lands where the device does. -/
theorem viewAt_sought {B : Content} {s : HeaderSource ι δ} {f : File} (h : SoughtFrom B s f) :
    ViewAt B.bytes 0 lastPos (ExactSource.land δ B.bytes f.pos) s.view := by
  obtain ⟨p, d, ⟨view, info⟩, hat, hp, hd, rfl, rfl⟩ := h
  obtain ⟨hview, hpos⟩ := viewAt_whole hat.1
  rw [hpos hp] at hview
  have hmax : maxPos = 2 ^ 63 - 1 := rfl
  have habs : absolutePosition (p : ℤ) ((0 : ℕ) : ℤ) (lastPos : ℕ) (d : ℤ) .cur = (p + d : ℕ) := by
    rw [Nat.cast_zero]
    exact absolutePosition_whole_cur (by omega) (by omega)
  have hland : ExactSource.land δ B.bytes (p + d) ≤ p + d := by
    rcases ExactSource.land_eq (δ := δ) with h | h
    · rw [h]
    · rw [h]
      exact Nat.min_le_left _ _
  have hlast : lastPos = 2 ^ 63 - 1 := rfl
  obtain ⟨view', hseek, hview'⟩ := hview.seek d .cur habs ⟨Nat.zero_le _, by omega⟩
  simp only [Device.seek, HeaderSource.seek, hseek]
  exact hview'

/-- The view of a source that has been constructed begins where its header
    reader has stopped. -/
theorem construct_framesAt {info₀ : ι} {d : δ}
    {readHeader : HeaderSource ι δ → Option (Except RuntimeError (ι × HeaderSource ι δ))}
    (h : HeaderSource.construct readHeader info₀ d = some (.ok s)) :
    ∃ s₀, readHeader ⟨{ device := d }, info₀⟩ = some (.ok (s.info, s₀)) ∧
      ∀ p, ViewAt B 0 lastPos p s₀.view → p ≤ 2 ^ 34 →
        (ToIfstreamInfo.toIfstreamInfo s.info).Sized →
        FramesAt B p (ToIfstreamInfo.toIfstreamInfo s.info).numBytes s.bytesPerFrame p s := by
  unfold HeaderSource.construct at h
  cases hr : readHeader ⟨{ device := d }, info₀⟩ with
  | none => rw [hr] at h; cases h
  | some r =>
    rw [hr] at h
    cases r with
    | error e => cases h
    | ok r =>
      obtain ⟨info, s₀⟩ := r
      cases h
      refine ⟨s₀, rfl, fun p hview hp hsized => ⟨?_, rfl⟩⟩
      obtain ⟨view, htell, hview'⟩ := hview.tell
      have htell : s₀.view.seek 0 .cur = _ := htell
      have hlt : (ToIfstreamInfo.toIfstreamInfo info).numBytes < 2 ^ 43 := hsized.numBytes_lt
      have hsub : (p : ℤ) - (0 : ℕ) = p := by omega
      rw [hsub] at htell
      simp only [htell]
      exact ⟨rfl, by push_cast; rfl, hview'.bytes_eq, hview'.pos_eq, le_rfl, Nat.le_add_right _ _,
        le_maxPos (by omega)⟩

/-- A constructed source keeps to whole frames iff its bytes are whole frames. -/
theorem FramesAt.staysAligned_iff
    (h : FramesAt B p (ToIfstreamInfo.toIfstreamInfo s.info).numBytes s.bytesPerFrame p s)
    (hsized : (ToIfstreamInfo.toIfstreamInfo s.info).Sized) :
    staysAligned s ↔ wholeFramesLeft B s := by
  have hN : s.bytesPerFrame ∣ (ToIfstreamInfo.toIfstreamInfo s.info).numBytes := by
    rw [hsized.numBytes_eq]
    exact Nat.dvd_mul_left _ _
  rw [NiMedia.staysAligned_iff h hN, wholeFramesLeft, h.view.beg_eq, Int.toNat_natCast]

end

end NiMedia
