/-
  Which sub-types and sample rates the AIFF header reader lets through.

  Channels, frames and format of an accepted info are checked.  The sub-type of
  the file is not, and of the rate only that it is not less than or equal to 0,
  which holds of infinities, of what is not a number, and of fractions.

  * `sane_iff`: an accepted info is sane iff the file is of a sub-type that the
    reader knows, and its rate is a number from 1 on that fits into a `size_t`.
-/
import NiMedia.Aiff.Accepted
import Mathlib.Data.Rat.Floor

namespace NiMedia

open Float.Model Simulation

/-! ## Values -/

namespace Double

/-- The number that a `double` stands for, unless it is infinite or not a
    number. -/
def value : Double → Option ℚ
  | .finite .positive m e _ => some (m * 2 ^ e)
  | .finite .negative m e _ => some (-(m * 2 ^ e))
  | .zero _ => some 0
  | _ => none

theorem floor_mul_two_pow (m : ℕ) (e : ℤ) :
    ⌊(m : ℚ) * 2 ^ e⌋ = ((m <<< e.toNat / 2 ^ (-e).toNat : ℕ) : ℤ) := by
  rcases Int.le_total 0 e with he | he
  · obtain ⟨k, rfl⟩ := Int.eq_ofNat_of_zero_le he
    have hneg : (-(k : ℤ)).toNat = 0 := by omega
    have hcast : (m : ℚ) * 2 ^ (k : ℤ) = ((m * 2 ^ k : ℕ) : ℚ) := by push_cast; rfl
    rw [hcast, hneg, pow_zero, Nat.div_one, Int.toNat_natCast, Nat.shiftLeft_eq, Int.floor_natCast]
  · obtain ⟨k, hk⟩ := Int.eq_ofNat_of_zero_le (show 0 ≤ -e by omega)
    obtain rfl : e = -(k : ℤ) := by omega
    have hneg : (-(k : ℤ)).toNat = 0 := by omega
    have hcast : (m : ℚ) * 2 ^ (-(k : ℤ)) = ((m : ℤ) : ℚ) / ((2 ^ k : ℕ) : ℚ) := by
      rw [zpow_neg, zpow_natCast]
      push_cast
      rfl
    rw [hcast, hneg, neg_neg, Int.toNat_natCast, Nat.shiftLeft_zero,
      Rat.floor_intCast_div_natCast]
    rfl

/-- Truncation of a number that is not negative. -/
theorem toInt_of_value {x : Double} {v : ℚ} (h : x.value = some v) (hv : 1 ≤ v) :
    x.toInt 0 0 = ⌊v⌋ ∧ x.isFinite = true := by
  cases x with
  | notANumber => cases h
  | infinity s => cases h
  | zero s =>
    obtain rfl : 0 = v := Option.some.inj h
    exact absurd hv (by norm_num)
  | finite s m e hm =>
    cases s with
    | negative =>
      obtain rfl : -((m : ℚ) * 2 ^ e) = v := Option.some.inj h
      have hpos : (0 : ℚ) < (m : ℚ) * 2 ^ e := by positivity
      linarith
    | positive =>
      obtain rfl : (m : ℚ) * 2 ^ e = v := Option.some.inj h
      have h0 : (0 - (e - (e.toNat : ℕ))).toNat = (-e).toNat := by omega
      have h1 : (e - 0).toNat = e.toNat := by omega
      refine ⟨?_, rfl⟩
      rw [floor_mul_two_pow]
      simp only [UnpackedFloat.toInt, UnpackedFloat.roundToInt, UnpackedFloat.decreaseExponent,
        UnpackedFloat.shiftToExponent, h1, h0, Floats.mantissa_shiftRight, UnpackedFloat.Sign.apply]
      rfl

end Double

/-- A conversion of a number that fits. -/
theorem Platform.ulong_of_value {P : Platform} {x : Double} {v : ℚ} (h : x.value = some v)
    (hv : 1 ≤ v) (hlt : v < 2 ^ 64) : P.ulong x = ⌊v⌋.toNat := by
  obtain ⟨hint, hfin⟩ := Double.toInt_of_value h hv
  have hlo : 1 ≤ ⌊v⌋ := Int.le_floor.2 (by exact_mod_cast hv)
  have hhi : ⌊v⌋ < 2 ^ 64 := Int.floor_lt.2 (by exact_mod_cast hlt)
  have hrange : x.isFinite = true ∧ (0 : ℤ) ≤ x.toInt 0 0 ∧ x.toInt 0 0 ≤ 2 ^ 64 - 1 := by
    rw [hint]
    exact ⟨hfin, by omega, by omega⟩
  rw [ulong, toInteger, if_pos hrange, hint, Int.emod_eq_of_lt (by omega) hhi]

namespace Aiff

/-! ## Sane headers -/

section
variable (P : Platform) (native : EndianType) (B : List UInt8)

/-- The last `COMM` chunk begins with `c`. -/
def lastCommonChunk (c : CommonChunk) : Prop :=
  ∃ m o tag, chunkOffset P native B m = some o ∧ tagAt B o = some tag ∧ tag.id = comm ∧
    CommonChunk.layout.get B (o + 8) = some c ∧ ∀ k, m < k → ¬ isCommAt P native B k

/-- The sub-types of AIFF files. -/
def knownSubType : Prop := subTypeOf B = aiff ∨ subTypeOf B = aifc

/-- The rate that the last `COMM` chunk says is the number `v`, from 1 on, and
    fits into a `size_t`. -/
def saneRate (v : ℚ) : Prop :=
  ∃ c, lastCommonChunk P native B c ∧ (ieee80ToDouble c.extSampleRate).value = some v ∧ 1 ≤ v ∧
    v < 2 ^ 64

/-- What is to be expected of an info that has been accepted. -/
structure Sane (info : AiffIfstreamInfo) : Prop where
  subType : knownSubType B
  numChannels : 1 ≤ info.numChannels ∧ info.numChannels ≤ 255
  numFrames : 1 ≤ info.numFrames
  format : ∃ number bits endian, RuntimeFormat.ofBits number bits endian = .ok info.format
  sampleRate : 1 ≤ info.sampleRate ∧ ∃ v, saneRate P native B v ∧ info.sampleRate = ⌊v⌋.toNat

end

section
variable {P : Platform} {native : EndianType} {B : Content}

theorem lastCommonChunk_unique {X : List UInt8} {c c' : CommonChunk}
    (h : lastCommonChunk P native X c) (h' : lastCommonChunk P native X c') : c = c' := by
  obtain ⟨m, o, tag, ho, htag, hid, hc, hlast⟩ := h
  obtain ⟨m', o', tag', ho', htag', hid', hc', hlast'⟩ := h'
  obtain rfl := last_isCommAt_unique ⟨o, tag, ho, htag, hid⟩ hlast
    ⟨o', tag', ho', htag', hid'⟩ hlast'
  rw [ho] at ho'
  cases ho'
  rw [hc] at hc'
  exact Option.some.inj hc'

/-- What the last `COMM` chunk says is made of what it begins with. -/
theorem lastComm_ok {x : Comm} (h : lastComm P native B.bytes x) :
    ∃ c e, lastCommonChunk P native B.bytes c ∧ c.toComm P e = .ok x := by
  obtain ⟨m, ⟨o, tag, f, ho, htag, hid, hread⟩, hlast⟩ := h
  obtain ⟨-, c, e, hc, hcomm⟩ := readCommonChunk_ok hread
  exact ⟨c, e, ⟨m, o, tag, ho, htag, hid, hc, hlast⟩, hcomm⟩

theorem sane_iff_of_lastComm {info : AiffIfstreamInfo}
    (h : lastComm P native B.bytes info.comm) :
    Sane P native B.bytes info ↔
      knownSubType B.bytes ∧ ∃ v, saneRate P native B.bytes v := by
  constructor
  · intro hs
    obtain ⟨-, v, hrate, -⟩ := hs.sampleRate
    exact ⟨hs.subType, v, hrate⟩
  · rintro ⟨hsub, v, hrate⟩
    have hsized := sized_of_lastComm h
    obtain ⟨c, e, hc, hcomm⟩ := lastComm_ok h
    obtain ⟨hformat, -, -, -, -, -, hulong, -⟩ := toComm_ok hcomm
    obtain ⟨c', hc', hvalue, h1, h2⟩ := hrate
    obtain rfl := lastCommonChunk_unique hc hc'
    have hfloor : info.sampleRate = ⌊v⌋.toNat :=
      Eq.trans hulong (Platform.ulong_of_value hvalue h1 h2)
    have hlo : 1 ≤ ⌊v⌋ := Int.le_floor.2 (by exact_mod_cast h1)
    exact ⟨hsub, ⟨hsized.numChannels_pos, hsized.numChannels_le⟩, hsized.numFrames_pos,
      ⟨_, _, _, hformat⟩, by omega, v, ⟨c, hc, hvalue, h1, h2⟩, hfloor⟩

/-- On any source of the bytes. -/
theorem accepted_lastComm {σ : Type} [ByteSource σ] {s s' : σ} (hs : ByteSource.At B 0 s)
    {fuel : ℕ} {info : AiffIfstreamInfo}
    (h : readAiffHeader P native fuel s = some (.ok (info, s'))) :
    lastComm P native B.bytes info.comm := by
  have hrel : Rel B s ⟨B.bytes, 0⟩ := ⟨rfl, hs⟩
  obtain ⟨f, hfile, -⟩ := rel_ok_left (readAiffHeader_sim P native fuel hrel) h
  exact (readAiffHeader_accepted hfile).2.1

end

/-- **Sanity.**  On every byte string, served by a container or a file, an info
    that the header reader returns is sane iff the file is of the sub-type AIFF
    or AIFC and the rate of its last `COMM` chunk is a number from 1 on that fits
    into a `size_t`. -/
theorem sane_iff (P : Platform) (native : EndianType) (B : Content) (fuel : ℕ)
    (info : AiffIfstreamInfo) :
    (∀ s, readAiffHeader P native fuel (AiffSource.unread native (Container.mk' B.bytes)) =
      some (.ok (info, s)) → (Sane P native B.bytes info ↔
        knownSubType B.bytes ∧ ∃ v, saneRate P native B.bytes v)) ∧
    ∀ s, readAiffHeader P native fuel (AiffSource.unread native (File.opened B.bytes)) =
      some (.ok (info, s)) → (Sane P native B.bytes info ↔
        knownSubType B.bytes ∧ ∃ v, saneRate P native B.bytes v) :=
  ⟨fun _ h => sane_iff_of_lastComm (accepted_lastComm (at_aiffSource (at_container B)) h),
    fun _ h => sane_iff_of_lastComm (accepted_lastComm (at_aiffSource (at_opened B)) h)⟩

/-- A frame of 8 bit mono, at a sample rate. -/
def oneFrameAiff (rate : List UInt8) : List UInt8 :=
  [0x46, 0x4F, 0x52, 0x4D, 0, 0, 0, 0x30, 0x41, 0x49, 0x46, 0x46,
   0x43, 0x4F, 0x4D, 0x4D, 0, 0, 0, 18, 0, 1, 0, 0, 0, 1, 0, 8] ++ (rate ++
  [0x53, 0x53, 0x4E, 0x44, 0, 0, 0, 9, 0, 0, 0, 0, 0, 0, 0, 0, 1, 0])

/-- At 44100 frames per second. -/
def saneAiff : List UInt8 := oneFrameAiff [0x40, 0x0E, 0xAC, 0x44, 0, 0, 0, 0, 0, 0]

theorem saneAiff_read :
    ∃ x, readAiffHeader .powersOfTwo .littleEndian 4
      (AiffSource.unread .littleEndian (Container.mk' saneAiff)) = some (.ok x) ∧
        x.1.sampleRate = 44100 :=
  exists_ok_of_map (by decide +kernel)

theorem saneAiff_rate : saneRate .powersOfTwo .littleEndian saneAiff 44100 := by
  refine ⟨⟨1, 1, 8, [0x40, 0x0E, 0xAC, 0x44, 0, 0, 0, 0, 0, 0]⟩,
    ⟨0, 12, ⟨comm, 18⟩, rfl, by decide, rfl, by decide, ?_⟩, by decide +kernel, by norm_num,
    by norm_num⟩
  rintro k hk ⟨o, tag, ho, htag, hid⟩
  -- behind the `COMM` chunk there is only the `SSND` chunk
  have hlt : k < 2 := lt_of_reachesEnd (n := 2) (o := 56) (by decide) (by decide) ho htag
  obtain rfl : k = 1 := by omega
  obtain rfl : 38 = o := Option.some.inj ho
  have hssnd : tagAt saneAiff 38 = some ⟨ssnd, 9⟩ := by decide
  rw [hssnd] at htag
  cases htag
  exact absurd hid (by decide)

theorem sane_iff_saneAiff :
    ∃ info s, readAiffHeader .powersOfTwo .littleEndian 4
      (AiffSource.unread .littleEndian (Container.mk' saneAiff)) = some (.ok (info, s)) ∧
        Sane .powersOfTwo .littleEndian saneAiff info := by
  obtain ⟨⟨info, s⟩, hread, -⟩ := saneAiff_read
  exact ⟨info, s, hread, ((sane_iff .powersOfTwo .littleEndian ⟨saneAiff, by decide⟩ 4 info).1 s
    hread).2 ⟨.inl (by decide), 44100, saneAiff_rate⟩⟩

/-- At half a frame per second. -/
def slowAiff : List UInt8 := oneFrameAiff [0x3F, 0xFE, 0x80, 0, 0, 0, 0, 0, 0, 0]

theorem slowAiff_read :
    ∃ x, readAiffHeader .powersOfTwo .littleEndian 4
      (AiffSource.unread .littleEndian (Container.mk' slowAiff)) = some (.ok x) ∧
        x.1.sampleRate = 0 :=
  exists_ok_of_map (by decide +kernel)

/-- It is accepted, with a rate of 0. -/
theorem slowAiff_not_sane :
    ¬ ∀ info s, readAiffHeader .powersOfTwo .littleEndian 4
      (AiffSource.unread .littleEndian (Container.mk' slowAiff)) = some (.ok (info, s)) →
        Sane .powersOfTwo .littleEndian slowAiff info := by
  intro h
  obtain ⟨⟨info, s⟩, hread, hrate⟩ := slowAiff_read
  have hpos := (h info s hread).sampleRate.1
  change info.sampleRate = 0 at hrate
  omega

end Aiff

end NiMedia
