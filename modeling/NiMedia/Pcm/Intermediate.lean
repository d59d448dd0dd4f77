/-
  The object through which samples are read and written (`pcm/converter.h`:
  `storage`, `intermediate`, `read_impl`, `write_impl`, `read`, `write`), for
  the integer formats.

  An `intermediate<Format>` holds a word of the storage type; the significant
  bytes of a sample are copied to or from its memory image through a pointer,
  or a reverse pointer if the format is not in the byte order of the host.
  `load_eq` and `store_eq` are what the copies amount to on either host: the
  sample stands top aligned in the storage word.  `level_readImpl` and
  `sample_writeImpl` are the specifications of `pcm::read` and `pcm::write`.
-/
import NiMedia.Pcm.Converter

namespace NiMedia

open Words

/-- The width of `storage<Format>::type`; 24 bits are held in 32. -/
def BitwidthType.storage : BitwidthType → Width
  | _8bit => .w8
  | _16bit => .w16
  | _24bit => .w32
  | _32bit => .w32
  | _64bit => .w64

theorem BitwidthType.numBytes_le_storage (b : BitwidthType) : b.numBytes ≤ b.storage.bytes := by
  cases b <;> decide

/-- The compile-time formats with integer storage. -/
abbrev IntTag := {t : CompiletimeFormat // t.number ≠ .floatingPoint}

/-- The runtime formats with integer storage. -/
abbrev IntFormat := {f : RuntimeFormat // f.number ≠ .floatingPoint}

def IntFormat.tag (f : IntFormat) : IntTag := ⟨f.1.tag, f.2⟩

/-- Whether samples of the format are signed. -/
def IntTag.signed (t : IntTag) : Bool := decide (t.1.number = .signedInteger)

/-- `storage<Format>::type`. -/
def IntTag.storage (t : IntTag) : IntType := ⟨t.signed, t.1.bitwidth.storage⟩

/-! ## The memory image -/

namespace Intermediate
variable (native : EndianType) (t : CompiletimeFormat)

def isNativeEndian : Bool := decide (t.endian = native)

def padding : ℕ :=
  if native = .littleEndian then t.bitwidth.storage.bytes - t.bitwidth.numBytes else 0

def offset : ℕ :=
  if isNativeEndian native t then padding native t else padding native t + t.bitwidth.numBytes

/-- The byte of the image that `begin() + i` refers to; a reverse iterator
    refers to the byte before its base. -/
def address (i : ℕ) : ℕ :=
  if isNativeEndian native t then offset native t + i else offset native t - 1 - i

/-- `increment_n_copy_n`, from byte `i` on. -/
def incrementNCopyN (addr : ℕ → ℕ) : List UInt8 → ℕ → List UInt8 → List UInt8
  | [], _, image => image
  | b :: bs, i, image => incrementNCopyN addr bs (i + 1) (image.set (addr i) b)

/-- The image of `m_value` after `intermediate( iter )`, where `iter` delivers
    the bytes `bs`. -/
def load (bs : List UInt8) : List UInt8 :=
  incrementNCopyN (address native t) bs 0 (List.replicate t.bitwidth.storage.bytes 0)

/-- The bytes from `begin()` to `end()` of an image. -/
def store (image : List UInt8) : List UInt8 :=
  (List.range t.bitwidth.numBytes).map fun i => image.getD (address native t i) 0

/-! ## Copies -/

theorem copy_up {addr : ℕ → ℕ} {o : ℕ} (ha : ∀ i, addr i = o + i) :
    ∀ (bs : List UInt8) (i : ℕ) (pre mid post : List UInt8), pre.length = o + i →
      mid.length = bs.length →
      incrementNCopyN addr bs i (pre ++ (mid ++ post)) = pre ++ (bs ++ post)
  | [], i, pre, mid, post, _, hm => by
    rw [List.length_eq_zero_iff.1 hm, incrementNCopyN]
  | b :: bs, i, pre, [], post, _, hm => by simp at hm
  | b :: bs, i, pre, m :: mid, post, hp, hm => by
    have hset : (pre ++ (m :: mid ++ post)).set (addr i) b = (pre ++ [b]) ++ (mid ++ post) := by
      rw [ha, ← hp, List.set_append_right _ _ le_rfl, Nat.sub_self]; simp
    rw [incrementNCopyN, hset, copy_up ha bs (i + 1) (pre ++ [b]) mid post (by simp [hp]; omega)
      (by simpa using hm)]
    simp

theorem copy_down {addr : ℕ → ℕ} {o : ℕ} (ha : ∀ i, addr i = o - 1 - i) :
    ∀ (bs : List UInt8) (i : ℕ) (pre mid post : List UInt8), pre.length + mid.length + i = o →
      mid.length = bs.length →
      incrementNCopyN addr bs i (pre ++ (mid ++ post)) = pre ++ (bs.reverse ++ post)
  | [], i, pre, mid, post, _, hm => by
    rw [List.length_eq_zero_iff.1 hm, incrementNCopyN, List.reverse_nil]
  | b :: bs, i, pre, mid, post, hp, hm => by
    -- the byte written is the last one of `mid`
    obtain ⟨mid', m, rfl⟩ : ∃ mid' m, mid = mid' ++ [m] :=
      ⟨mid.dropLast, mid.getLast (by rintro rfl; simp at hm), (List.dropLast_append_getLast _).symm⟩
    rw [List.length_append, List.length_singleton] at hp hm
    have hset : (pre ++ (mid' ++ [m] ++ post)).set (addr i) b = pre ++ (mid' ++ (b :: post)) := by
      have e : addr i = pre.length + mid'.length := by rw [ha]; omega
      rw [e, List.set_append_right _ _ (by omega), Nat.add_sub_cancel_left, List.append_assoc,
        List.set_append_right _ _ le_rfl, Nat.sub_self]; simp
    rw [incrementNCopyN, hset, copy_down ha bs (i + 1) pre mid' (b :: post) (by omega)
      (by simpa using hm)]
    simp

/-- The significant bytes in the order of the host. -/
def hostOrder (bs : List UInt8) : List UInt8 := if isNativeEndian native t then bs else bs.reverse

theorem length_hostOrder (bs : List UInt8) : (hostOrder native t bs).length = bs.length := by
  unfold hostOrder; split <;> simp

theorem ofBytes_hostOrder (bs : List UInt8) :
    native.ofBytes (hostOrder native t bs) = t.endian.ofBytes bs := by
  obtain ⟨n, b, e⟩ := t
  cases native <;> cases e <;>
    simp [hostOrder, isNativeEndian, EndianType.ofBytes, Bytes.beNat]

theorem hostOrder_toBytes (k n : ℕ) :
    hostOrder native t (native.toBytes k n) = t.endian.toBytes k n := by
  obtain ⟨nr, b, e⟩ := t
  cases native <;> cases e <;>
    simp [hostOrder, isNativeEndian, EndianType.toBytes, Bytes.beBytes]

theorem load_image {bs : List UInt8} (h : bs.length = t.bitwidth.numBytes) :
    load native t bs =
      List.replicate (padding native t) 0 ++ (hostOrder native t bs ++
        List.replicate (t.bitwidth.storage.bytes - t.bitwidth.numBytes - padding native t) 0) := by
  have hle := t.bitwidth.numBytes_le_storage
  have hpad : padding native t + t.bitwidth.numBytes ≤ t.bitwidth.storage.bytes := by
    unfold padding; split <;> omega
  have hzero : List.replicate t.bitwidth.storage.bytes (0 : UInt8) =
      List.replicate (padding native t) 0 ++ (List.replicate bs.length 0 ++
        List.replicate (t.bitwidth.storage.bytes - t.bitwidth.numBytes - padding native t) 0) := by
    rw [List.replicate_append_replicate, List.replicate_append_replicate]; congr 1; omega
  rw [load, hzero, hostOrder]
  split_ifs with hn
  · refine copy_up (o := offset native t) (fun i => by rw [address, if_pos hn]) bs 0 _ _ _ ?_
      (by simp)
    simp [offset, hn]
  · refine copy_down (o := offset native t) (fun i => by rw [address, if_neg hn]) bs 0 _ _ _ ?_
      (by simp)
    simp [offset, hn, h]

/-- **Loading** puts the sample on top of the storage word. -/
theorem load_eq {bs : List UInt8} (h : bs.length = t.bitwidth.numBytes) :
    native.ofBytes (load native t bs) =
      t.endian.ofBytes bs * 256 ^ (t.bitwidth.storage.bytes - t.bitwidth.numBytes) := by
  rw [load_image native t h, ← ofBytes_hostOrder native t bs]
  cases native
  · simp [padding, EndianType.ofBytes, Bytes.beNat, Bytes.leNat_append, Nat.mul_comm]
  · simp [padding, EndianType.ofBytes, Bytes.leNat_append, Nat.mul_comm]

theorem store_image {pre h post : List UInt8} (hp : pre.length = padding native t)
    (hh : h.length = t.bitwidth.numBytes) :
    store native t (pre ++ (h ++ post)) = hostOrder native t h := by
  have hget : ∀ j < h.length, (pre ++ (h ++ post)).getD (pre.length + j) 0 = h.getD j 0 := by
    intro j hj
    rw [List.getD_append_right _ _ _ _ (by omega), Nat.add_sub_cancel_left,
      List.getD_append _ _ _ _ hj]
  apply List.ext_getElem (by simp [store, length_hostOrder, hh])
  intro i h1 h2
  have hi : i < h.length := by rw [length_hostOrder] at h2; exact h2
  simp only [store, List.getElem_map, List.getElem_range, hostOrder, address, offset]
  split_ifs with hn
  · rw [← hp, hget i hi, List.getD_eq_getElem _ _ hi]
  · have e : padding native t + t.bitwidth.numBytes - 1 - i = pre.length + (h.length - 1 - i) := by
      omega
    rw [e, hget _ (by omega), List.getD_eq_getElem _ _ (by omega), List.getElem_reverse]

/-- **Storing** takes the top bytes of the storage word. -/
theorem store_eq (v : ℕ) :
    store native t (native.toBytes t.bitwidth.storage.bytes v) =
      t.endian.toBytes t.bitwidth.numBytes
        (v / 256 ^ (t.bitwidth.storage.bytes - t.bitwidth.numBytes)) := by
  have hle := t.bitwidth.numBytes_le_storage
  rw [← hostOrder_toBytes native t]
  obtain ⟨d, hd⟩ := Nat.exists_eq_add_of_le hle
  have hsub : t.bitwidth.storage.bytes - t.bitwidth.numBytes = d := by omega
  rw [hsub, hd, Nat.add_comm]
  cases native
  · have e : EndianType.bigEndian.toBytes (d + t.bitwidth.numBytes) v =
        [] ++ (Bytes.beBytes t.bitwidth.numBytes (v / 256 ^ d) ++ Bytes.beBytes d v) := by
      simp only [EndianType.toBytes, Bytes.beBytes, Bytes.leBytes_add, List.reverse_append,
        List.nil_append]
    rw [e, store_image _ _ (by simp [padding]) (by simp)]; rfl
  · have e : EndianType.littleEndian.toBytes (d + t.bitwidth.numBytes) v =
        Bytes.leBytes d v ++ (Bytes.leBytes t.bitwidth.numBytes (v / 256 ^ d) ++ []) := by
      simp only [EndianType.toBytes, Bytes.leBytes_add, List.append_nil]
    rw [e, store_image _ _ (by simp [padding, hsub]) (by simp)]; rfl

end Intermediate

/-! ## Reading and writing one sample -/

section
variable (native : EndianType)

/-- `read_impl`, on the bytes that the iterator delivers. -/
def readImpl (V : IntType) (t : IntTag) (bs : List UInt8) : V.Val :=
  convertTo V t.storage (BitVec.ofNat _ (native.ofBytes (Intermediate.load native t.1 bs)))

/-- `write_impl`: the bytes that are copied to the iterator. -/
def writeImpl (V : IntType) (t : IntTag) (v : V.Val) : List UInt8 :=
  Intermediate.store native t.1
    (native.toBytes t.1.bitwidth.storage.bytes (convertTo t.storage V v).toNat)

/-- `pcm::read` with a runtime format. -/
def read (V : IntType) (f : IntFormat) (bs : List UInt8) : V.Val := readImpl native V f.tag bs

/-- `pcm::write` with a runtime format. -/
def write (V : IntType) (f : IntFormat) (v : V.Val) : List UInt8 := writeImpl native V f.tag v

end

/-- The width of a sample. -/
def IntTag.bits (t : IntTag) : ℕ := t.1.bitwidth.bits

theorem IntTag.bits_pos (t : IntTag) : 0 < t.bits := by
  have := t.1.bitwidth.numBytes_pos
  rw [IntTag.bits, BitwidthType.bits_eq]; omega

theorem IntTag.bits_le_storage (t : IntTag) : t.bits ≤ t.storage.bits := by
  have := t.1.bitwidth.numBytes_le_storage
  rw [IntTag.bits, BitwidthType.bits_eq]
  exact Nat.mul_le_mul_left 8 this

/-- The sample that the bytes `bs` denote, at its own width. -/
def IntTag.sample (t : IntTag) (bs : List UInt8) : BitVec t.bits :=
  BitVec.ofNat _ (t.1.endian.ofBytes bs)

theorem pow256 (k : ℕ) : 256 ^ k = 2 ^ (8 * k) := by rw [pow_mul]; rfl

theorem two_pow_bits (b : BitwidthType) : 2 ^ b.bits = 256 ^ b.numBytes := by
  rw [pow256, BitwidthType.bits_eq]

section
variable {native : EndianType} {V : IntType} {t : IntTag}

theorem IntTag.toNat_sample {bs : List UInt8} (h : bs.length = t.1.bitwidth.numBytes) :
    (t.sample bs).toNat = t.1.endian.ofBytes bs := by
  have hlt := t.1.endian.ofBytes_lt bs
  rw [h, ← two_pow_bits] at hlt
  rw [IntTag.sample, BitVec.toNat_ofNat]
  exact Nat.mod_eq_of_lt hlt

/-- The storage word holds the sample top aligned. -/
theorem load_sample {bs : List UInt8} (h : bs.length = t.1.bitwidth.numBytes) :
    (BitVec.ofNat t.storage.bits (native.ofBytes (Intermediate.load native t.1 bs))) =
      shiftCast t.signed t.storage.bits (t.sample bs) := by
  apply BitVec.eq_of_toNat_eq
  have hlt : scale t.bits t.storage.bits (t.sample bs).toNat < 2 ^ t.storage.bits :=
    scale_lt (BitVec.isLt _)
  have hle := t.bits_le_storage
  rw [toNat_shiftCast, BitVec.toNat_ofNat, Intermediate.load_eq native t.1 h]
  have e : scale t.bits t.storage.bits (t.sample bs).toNat = t.1.endian.ofBytes bs *
      256 ^ (t.1.bitwidth.storage.bytes - t.1.bitwidth.numBytes) := by
    have hexp : t.storage.bits - t.bits =
        8 * (t.1.bitwidth.storage.bytes - t.1.bitwidth.numBytes) := by
      rw [IntTag.bits, BitwidthType.bits_eq, Nat.mul_sub]; rfl
    rw [scale, if_neg (by omega), IntTag.toNat_sample h, pow256, hexp]
  rw [← e, Nat.mod_eq_of_lt hlt]

variable (native V t) in
/-- **Specification of `pcm::read`.** -/
theorem level_readImpl {bs : List UInt8} (h : bs.length = t.1.bitwidth.numBytes) :
    level V.signed (readImpl native V t bs) =
      scale t.bits V.bits (level t.signed (t.sample bs)) := by
  have hs : t.storage.signed = t.signed := rfl
  rw [readImpl, level_convertTo, load_sample h, hs, level_shiftCast t.bits_pos,
    scale_scale (Or.inl t.bits_le_storage)]

variable (V t) in
/-- The value `v` at the width of the samples of `t`. -/
def IntTag.quantize (v : V.Val) : BitVec t.bits :=
  shiftCast t.signed t.bits (convertTo t.storage V v)

theorem level_quantize (v : V.Val) :
    level t.signed (t.quantize V v) = scale V.bits t.bits (level V.signed v) := by
  have hs : t.storage.signed = t.signed := rfl
  have h := level_convertTo t.storage V v
  rw [hs] at h
  rw [IntTag.quantize, level_shiftCast t.storage.bits_pos, h,
    scale_scale (Or.inr t.bits_le_storage)]

/-- **Specification of `pcm::write`.** -/
theorem writeImpl_eq (v : V.Val) :
    writeImpl native V t v = t.1.endian.toBytes t.1.bitwidth.numBytes (t.quantize V v).toNat := by
  have hle := t.bits_le_storage
  rw [writeImpl, Intermediate.store_eq, IntTag.quantize, toNat_shiftCast, scale]
  congr 1
  have hexp : 8 * (t.1.bitwidth.storage.bytes - t.1.bitwidth.numBytes) =
      t.storage.bits - t.bits := by
    rw [IntTag.bits, BitwidthType.bits_eq, Nat.mul_sub]; rfl
  rw [pow256, hexp]
  split_ifs with h
  · rfl
  · rw [show t.storage.bits - t.bits = 0 by omega, show t.bits - t.storage.bits = 0 by omega]
    simp

@[simp] theorem length_writeImpl (v : V.Val) :
    (writeImpl native V t v).length = t.1.bitwidth.numBytes := by
  rw [writeImpl_eq, EndianType.length_toBytes]

variable (native V t) in
theorem sample_writeImpl (v : V.Val) : t.sample (writeImpl native V t v) = t.quantize V v := by
  apply BitVec.eq_of_toNat_eq
  rw [IntTag.toNat_sample (length_writeImpl v), writeImpl_eq, EndianType.ofBytes_toBytes,
    ← two_pow_bits]
  exact Nat.mod_eq_of_lt (BitVec.isLt _)

/-- Bytes of one sample are determined by the sample. -/
theorem IntTag.sample_injective {xs ys : List UInt8} (hx : xs.length = t.1.bitwidth.numBytes)
    (hy : ys.length = t.1.bitwidth.numBytes) (h : t.sample xs = t.sample ys) : xs = ys := by
  have := congrArg BitVec.toNat h
  rw [IntTag.toNat_sample hx, IntTag.toNat_sample hy] at this
  exact t.1.endian.ofBytes_inj (hx.trans hy.symm) this

/-- Reading at a width no less than the sample's and writing back gives the
    bytes back. -/
theorem writeImpl_readImpl {bs : List UInt8} (h : bs.length = t.1.bitwidth.numBytes)
    (hw : t.bits ≤ V.bits) : writeImpl native V t (readImpl native V t bs) = bs := by
  apply IntTag.sample_injective (length_writeImpl _) h
  apply level_injective t.signed
  rw [sample_writeImpl, level_quantize, level_readImpl _ _ _ h, scale_scale (Or.inl hw), scale_self]

variable (native t) in
/-- The level that is read back after a write. -/
theorem level_readImpl_writeImpl (v : V.Val) :
    level V.signed (readImpl native V t (writeImpl native V t v)) =
      scale t.bits V.bits (scale V.bits t.bits (level V.signed v)) := by
  rw [level_readImpl _ _ _ (length_writeImpl v), sample_writeImpl, level_quantize]

/-- Writing what was read depends on the samples' widths only, not on the
    type in between. -/
theorem level_quantize_readImpl {g : IntTag} {bs : List UInt8}
    (h : bs.length = t.1.bitwidth.numBytes) (hw : t.bits ≤ V.bits ∨ g.bits ≤ V.bits) :
    level g.signed (g.quantize V (readImpl native V t bs)) =
      scale t.bits g.bits (level t.signed (t.sample bs)) := by
  rw [level_quantize, level_readImpl _ _ _ h, scale_scale hw]

end

end NiMedia
