/-
  Formats as strings (`pcm/runtime_format.h`): `runtime_format( const std::string& )`
  and `operator<<`.

  * `regexMatch_iff`: what the regular expression matches, and its groups.
  * `ofString_iff`: which strings denote which format, and that a format denotes
    itself when it is printed.
-/
import NiMedia.Pcm.Format
import Mathlib.Data.List.TakeWhile

namespace NiMedia

/-! ## The source -/

/-- `std::regex_match( str, match, regex )` for `([fsu])([0-9]{1,2})(le|be|ne)`, with
    the three groups. -/
def regexMatch (str : List Char) : Option (List Char × List Char × List Char) :=
  let number := str.take 1
  let bitwidth := (str.drop 1).takeWhile Char.isDigit
  let endian := (str.drop 1).dropWhile Char.isDigit
  if number ∈ [['f'], ['s'], ['u']] ∧ (bitwidth.length = 1 ∨ bitwidth.length = 2) ∧
      endian ∈ [['l', 'e'], ['b', 'e'], ['n', 'e']] then
    some (number, bitwidth, endian)
  else none

def toNumber (str : List Char) : NumberType :=
  if str = ['f'] then .floatingPoint else if str = ['s'] then .signedInteger else .unsignedInteger

/-- `std::stoul`, of digits. -/
def toBitwidth (str : List Char) : ℕ := str.foldl (fun n c => 10 * n + (c.toNat - 48)) 0

def toEndian (native : EndianType) (str : List Char) : EndianType :=
  if str = ['l', 'e'] then .littleEndian else if str = ['b', 'e'] then .bigEndian else native

namespace RuntimeFormat

/-- `runtime_format( const std::string& str )`. -/
def ofString (native : EndianType) (str : String) : Except RuntimeError RuntimeFormat :=
  match regexMatch str.toList with
  | some (number, bitwidth, endian) =>
    ofBits (toNumber number) (toBitwidth bitwidth) (toEndian native endian)
  | none => .error ⟨"Invalid format: " ++ str⟩

def numberText : NumberType → String
  | .floatingPoint => "f"
  | .signedInteger => "s"
  | .unsignedInteger => "u"

def endianText : EndianType → String
  | .bigEndian => "be"
  | .littleEndian => "le"

/-- `operator<<`. -/
def print (f : RuntimeFormat) : String :=
  numberText f.number ++ toString f.bitwidth.bits ++ endianText f.endian

end RuntimeFormat

/-! ## What matches -/

/-- The groups, one after the other. -/
structure Groups (str number bitwidth endian : List Char) : Prop where
  eq : str = number ++ (bitwidth ++ endian)
  number : number ∈ [['f'], ['s'], ['u']]
  digits : ∀ c ∈ bitwidth, c.isDigit = true
  length : bitwidth.length = 1 ∨ bitwidth.length = 2
  endian : endian ∈ [['l', 'e'], ['b', 'e'], ['n', 'e']]

theorem regexMatch_iff {str number bitwidth endian : List Char} :
    regexMatch str = some (number, bitwidth, endian) ↔ Groups str number bitwidth endian := by
  constructor
  · intro h
    unfold regexMatch at h
    dsimp only at h
    split_ifs at h with hok
    obtain ⟨rfl, rfl, rfl⟩ : str.take 1 = number ∧ (str.drop 1).takeWhile Char.isDigit = bitwidth ∧
        (str.drop 1).dropWhile Char.isDigit = endian := by simpa using h
    obtain ⟨hnumber, hlength, hendian⟩ := hok
    refine ⟨?_, hnumber, ?_, hlength, hendian⟩
    · rw [List.takeWhile_append_dropWhile, List.take_append_drop]
    · intro c hc
      exact List.mem_takeWhile_imp hc
  · rintro ⟨rfl, hnumber, hdigits, hlength, hendian⟩
    have hone : number.length = 1 := by
      simp only [List.mem_cons, List.not_mem_nil, or_false] at hnumber
      rcases hnumber with rfl | rfl | rfl <;> rfl
    -- the byte order does not begin with a digit
    have hletter : endian.takeWhile Char.isDigit = [] ∧ endian.dropWhile Char.isDigit = endian := by
      simp only [List.mem_cons, List.not_mem_nil, or_false] at hendian
      rcases hendian with rfl | rfl | rfl <;> exact ⟨rfl, rfl⟩
    have htake : (bitwidth ++ endian).takeWhile Char.isDigit = bitwidth := by
      rw [List.takeWhile_append_of_pos hdigits, hletter.1, List.append_nil]
    have hdrop : (bitwidth ++ endian).dropWhile Char.isDigit = endian := by
      rw [List.dropWhile_append_of_pos hdigits, hletter.2]
    unfold regexMatch
    dsimp only
    rw [List.take_left' hone, List.drop_left' hone, htake, hdrop,
      if_pos ⟨hnumber, hlength, hendian⟩]

/-! ## The bit width -/

theorem isDigit_toNat {c : Char} (h : c.isDigit = true) : 48 ≤ c.toNat ∧ c.toNat ≤ 57 := by
  simpa [Char.isDigit, UInt32.le_iff_toNat_le] using h

/-- A digit from its value. -/
theorem digit_eq {c d : Char} (hc : c.isDigit = true) (hd : d.isDigit = true)
    (h : c.toNat - 48 = d.toNat - 48) : c = d := by
  have hcv := isDigit_toNat hc
  have hdv := isDigit_toNat hd
  have hv : c.toNat = d.toNat := by omega
  exact Char.ext (UInt32.toNat_inj.1 hv)

/-- The digits that the expression takes for a bit width: `std::stoul` skips a
    leading zero, for which only the width of 8 bits has room. -/
def bitwidthTexts : BitwidthType → List (List Char)
  | ._8bit => [['8'], ['0', '8']]
  | ._16bit => [['1', '6']]
  | ._24bit => [['2', '4']]
  | ._32bit => [['3', '2']]
  | ._64bit => [['6', '4']]

theorem toBitwidth_texts {b : BitwidthType} {ds : List Char} (h : ds ∈ bitwidthTexts b) :
    toBitwidth ds = b.bits ∧ (∀ c ∈ ds, c.isDigit = true) ∧ (ds.length = 1 ∨ ds.length = 2) := by
  cases b <;> simp only [bitwidthTexts, List.mem_cons, List.not_mem_nil, or_false] at h
  case _8bit => rcases h with rfl | rfl <;> exact ⟨rfl, by simp [Char.isDigit], by simp⟩
  all_goals
    subst h
    exact ⟨rfl, by simp [Char.isDigit], by simp⟩

/-- One or two digits with the value of a width spell the width. -/
theorem mem_bitwidthTexts {b : BitwidthType} {ds : List Char} (hd : ∀ c ∈ ds, c.isDigit = true)
    (hl : ds.length = 1 ∨ ds.length = 2) (h : toBitwidth ds = b.bits) : ds ∈ bitwidthTexts b := by
  rcases hl with hl | hl
  · obtain ⟨c, rfl⟩ := List.length_eq_one_iff.1 hl
    have hc := hd c (by simp)
    have hv : c.toNat - 48 = b.bits := by simpa [toBitwidth] using h
    have hle := isDigit_toNat hc
    cases b <;> simp only [BitwidthType.bits] at hv
    case _8bit =>
      rw [digit_eq (d := '8') hc rfl hv]
      simp [bitwidthTexts]
    all_goals omega
  · obtain ⟨c, d, rfl⟩ := List.length_eq_two.1 hl
    have hc := hd c (by simp)
    have hd := hd d (by simp)
    have hv : 10 * (c.toNat - 48) + (d.toNat - 48) = b.bits := by simpa [toBitwidth] using h
    have hcle := isDigit_toNat hc
    have hdle := isDigit_toNat hd
    -- the two digits of the width
    have hdigits : c.toNat - 48 = b.bits / 10 ∧ d.toNat - 48 = b.bits % 10 := by omega
    cases b <;> simp only [BitwidthType.bits] at hdigits
    case _8bit =>
      rw [digit_eq (d := '0') hc rfl hdigits.1, digit_eq (d := '8') hd rfl hdigits.2]
      simp [bitwidthTexts]
    case _16bit =>
      rw [digit_eq (d := '1') hc rfl hdigits.1, digit_eq (d := '6') hd rfl hdigits.2]
      simp [bitwidthTexts]
    case _24bit =>
      rw [digit_eq (d := '2') hc rfl hdigits.1, digit_eq (d := '4') hd rfl hdigits.2]
      simp [bitwidthTexts]
    case _32bit =>
      rw [digit_eq (d := '3') hc rfl hdigits.1, digit_eq (d := '2') hd rfl hdigits.2]
      simp [bitwidthTexts]
    case _64bit =>
      rw [digit_eq (d := '6') hc rfl hdigits.1, digit_eq (d := '4') hd rfl hdigits.2]
      simp [bitwidthTexts]

/-! ## The strings of a format -/

namespace RuntimeFormat

variable {native : EndianType} {f : RuntimeFormat} {str : List Char}

/-- The byte order under its own name, or as that of the host. -/
def EndianText (native e : EndianType) (text : List Char) : Prop :=
  text = (endianText e).toList ∨ (text = ['n', 'e'] ∧ e = native)

/-- The string spells the format on a host of the byte order `native`. -/
def Spells (native : EndianType) (f : RuntimeFormat) (str : List Char) : Prop :=
  ∃ bitwidth ∈ bitwidthTexts f.bitwidth, ∃ endian, EndianText native f.endian endian ∧
    str = (numberText f.number).toList ++ (bitwidth ++ endian)

theorem toNumber_numberText (n : NumberType) : toNumber (numberText n).toList = n := by
  cases n <;> rfl

theorem numberText_toNumber {number : List Char} (h : number ∈ [['f'], ['s'], ['u']]) :
    (numberText (toNumber number)).toList = number := by
  simp only [List.mem_cons, List.not_mem_nil, or_false] at h
  rcases h with rfl | rfl | rfl <;> rfl

theorem EndianText.toEndian {e : EndianType} {text : List Char} (h : EndianText native e text) :
    toEndian native text = e ∧ text ∈ [['l', 'e'], ['b', 'e'], ['n', 'e']] := by
  rcases h with rfl | ⟨rfl, rfl⟩
  · cases e <;> exact ⟨rfl, by decide⟩
  · exact ⟨rfl, by decide⟩

theorem endianText_toEndian {text : List Char} (h : text ∈ [['l', 'e'], ['b', 'e'], ['n', 'e']]) :
    EndianText native (NiMedia.toEndian native text) text := by
  simp only [List.mem_cons, List.not_mem_nil, or_false] at h
  rcases h with rfl | rfl | rfl
  · left; cases native <;> rfl
  · left; cases native <;> rfl
  · right; exact ⟨rfl, rfl⟩

theorem Spells.groups (h : Spells native f str) :
    ∃ number bitwidth endian, Groups str number bitwidth endian ∧ toNumber number = f.number ∧
      toBitwidth bitwidth = f.bitwidth.bits ∧ toEndian native endian = f.endian := by
  obtain ⟨bitwidth, hb, endian, he, rfl⟩ := h
  obtain ⟨hbits, hdigits, hlength⟩ := toBitwidth_texts hb
  refine ⟨(numberText f.number).toList, bitwidth, endian,
    ⟨rfl, ?_, hdigits, hlength, he.toEndian.2⟩, toNumber_numberText f.number, hbits,
    he.toEndian.1⟩
  cases f.number <;> decide

/-- What a string denotes. -/
theorem ofString_ok_iff {str : String} :
    ofString native str = .ok f ↔ Spells native f str.toList := by
  constructor
  · intro h
    unfold ofString at h
    cases hm : regexMatch str.toList with
    | none => rw [hm] at h; cases h
    | some groups =>
      obtain ⟨number, bitwidth, endian⟩ := groups
      rw [hm] at h
      obtain ⟨heq, hnumber, hdigits, hlength, hendian⟩ := regexMatch_iff.1 hm
      obtain ⟨hn, hb, he⟩ := ofBits_ok h
      refine ⟨bitwidth, mem_bitwidthTexts hdigits hlength hb.symm, endian, ?_, ?_⟩
      · rw [he]
        exact endianText_toEndian hendian
      · rw [hn, numberText_toNumber hnumber]
        exact heq
  · intro h
    obtain ⟨number, bitwidth, endian, hgroups, hn, hb, he⟩ := h.groups
    unfold ofString
    rw [regexMatch_iff.2 hgroups]
    simp only
    rw [hn, hb, he]
    exact ofBits_tag f

/-- A printed format spells it, on every host. -/
theorem spells_print (native : EndianType) (f : RuntimeFormat) :
    Spells native f (print f).toList := by
  refine ⟨(toString f.bitwidth.bits).toList, ?_, (endianText f.endian).toList, Or.inl rfl, ?_⟩
  · cases f.bitwidth <;> decide
  · simp [print]

/-! ## What is refused -/

theorem ofParts_error {n : NumberType} {b : BitwidthType} {e : EndianType}
    (h : (⟨n, b, e⟩ : CompiletimeFormat) ∉ compiletimeFormats) :
    ofParts n b e = .error ⟨"Invalid format"⟩ := dif_neg h

theorem ofBits_bits (n : NumberType) (b : BitwidthType) (e : EndianType) :
    ofBits n b.bits e = ofParts n b e := by
  cases b <;> rfl

theorem ofBits_error {n : NumberType} {bits : ℕ} {e : EndianType}
    (h : ∀ b : BitwidthType, b.bits ≠ bits) : ofBits n bits e = .error ⟨"Invalid bitwidth: 0"⟩ := by
  unfold ofBits
  split
  case h_6 => rfl
  · exact absurd rfl (h ._8bit)
  · exact absurd rfl (h ._16bit)
  · exact absurd rfl (h ._24bit)
  · exact absurd rfl (h ._32bit)
  · exact absurd rfl (h ._64bit)

/-- The message of a refused string: what does not match is quoted, a width that
    no format has is not, and neither is a floating format of a width that only
    integers have. -/
inductive Refused (native : EndianType) (str : String) : RuntimeError → Prop where
  | form (h : ∀ number bitwidth endian, ¬ Groups str.toList number bitwidth endian) :
      Refused native str ⟨"Invalid format: " ++ str⟩
  | bitwidth {number bitwidth endian : List Char} (h : Groups str.toList number bitwidth endian)
      (hb : ∀ b : BitwidthType, b.bits ≠ toBitwidth bitwidth) :
      Refused native str ⟨"Invalid bitwidth: 0"⟩
  | floating {bitwidth endian : List Char} {b : BitwidthType}
      (h : Groups str.toList ['f'] bitwidth endian) (hb : b.bits = toBitwidth bitwidth)
      (hint : b ≠ ._32bit ∧ b ≠ ._64bit) : Refused native str ⟨"Invalid format"⟩

theorem refused_of_error {str : String} {e : RuntimeError} (h : ofString native str = .error e) :
    Refused native str e := by
  unfold ofString at h
  cases hm : regexMatch str.toList with
  | none =>
    rw [hm] at h
    cases h
    refine .form fun number bitwidth endian hgroups => ?_
    rw [regexMatch_iff.2 hgroups] at hm
    cases hm
  | some groups =>
    obtain ⟨number, bitwidth, endian⟩ := groups
    rw [hm] at h
    have hgroups := regexMatch_iff.1 hm
    simp only at h
    by_cases hb : ∃ b : BitwidthType, b.bits = toBitwidth bitwidth
    · obtain ⟨b, hb⟩ := hb
      rw [← hb, ofBits_bits] at h
      unfold ofParts at h
      split at h
      · cases h
      · rename_i hmem
        cases h
        rw [mem_compiletimeFormats] at hmem
        simp only [ne_eq, not_or, not_not] at hmem
        obtain ⟨hn, hint⟩ := hmem
        have hnumber : ['f'] = number := by
          rw [← numberText_toNumber hgroups.number, hn]
          rfl
        subst hnumber
        exact .floating hgroups hb hint
    · rw [not_exists] at hb
      rw [ofBits_error hb] at h
      cases h
      exact .bitwidth hgroups hb

theorem Refused.error {str : String} {e : RuntimeError} (h : Refused native str e) :
    ofString native str = .error e := by
  unfold ofString
  cases h with
  | form h =>
    cases hm : regexMatch str.toList with
    | none => rfl
    | some groups => exact absurd (regexMatch_iff.1 hm) (h _ _ _)
  | bitwidth h hb =>
    rw [regexMatch_iff.2 h]
    exact ofBits_error hb
  | floating h hb hint =>
    rw [regexMatch_iff.2 h]
    simp only
    rw [← hb, ofBits_bits]
    refine ofParts_error fun hmem => ?_
    rw [mem_compiletimeFormats] at hmem
    rcases hmem with hn | h32 | h64
    · exact hn rfl
    · exact hint.1 h32
    · exact hint.2 h64

/-- **The strings of `runtime_format`**: which ones denote a format, which errors
    the others have, and that every format denotes itself when it is printed, on
    this host and on any other. -/
theorem ofString_spec (native : EndianType) :
    (∀ str f, ofString native str = .ok f ↔ Spells native f str.toList) ∧
      (∀ str e, ofString native str = .error e ↔ Refused native str e) ∧
      ∀ f, ofString native (print f) = .ok f := by
  refine ⟨fun str f => ofString_ok_iff, fun str e => ⟨refused_of_error, Refused.error⟩, fun f => ?_⟩
  rw [ofString_ok_iff]
  exact spells_print native f

end RuntimeFormat

end NiMedia
