import Mathlib.Data.List.Induction
import Mathlib.Data.Nat.Digits.Defs
import Mathlib.Data.String.Basic
import TransitionNetwork.Proofs.Sequences
import TransitionNetwork.Stream.CodecWords
import TransitionNetwork.Stream.Writer

/-!
# Identifiers and their texts

The text of an identifier is read back as its number, which is taken modulo 2^128. Cut into parts of
16 bits the identifier is put together again, modulo the same power. The digits of the text are
those of its five fields, and what is computed in 128 bits is the number itself, so machine words
lose nothing.
-/

namespace TransitionNetwork

namespace Identifier

/-! ## Digits -/

/-- A digit is read as its value. -/
theorem hexValue?_hexDigit : ∀ value < 16, hexValue? (hexDigit value) = some value := by decide

/-- No digit is the hyphen that separates groups. -/
theorem hexDigit_ne_hyphen : ∀ value < 16, hexDigit value ≠ '-' := by decide

/-- No digit is the sign that a text may begin with. -/
theorem hexDigit_ne_plus : ∀ value < 16, hexDigit value ≠ '+' := by decide

/-- The digits are those of the library in upper case. -/
theorem toUpper_digitChar : ∀ value < 16, (Nat.digitChar value).toUpper = hexDigit value := by
  decide

/-- There are as many digits as asked for. -/
theorem length_hexDigits (width n : Nat) : (hexDigits width n).length = width := by
  induction width generalizing n with
  | zero => rfl
  | succ width ih => rw [hexDigits, List.length_append, ih, List.length_singleton]

/-- What holds of every digit holds of the digits of a number. -/
theorem forall_mem_hexDigits {P : Char → Prop} (h : ∀ value < 16, P (hexDigit value))
    (width n : Nat) : ∀ c ∈ hexDigits width n, P c := by
  induction width generalizing n with
  | zero => exact fun c hc => (List.not_mem_nil hc).elim
  | succ width ih =>
    rw [hexDigits, List.forall_mem_append]
    exact ⟨ih _, List.forall_mem_singleton.mpr (h _ (Nat.mod_lt n (by decide)))⟩

/-- The digits of a number behind the others are those of its last digits alone. -/
theorem hexDigits_add (front back n : Nat) :
    hexDigits (front + back) n = hexDigits front (n / 16 ^ back) ++ hexDigits back n := by
  induction back generalizing n with
  | zero => simp [hexDigits]
  | succ back ih =>
    rw [← Nat.add_assoc, hexDigits, ih, Nat.div_div_eq_div_mul, ← Nat.pow_succ', hexDigits,
      List.append_assoc]

/-- Digits in front of the last ones do not matter for them. -/
theorem hexDigits_mod (width n : Nat) : hexDigits width (n % 16 ^ width) = hexDigits width n := by
  induction width generalizing n with
  | zero => rfl
  | succ width ih =>
    rw [hexDigits, hexDigits, Nat.pow_succ, Nat.mod_mul_left_div_self, ih,
      Nat.mod_mul_left_mod]

/-- The digits of zero are zeros. -/
theorem hexDigits_zero (width : Nat) : hexDigits width 0 = List.replicate width '0' := by
  induction width with
  | zero => rfl
  | succ width ih => rw [hexDigits, Nat.zero_div, ih, List.replicate_succ']; rfl

/-- The last digit is read behind the others. -/
theorem ofDigits?_concat (cs : List Char) (c : Char) :
    ofDigits? (cs ++ [c]) = (ofDigits? cs).bind fun n => (hexValue? c).map (16 * n + ·) :=
  foldlM_concat _ 0 cs c

/-- The last digits of a number are read as what they leave of it. -/
theorem ofDigits?_hexDigits (width n : Nat) :
    ofDigits? (hexDigits width n) = some (n % 16 ^ width) := by
  induction width generalizing n with
  | zero => rw [Nat.pow_zero, Nat.mod_one]; rfl
  | succ width ih =>
    have hlast := hexValue?_hexDigit (n % 16) (Nat.mod_lt n (by decide))
    rw [hexDigits, ofDigits?_concat, ih, Option.bind_some, hlast, Option.map_some,
      Nat.pow_succ', Nat.mod_mul, Nat.add_comm]

/-! ## Texts -/

/-- Cut into groups, the characters are all there as far as the groups reach. -/
theorem flatten_cut (widths : List Nat) (cs : List Char) :
    (cut widths cs).flatten = cs.take widths.sum := by
  induction widths generalizing cs with
  | nil => rfl
  | cons width widths ih =>
    rw [cut, List.flatten_cons, ih, List.sum_cons, List.take_add]

/-- Without its hyphens the text is the digits. -/
theorem filter_toList_text (value : Nat) :
    (text value).toList.filter (· ≠ '-') = hexDigits 32 value := by
  have hall : groups.sum = 32 := rfl
  rw [text, String.toList_ofList, filter_intercalate (by decide), flatten_cut, hall,
    List.take_of_length_le (length_hexDigits 32 value).le, List.filter_eq_self]
  exact forall_mem_hexDigits (fun digit hdigit => by simpa using hexDigit_ne_hyphen digit hdigit)
    32 value

/-- Where there is no sign none is removed. -/
theorem withoutPlus_eq_self {cs : List Char} (h : ∀ c ∈ cs, c ≠ '+') : withoutPlus cs = cs := by
  unfold withoutPlus
  split
  · exact (h '+' List.mem_cons_self rfl).elim
  · rfl

/-- The digits of a text have room for just the bits of an identifier. -/
theorem sixteen_pow : 16 ^ 32 = 2 ^ 128 := by decide

/-- The text of a number is read as the number, modulo 2^128. -/
theorem parse?_text (value : Nat) : parse? (text value) = some (value % 2 ^ 128) := by
  have hsigned := withoutPlus_eq_self (forall_mem_hexDigits hexDigit_ne_plus 32 value)
  rw [parse?, filter_toList_text, if_pos (length_hexDigits 32 value), hsigned, ofDigits?_hexDigits,
    sixteen_pow]

/-- The text of a number shows its last 128 bits. -/
theorem text_mod (value : Nat) : text (value % 2 ^ 128) = text value := by
  rw [text, text, ← sixteen_pow, hexDigits_mod]

/-- Identifiers with the same text are equal. -/
theorem text_inj {v w : BitVec 128} : text v.toNat = text w.toNat ↔ v = w := by
  constructor
  · intro h
    have hparsed := congrArg parse? h
    rw [parse?_text, parse?_text, Option.some.injEq, Nat.mod_eq_of_lt v.isLt,
      Nat.mod_eq_of_lt w.isLt] at hparsed
    exact BitVec.eq_of_toNat_eq hparsed
  · exact fun h => h ▸ rfl

/-! ## Parts -/

/-- A part fits into a unit. -/
theorem lt_of_mem_lastParts {count value part : Nat} (h : part ∈ lastParts count value) :
    part < 65536 := by
  induction count generalizing value with
  | zero => exact (List.not_mem_nil h).elim
  | succ count ih =>
    rcases List.mem_cons.mp h with rfl | hrest
    · exact Nat.mod_lt value (by decide)
    · exact ih hrest

/-- The parts of a number are joined to what they leave of it. -/
theorem ofParts_lastParts (count value : Nat) :
    ofParts (lastParts count value) = value % 65536 ^ count := by
  induction count generalizing value with
  | zero => rw [Nat.pow_zero, Nat.mod_one]; rfl
  | succ count ih =>
    rw [Nat.pow_succ', Nat.mod_mul, ← ih]
    rfl

/-- The parts of a number make the same text as the number. -/
theorem text_ofParts_parts (value : Nat) : text (ofParts (parts value)) = text value := by
  rw [parts, ofParts_lastParts]
  exact text_mod value

/-! ## Machine words -/

/-- A field holds the bits from its first one on. -/
theorem toNat_field (shift : Nat) {width : Nat} (hwidth : width ≤ 128) (value : BitVec 128) :
    (field shift width value).toNat = value.toNat / 2 ^ shift % 2 ^ width := by
  have hmask : 2 ^ width - 1 < 2 ^ 128 :=
    Nat.sub_one_lt_of_le (Nat.two_pow_pos width) (Nat.pow_le_pow_right (by decide) hwidth)
  rw [field, BitVec.toNat_and, BitVec.toNat_ushiftRight, BitVec.toNat_ofNat, Nat.one_shiftLeft,
    Nat.mod_eq_of_lt hmask, Nat.and_two_pow_sub_one_eq_mod, Nat.shiftRight_eq_div_pow]

/-- A number that is not too long has its last digits behind the zeros. -/
theorem padded_eq {width n : Nat} (hwidth : 0 < width) (hn : n < 16 ^ width) :
    padded width n = hexDigits width n := by
  induction width generalizing n with
  | zero => exact (Nat.lt_irrefl 0 hwidth).elim
  | succ width ih =>
    have hlast := toUpper_digitChar (n % 16) (Nat.mod_lt n (by decide))
    rw [padded, hexDigits]
    by_cases hdigit : n < 16
    · have hmod : n % 16 = n := Nat.mod_eq_of_lt hdigit
      rw [hmod] at hlast
      rw [Nat.toDigits_of_lt_base hdigit, List.map_singleton, hlast, Nat.div_eq_of_lt hdigit,
        hexDigits_zero, hmod]
      simp [List.leftpad]
    · have hrest : n / 16 < 16 ^ width := by
        rw [Nat.div_lt_iff_lt_mul (by decide), ← Nat.pow_succ]
        exact hn
      have hwidth' : 0 < width := Nat.pos_of_ne_zero fun hzero => by
        subst hzero
        exact hdigit hn
      rw [Nat.toDigits_of_base_le (by decide) (Nat.le_of_not_lt hdigit), List.map_append,
        List.map_singleton, hlast, leftpad_concat, ← ih hwidth' hrest, padded]

/-- A field is printed as the digits of the number from its first bit on. -/
theorem padded_field {digits : Nat} (shift : Nat) (hpos : 0 < digits) (hdigits : digits ≤ 32)
    (value : BitVec 128) :
    padded digits (field shift (4 * digits) value).toNat =
      hexDigits digits (value.toNat / 2 ^ shift) := by
  have hpow : 2 ^ (4 * digits) = 16 ^ digits := Nat.pow_mul 2 4 digits
  rw [toNat_field shift (by omega), hpow, padded_eq hpos (Nat.mod_lt _ (Nat.pow_pos (by decide))),
    hexDigits_mod]

/-- The first group of the digits is the field in front of the bits of the other groups. -/
theorem cut_hexDigits (width : Nat) (widths : List Nat) (n : Nat) :
    cut (width :: widths) (hexDigits (width :: widths).sum n) =
      hexDigits width (n / 2 ^ (4 * widths.sum)) :: cut widths (hexDigits widths.sum n) := by
  have hpow : 2 ^ (4 * widths.sum) = 16 ^ widths.sum := Nat.pow_mul 2 4 widths.sum
  rw [cut, List.sum_cons, hexDigits_add, List.take_left' (length_hexDigits _ _),
    List.drop_left' (length_hexDigits _ _), hpow]

/-- The fields of an identifier have the digits of the groups of its text. -/
theorem map_fields (value : BitVec 128) :
    fields.map (fun (digits, shift) => padded digits (field shift (4 * digits) value).toNat) =
      cut groups (hexDigits 32 value.toNat) := by
  have hbounds : ∀ entry ∈ fields, 0 < entry.1 ∧ entry.1 ≤ 32 := by decide
  have hfields : fields.map (fun (digits, shift) =>
      padded digits (field shift (4 * digits) value).toNat) =
        fields.map fun (digits, shift) => hexDigits digits (value.toNat / 2 ^ shift) :=
    List.map_congr_left fun entry hentry =>
      padded_field entry.2 (hbounds entry hentry).1 (hbounds entry hentry).2 value
  have hgroups := cut_hexDigits 8 [4, 4, 4, 12] value.toNat
  rw [cut_hexDigits 4 [4, 4, 12], cut_hexDigits 4 [4, 12], cut_hexDigits 4 [12],
    cut_hexDigits 12 []] at hgroups
  rw [hfields]
  exact hgroups.symm

/-- The fields make the text of the number. -/
theorem textInWords_eq (value : BitVec 128) : textInWords value = text value.toNat := by
  rw [textInWords, map_fields, text]

/-- The parts of a number are its fields of 16 bits, the lowest first. -/
theorem lastParts_eq_map (count start value : Nat) :
    lastParts count (value / 2 ^ start) =
      (List.range' start count 16).map fun shift => value / 2 ^ shift % 2 ^ 16 := by
  induction count generalizing start with
  | zero => rfl
  | succ count ih =>
    rw [lastParts, List.range'_succ, List.map_cons, ← ih, Nat.pow_add, ← Nat.div_div_eq_div_mul]
    rfl

/-- The parts are written as their values. -/
theorem valuesInWords_eq (value : BitVec 128) :
    (valuesInWords value).map Int32.toInt = (parts value.toNat).map Stream.natValue := by
  have hparts := lastParts_eq_map 8 0 value.toNat
  rw [Nat.pow_zero, Nat.div_one] at hparts
  rw [parts, hparts, valuesInWords, List.map_map, List.map_map]
  apply List.map_congr_left
  intro shift _
  have hpart := Nat.mod_lt (value.toNat / 2 ^ shift) (Nat.two_pow_pos 16)
  simp only [Function.comp_apply]
  rw [toNat_field shift (by decide), Word.ofNumber?, if_pos (by omega), Option.getD_some,
    Int32.toInt_ofNat_of_lt (by omega)]
  rfl

/-- Halves that do not overlap are added by joining their bits. -/
theorem shiftLeft_or {low width : Nat} (h : low < 2 ^ width) (high : Nat) :
    high <<< width ||| low = low + 2 ^ width * high := by
  rw [← Nat.shiftLeft_add_eq_or_of_lt h, Nat.shiftLeft_eq, Nat.mul_comm, Nat.add_comm]

/-- Two parts are joined to a word without overlap. -/
theorem toNat_joinParts (low high : UInt16) :
    (joinParts low high).toNat = low.toNat + 2 ^ 16 * high.toNat := by
  have hlow := low.toNat_lt
  have hhigh := high.toNat_lt
  have hshift : (16 : UInt32).toNat % 32 = 16 := rfl
  rw [joinParts, UInt32.or_comm, UInt32.toNat_or, UInt32.toNat_shiftLeft, UInt16.toNat_toUInt32,
    hshift, UInt16.toNat_toUInt32, Nat.mod_eq_of_lt (by rw [Nat.shiftLeft_eq]; omega),
    shiftLeft_or hlow]

/-- Two words are joined to a half without overlap. -/
theorem toNat_joinWords (low high : UInt32) :
    (joinWords low high).toNat = low.toNat + 2 ^ 32 * high.toNat := by
  have hlow := low.toNat_lt
  have hhigh := high.toNat_lt
  have hshift : (32 : UInt64).toNat % 64 = 32 := rfl
  rw [joinWords, UInt64.or_comm, UInt64.toNat_or, UInt64.toNat_shiftLeft, UInt32.toNat_toUInt64,
    hshift, UInt32.toNat_toUInt64, Nat.mod_eq_of_lt (by rw [Nat.shiftLeft_eq]; omega),
    shiftLeft_or hlow]

/-- Two halves are joined to an identifier without overlap. -/
theorem toNat_joinHalves (least most : UInt64) :
    (joinHalves least most).toNat = least.toNat + 2 ^ 64 * most.toNat := by
  have hleast := least.toNat_lt
  have hmost := most.toNat_lt
  rw [joinHalves, BitVec.toNat_or, BitVec.toNat_shiftLeft, BitVec.toNat_setWidth,
    BitVec.toNat_setWidth, UInt64.toNat_toBitVec, UInt64.toNat_toBitVec,
    Nat.mod_eq_of_lt (a := most.toNat) (by omega), Nat.mod_eq_of_lt (a := least.toNat) (by omega),
    Nat.mod_eq_of_lt (by rw [Nat.shiftLeft_eq]; omega), shiftLeft_or hleast]

/-- Joined half by half, eight parts make the number that they make one after the other. -/
theorem toNat_joined (p₀ p₁ p₂ p₃ p₄ p₅ p₆ p₇ : UInt16) :
    (joinHalves (joinWords (joinParts p₀ p₁) (joinParts p₂ p₃))
      (joinWords (joinParts p₄ p₅) (joinParts p₆ p₇))).toNat =
        ofParts ([p₀, p₁, p₂, p₃, p₄, p₅, p₆, p₇].map UInt16.toNat) := by
  simp only [toNat_joinHalves, toNat_joinWords, toNat_joinParts, ofParts, List.map_cons,
    List.map_nil, List.foldr_cons, List.foldr_nil]
  omega

/-! ## Texts in machine words -/

/-- A digit is below sixteen, and one byte long in a text. -/
theorem hexValue?_bounds {c : Char} {digit : Nat} (h : hexValue? c = some digit) :
    digit < 16 ∧ c.utf8Size = 1 := by
  rw [Char.utf8Size_eq_one_iff, UInt32.le_iff_toNat_le]
  simp only [hexValue?, Char.le_def, UInt32.le_iff_toNat_le, Char.toNat] at h
  change _ ∧ c.val.toNat ≤ 127
  split at h
  next hdecimal =>
    cases h
    change 48 ≤ c.val.toNat ∧ c.val.toNat ≤ 57 at hdecimal
    omega
  next =>
    split at h
    next hupper =>
      cases h
      change 65 ≤ c.val.toNat ∧ c.val.toNat ≤ 70 at hupper
      omega
    next =>
      split at h
      next hlower =>
        cases h
        change 97 ≤ c.val.toNat ∧ c.val.toNat ≤ 102 at hlower
        omega
      next => cases h

/-- A number of so many digits is below the power, and its text has one byte for each digit. -/
theorem ofDigits?_bounds {cs : List Char} {n : Nat} (h : ofDigits? cs = some n) :
    n < 16 ^ cs.length ∧ String.utf8Len cs = cs.length := by
  induction cs using List.reverseRecOn generalizing n with
  | nil =>
    cases h
    exact ⟨Nat.one_pos, String.utf8Len_nil⟩
  | append_singleton cs c ih =>
    rw [ofDigits?_concat] at h
    obtain ⟨front, hfront, hlast⟩ := Option.bind_eq_some_iff.mp h
    obtain ⟨digit, hdigit, rfl⟩ := Option.map_eq_some_iff.mp hlast
    obtain ⟨hlt, hbytes⟩ := ih hfront
    obtain ⟨hdigit16, hsize⟩ := hexValue?_bounds hdigit
    rw [List.length_append, List.length_singleton, Nat.pow_succ, String.utf8Len_append,
      String.utf8Len_cons, String.utf8Len_nil, hbytes, hsize]
    omega

/-- What 128 bits accumulate is the number of the digits, modulo 2^128. -/
theorem ofDigitsInWords?_eq (cs : List Char) :
    ofDigitsInWords? cs = (ofDigits? cs).map (BitVec.ofNat 128) := by
  induction cs using List.reverseRecOn with
  | nil => rfl
  | append_singleton cs c ih =>
    rw [ofDigitsInWords?, foldlM_concat, ← ofDigitsInWords?, ih, ofDigits?_concat]
    cases ofDigits? cs with
    | none => rfl
    | some n =>
      cases hexValue? c with
      | none => rfl
      | some digit =>
        change some (BitVec.ofNat 128 n * 16 + BitVec.ofNat 128 digit) =
          some (BitVec.ofNat 128 (16 * n + digit))
        rw [BitVec.ofNat_add, BitVec.ofNat_mul, BitVec.mul_comm]
        rfl

/-- A plus sign in front is one character and one byte. -/
theorem bounds_of_withoutPlus {cs : List Char}
    (h : String.utf8Len (withoutPlus cs) = (withoutPlus cs).length) :
    String.utf8Len cs = cs.length ∧ (withoutPlus cs).length ≤ cs.length := by
  unfold withoutPlus at h ⊢
  split at h
  next rest =>
    have hplus : ('+' : Char).utf8Size = 1 := by decide
    rw [String.utf8Len_cons, h, hplus, List.length_cons]
    exact ⟨rfl, Nat.le_succ _⟩
  next => exact ⟨h, le_rfl⟩

/-- Counted in bytes and accumulated in 128 bits, every text is read the same. -/
theorem parseInWords?_eq (s : String) : (parseInWords? s).map BitVec.toNat = parse? s := by
  rw [parseInWords?, parse?]
  generalize s.toList.filter (· ≠ '-') = hex
  simp only [String.toList_ofList, String.utf8ByteSize_ofList, ofDigitsInWords?_eq]
  cases hdigits : ofDigits? (withoutPlus hex) with
  | none => simp
  | some n =>
    obtain ⟨hlt, hbytes⟩ := ofDigits?_bounds hdigits
    obtain ⟨hsame, hshorter⟩ := bounds_of_withoutPlus hbytes
    rw [hsame]
    split
    next hlength =>
      have hfits : n < 2 ^ 128 := by
        rw [← sixteen_pow, ← hlength]
        exact hlt.trans_le (Nat.pow_le_pow_right (by decide) hshorter)
      rw [Option.map_some, Option.map_some, BitVec.toNat_ofNat, Nat.mod_eq_of_lt hfits]
    next => rfl

/-- The text of an identifier is read as the identifier. -/
theorem parseInWords?_text (value : BitVec 128) :
    parseInWords? (text value.toNat) = some value := by
  have hparsed := parseInWords?_eq (text value.toNat)
  rw [parse?_text, Nat.mod_eq_of_lt value.isLt] at hparsed
  obtain ⟨found, hfound, hvalue⟩ := Option.map_eq_some_iff.mp hparsed
  rw [hfound, BitVec.eq_of_toNat_eq hvalue]

end Identifier

end TransitionNetwork
