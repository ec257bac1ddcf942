import ApiCommands.Proofs.Decimal.Shortest
import ApiCommands.Proofs.Json.Number
import ApiCommands.Request.Basic

namespace ApiCommands.Json

/-!
# Numerals are JSON

The bytes of a numeral are read as one literal with its digits, so that the text of an integer and
of a finite number, except the two of largest magnitude, is a JSON number.
-/

open Decimal Text.Utf8

/-- The byte of a digit. -/
def byteOf (c : Char) : UInt8 := c.toNat.toUInt8

theorem toNat_byteOf {c : Char} (h : Decimal.isDigit c = true) :
    (byteOf c).toNat = c.toNat ∧ 0x30 ≤ c.toNat ∧ c.toNat ≤ 0x39 := by
  simp only [Decimal.isDigit, Bool.and_eq_true, decide_eq_true_eq] at h
  have hhigh : c.toNat ≤ 0x39 := h.2
  exact ⟨Nat.mod_eq_of_lt (by omega), h.1, hhigh⟩

theorem isDigit_byteOf {c : Char} (h : Decimal.isDigit c = true) : isDigit (byteOf c) = true := by
  obtain ⟨hbyte, hbounds⟩ := toNat_byteOf h
  rw [isDigit, Bool.and_eq_true, decide_eq_true_eq, decide_eq_true_eq, UInt8.le_iff_toNat_le,
    UInt8.le_iff_toNat_le, hbyte]
  exact hbounds

theorem digitOf_byteOf {c : Char} (h : Decimal.isDigit c = true) :
    digitOf (byteOf c) = digitValue c := by
  rw [digitOf, (toNat_byteOf h).1]
  rfl

theorem encodeChar_of_isDigit {c : Char} (h : Decimal.isDigit c = true) :
    encodeChar c = [byteOf c] := by
  obtain ⟨_, _, hhigh⟩ := toNat_byteOf h
  rw [encodeChar]
  exact if_pos (by omega)

theorem flatMap_encodeChar {cs : List Char} (h : ∀ c ∈ cs, Decimal.isDigit c = true) :
    cs.flatMap encodeChar = cs.map byteOf := by
  induction cs with
  | nil => rfl
  | cons c cs ih =>
      obtain ⟨hc, hrest⟩ := List.forall_mem_cons.mp h
      rw [List.flatMap_cons, encodeChar_of_isDigit hc, ih hrest]
      rfl

/-- Digits are read up to what is no digit. -/
theorem digits_encoded {cs : List Char} (hne : cs ≠ [])
    (h : ∀ c ∈ cs, Decimal.isDigit c = true) {rest : List UInt8}
    (hrest : ∀ b ∈ rest.head?, isDigit b = false) :
    digits (cs.flatMap encodeChar ++ rest) = .ok (cs.map digitValue, rest) := by
  have hall : ∀ b ∈ cs.map byteOf, isDigit b = true := by
    intro b hb
    obtain ⟨c, hc, rfl⟩ := List.mem_map.mp hb
    exact isDigit_byteOf (h c hc)
  have hstop : rest.takeWhile isDigit = [] ∧ rest.dropWhile isDigit = rest := by
    cases rest with
    | nil => exact ⟨rfl, rfl⟩
    | cons b rest =>
        have hb := hrest b rfl
        exact ⟨List.takeWhile_cons_of_neg (by simp [hb]), List.dropWhile_cons_of_neg (by simp [hb])⟩
  have hvalues : (cs.map byteOf).map digitOf = cs.map digitValue := by
    rw [List.map_map]
    exact List.map_congr_left fun c hc => digitOf_byteOf (h c hc)
  rw [flatMap_encodeChar h, digits, List.takeWhile_append_of_pos hall,
    List.dropWhile_append_of_pos hall, hstop.1, hstop.2, List.append_nil, hvalues]
  simp [hne]

def literalOf (negative : Bool) (whole : List Char) (fraction : Option (List Char)) : Literal :=
  ⟨negative, whole.map digitValue, fraction.map (·.map digitValue), none⟩

theorem digitValue_eq_zero {c : Char} (h : Decimal.isDigit c = true) (hzero : digitValue c = 0) :
    c = '0' := by
  obtain ⟨_, hlow, _⟩ := toNat_byteOf h
  rw [digitValue] at hzero
  have : c.toNat = '0'.toNat := by
    have hnat : '0'.toNat = 48 := rfl
    omega
  exact Char.toNat_inj.mp this

theorem encode_pointText (fraction : Option (List Char)) :
    (pointText fraction).flatMap encodeChar =
      fraction.elim [] fun f => 0x2E :: f.flatMap encodeChar := by
  cases fraction <;> rfl

/-- No digit stands after the digits before the point. -/
theorem not_isDigit_head_pointText (fraction : Option (List Char)) :
    ∀ b ∈ ((pointText fraction).flatMap encodeChar).head?, isDigit b = false := by
  rw [encode_pointText]
  cases fraction with
  | none => nofun
  | some f =>
      rintro b ⟨⟩
      decide

section

variable {whole : List Char} {fraction : Option (List Char)}

theorem wholeDigits_numeral (h : IsNumeral whole fraction) :
    wholeDigits (whole.flatMap encodeChar ++ (pointText fraction).flatMap encodeChar) =
      .ok (whole.map digitValue, (pointText fraction).flatMap encodeChar) := by
  have hread := digits_encoded h.whole_ne_nil h.isDigit_whole
    (not_isDigit_head_pointText fraction)
  simp only [wholeDigits, hread, bind, Except.bind]
  split
  case h_1 d ds hzero =>
    -- A zero before other digits is no numeral.
    obtain ⟨c, cs, rfl, hc, hcs⟩ := List.map_eq_cons_iff.mp hzero
    have hdigit := digitValue_eq_zero (h.isDigit_whole c List.mem_cons_self) hc
    rw [h.zero_alone cs (by rw [hdigit])] at hcs
    cases hcs
  case h_2 => rfl

theorem fractionDigits_numeral (h : IsNumeral whole fraction) :
    fractionDigits ((pointText fraction).flatMap encodeChar) =
      .ok (fraction.map (·.map digitValue), []) := by
  rw [encode_pointText]
  cases fraction with
  | none => rfl
  | some f =>
      have hread := digits_encoded (h.fraction_ne_nil f rfl) (h.isDigit_fraction f rfl)
        (show ∀ b ∈ ([] : List UInt8).head?, isDigit b = false from nofun)
      rw [List.append_nil] at hread
      simp only [Option.elim_some, fractionDigits, if_pos, hread, bind, Except.bind]
      rfl

/-- The bytes of a numeral are read as the literal of its digits. -/
theorem readLiteral_numeral (h : IsNumeral whole fraction) (negative : Bool) :
    readLiteral negative ((whole ++ pointText fraction).flatMap encodeChar) =
      .ok (literalOf negative whole fraction, []) := by
  rw [List.flatMap_append]
  simp only [readLiteral, wholeDigits_numeral h, fractionDigits_numeral h, bind, Except.bind]
  rfl

end

theorem token_of_isDigit {b : UInt8} (h : isDigit b = true) (rest : List UInt8) :
    token b rest = ofLiteral false (b :: rest) := by
  have hne : ∀ c : UInt8, isDigit c = false → b ≠ c := by
    rintro c hc rfl
    simp [h] at hc
  simp only [token, hne 0x7B rfl, hne 0x7D rfl, hne 0x5B rfl, hne 0x5D rfl, hne 0x2C rfl,
    hne 0x3A rfl, hne 0x22 rfl, hne 0x2D rfl, if_false, h, if_true]

theorem isBlank_of_isDigit {b : UInt8} (h : isDigit b = true) : isBlank b = false := by
  have hne : ∀ c : UInt8, isDigit c = false → (b == c) = false := by
    intro c hc
    rw [beq_eq_false_iff_ne]
    rintro rfl
    simp [h] at hc
  simp only [isBlank, hne 0x20 rfl, hne 0x09 rfl, hne 0x0A rfl, hne 0x0D rfl, Bool.or_self]

/-- A text of one token is read as the number of that token. -/
theorem parse_number {b : UInt8} {rest : List UInt8} {l : Literal} (hblank : isBlank b = false)
    (htoken : token b rest = (.number l.number, [])) :
    parse (b :: rest) = l.number.map .number := by
  have hempty : tokensUpTo rest.length [] = [] := by cases rest.length <;> rfl
  have htokens : tokens (b :: rest) = [.number l.number] := by
    simp [tokens, tokensUpTo, hblank, htoken, hempty]
  have houtline : Outline.ofBytes (b :: rest) = (.number l.number, false) := by
    rw [Outline.ofBytes, htokens]
    rfl
  rw [parse, readWhole, houtline]
  cases l.number <;> rfl

/-- The text of a numeral, with its sign, denotes the number of its literal. -/
theorem parse_numeral {whole : List Char} {fraction : Option (List Char)}
    (h : IsNumeral whole fraction) (negative : Bool) :
    parse (encode (String.ofList (signText negative ++ (whole ++ pointText fraction)))) =
      (literalOf negative whole fraction).number.map .number := by
  have hread := readLiteral_numeral h negative
  have hliteral : ofLiteral negative ((whole ++ pointText fraction).flatMap encodeChar) =
      (.number (literalOf negative whole fraction).number, []) := by
    rw [ofLiteral, hread]
  rw [encode, String.toList_ofList, List.flatMap_append]
  cases negative with
  | true => exact parse_number rfl hliteral
  | false =>
      obtain ⟨c, cs, rfl⟩ := List.exists_cons_of_ne_nil h.whole_ne_nil
      have hc := h.isDigit_whole c List.mem_cons_self
      have hbyte := isDigit_byteOf hc
      rw [List.cons_append, List.flatMap_cons, encodeChar_of_isDigit hc] at hliteral ⊢
      exact parse_number (isBlank_of_isDigit hbyte) ((token_of_isDigit hbyte _).trans hliteral)

theorem integerOf_natAbs {i : Int} (h : IsInt64 i) :
    integerOf (decide (i < 0)) i.natAbs = .integer i := by
  obtain ⟨hlow, hhigh⟩ := h
  have hpow : Nat.pow 2 63 = 0x8000000000000000 := rfl
  rw [integerOf, hpow]
  by_cases hneg : i < 0
  · have hin : ¬ (i.natAbs = 0 ∨ 0x8000000000000000 < i.natAbs) := by omega
    have hcast : -(i.natAbs : Int) = i := by omega
    rw [decide_eq_true hneg, if_pos rfl, if_neg hin, hcast]
  · have hcast : (i.natAbs : Int) = i := by omega
    rw [decide_eq_false hneg, if_neg Bool.false_ne_true, hcast]

theorem intText_eq (i : Int) :
    intText i = signText (decide (i < 0)) ++ (natDigits i.natAbs ++ pointText none) := by
  cases i with
  | ofNat n => simp [intText, signText, pointText]
  | negSucc n => simp [intText, signText, pointText, Int.negSucc_lt_zero]

/-- The text of an integer denotes that integer. -/
theorem parsed_intText {i : Int} (h : IsInt64 i) :
    Given.parsed? (String.ofList (intText i)) = some (.number (.integer i)) := by
  have hfits : digitsNat 0 ((natDigits i.natAbs).map digitValue) < Nat.pow 2 64 := by
    obtain ⟨hlow, hhigh⟩ := h
    rw [digitsNat_map_natDigits, Nat.pow_eq]
    omega
  have hnumber : (literalOf (decide (i < 0)) (natDigits i.natAbs) none).number =
      .ok (.integer i) := by
    rw [literalOf, Option.map_none, Literal.number_of_fits hfits, digitsNat_map_natDigits,
      integerOf_natAbs h]
  rw [Given.parsed?, intText_eq, parse_numeral (isNumeral_natDigits _), hnumber]
  rfl

/-- Whether a number has the largest significand and the largest exponent. -/
def IsLargest (m : Nat) (e : Int) : Prop := m = 2 ^ 53 - 1 ∧ e = 971

theorem zpow_le_pow {e : Int} {k : Nat} (h : e ≤ k) : (2 : ℚ) ^ e ≤ 2 ^ k := by
  rw [← zpow_natCast]
  gcongr
  norm_num

theorem le_safe {m : Nat} {e : Int} (h : m < 2 ^ 53 - 3 ∧ e ≤ 971 ∨ m < 2 ^ 53 ∧ e ≤ 970) :
    ((m : ℚ) + 1 / 2) * 2 ^ e ≤ safe := by
  rw [safe]
  rcases h with ⟨hm, he⟩ | ⟨hm, he⟩
  · have hcast : (m : ℚ) ≤ (9007199254740988 : Nat) := Nat.cast_le.mpr (by omega)
    have hpow : (2 : ℚ) ^ e ≤ 2 ^ 971 := zpow_le_pow he
    have hfactor : (m : ℚ) + 1 / 2 ≤ 2 ^ 53 - 3 := by
      push_cast at hcast
      linarith
    exact mul_le_mul hfactor hpow (by positivity) (by norm_num)
  · have hcast : (m : ℚ) ≤ (9007199254740991 : Nat) := Nat.cast_le.mpr (by omega)
    have hpow : (2 : ℚ) ^ e ≤ 2 ^ 970 := zpow_le_pow he
    have hdouble : (2 : ℚ) ^ 971 = 2 ^ 970 * 2 := pow_succ 2 970
    have hfactor : (m : ℚ) + 1 / 2 ≤ (2 ^ 53 - 3) * 2 := by
      push_cast at hcast
      linarith
    rw [hdouble, mul_comm ((2 : ℚ) ^ 970), ← mul_assoc]
    exact mul_le_mul hfactor hpow (by positivity) (by norm_num)

/-- The literal of a decimal. -/
def literalOfDigits (negative : Bool) (d : Digits) : Literal :=
  literalOf negative d.parts.1 d.parts.2

/-- The text of a finite number denotes what its literal does. -/
theorem parsed_text (negative : Bool) (m : Nat) (e : Int) :
    Given.parsed? ((Binary64.finite negative m e).text plain) =
      ((literalOfDigits negative (shortest .up m e)).number.map Value.number).toOption := by
  have hnumeral := isNumeral_parts (shortest_bounds .up m e).1
  have hparse := parse_numeral hnumeral negative
  rw [← digitsText_plain] at hparse
  exact congrArg Except.toOption hparse

theorem exists_of_isOk {l : Literal} (h : l.number.isOk = true) : ∃ x, l.number = .ok x := by
  cases hnumber : l.number with
  | ok x => exact ⟨x, rfl⟩
  | error f =>
      rw [hnumber] at h
      cases h

/-- Right below the largest number the texts are still read, although they are above the bound. -/
theorem isOk_number_below_largest (negative : Bool) :
    (literalOfDigits negative (shortest .up (2 ^ 53 - 2) 971)).number.isOk = true ∧
      (literalOfDigits negative (shortest .up (2 ^ 53 - 3) 971)).number.isOk = true := by
  cases negative <;> decide +kernel

theorem exists_number_shortest {m : Nat} {e : Int} (hm : m < 2 ^ 53) (he : e ≤ 971)
    (hlargest : ¬IsLargest m e) (negative : Bool) :
    ∃ x, (literalOfDigits negative (shortest .up m e)).number = .ok x := by
  obtain ⟨hzero, hvalue⟩ := shortest_bounds .up m e
  have hnumeral := isNumeral_parts hzero
  by_cases hbelow : m < 2 ^ 53 - 3 ∧ e ≤ 971 ∨ m < 2 ^ 53 ∧ e ≤ 970
  · have hsafe := (digitsNat_parts_le (shortest .up m e)).trans (hvalue.trans (le_safe hbelow))
    exact Literal.exists_number rfl (lt_of_mem_map_digitValue hnumeral.isDigit_whole)
      hnumeral.lt_of_mem_fraction hsafe
  · rw [IsLargest] at hlargest
    obtain ⟨rfl, rfl | rfl⟩ : e = 971 ∧ (m = 2 ^ 53 - 2 ∨ m = 2 ^ 53 - 3) := by omega
    · exact exists_of_isOk (isOk_number_below_largest negative).1
    · exact exists_of_isOk (isOk_number_below_largest negative).2

/-- The text of a finite number denotes a number, but for the two of largest magnitude. -/
theorem exists_parsed_text {m : Nat} {e : Int} (hm : m < 2 ^ 53) (he : e ≤ 971)
    (hlargest : ¬IsLargest m e) (negative : Bool) :
    ∃ x, Given.parsed? ((Binary64.finite negative m e).text plain) = some (.number x) := by
  obtain ⟨x, hx⟩ := exists_number_shortest hm he hlargest negative
  refine ⟨x, ?_⟩
  rw [parsed_text, hx]
  rfl

end ApiCommands.Json
