import ApiCommands.Json.Text
import ApiCommands.Proofs.Text.Percent

namespace ApiCommands.Text

/-!
# Reading encoded texts

The bytes of a text are read back as the text, and undoing percent encoding gives the bytes back, so
an encoded text tells which text it was.
-/

/-- What is read of each part is what was written, so this holds of all parts. -/
theorem mapM_map_eq_some {α β : Type} {read : β → Option α} {write : α → β}
    (h : ∀ x, read (write x) = some x) (xs : List α) : (xs.map write).mapM read = some xs := by
  induction xs with
  | nil => rfl
  | cons x xs ih => rw [List.map_cons, List.mapM_cons, h, ih]; rfl

namespace Utf8

section Scan

variable {p : Pending} {b : UInt8}

theorem scan_lead (h : start b.toNat = .more p) (rest : List UInt8) :
    scan none (b :: rest) = scan (some p) rest := by
  simp [scan, step, begin?, h]

theorem scan_inner (hlow : p.low ≤ b.toNat) (hhigh : b.toNat ≤ p.high) (hmissing : 1 < p.missing)
    (rest : List UInt8) : scan (some p) (b :: rest) =
      scan (some ⟨p.missing - 1, 0x80, 0xBF, p.bits * 64 + b.toNat % 64⟩) rest := by
  simp [scan, step, hlow, hhigh, Nat.not_le.mpr hmissing]

theorem scan_last (hlow : p.low ≤ b.toNat) (hhigh : b.toNat ≤ p.high) (hmissing : p.missing ≤ 1)
    (rest : List UInt8) : scan (some p) (b :: rest) =
      some (Char.ofNat (p.bits * 64 + b.toNat % 64)) :: scan none rest := by
  simp [scan, step, hlow, hhigh, hmissing]

end Scan

theorem start_two {b : Nat} (hlow : 0xC2 ≤ b) (hhigh : b < 0xE0) :
    start b = .more ⟨1, 0x80, 0xBF, b % 32⟩ := by
  simp (disch := omega) only [start, if_neg, if_pos]

theorem start_three {b : Nat} (hlow : 0xE0 ≤ b) (hhigh : b < 0xF0) :
    start b = .more ⟨2, if b = 0xE0 then 0xA0 else 0x80, if b = 0xED then 0x9F else 0xBF,
      b % 16⟩ := by
  rw [start, if_neg (by omega), if_neg (by omega), if_neg (by omega)]
  split_ifs <;> first | omega | simp_all

theorem start_four {b : Nat} (hlow : 0xF0 ≤ b) (hhigh : b < 0xF5) :
    start b = .more ⟨3, if b = 0xF0 then 0x90 else 0x80, if b = 0xF4 then 0x8F else 0xBF,
      b % 8⟩ := by
  rw [start, if_neg (by omega), if_neg (by omega), if_neg (by omega), if_neg (by omega),
    if_neg (by omega), if_neg (by omega)]
  split_ifs <;> first | omega | simp_all

theorem toNat_trail {n : Nat} : (0x80 + n % 64).toUInt8.toNat = 0x80 + n % 64 :=
  toNat_toUInt8 (by omega)

section Lengths

variable {n : Nat} (rest : List UInt8)

theorem scan_two (hlow : 0x80 ≤ n) (hhigh : n < 0x800) :
    scan none ((0xC0 + n / 64).toUInt8 :: (0x80 + n % 64).toUInt8 :: rest) =
      some (Char.ofNat n) :: scan none rest := by
  have hlead : (0xC0 + n / 64).toUInt8.toNat = 0xC0 + n / 64 := toNat_toUInt8 (by omega)
  have hstart := start_two (b := 0xC0 + n / 64) (by omega) (by omega)
  have hbits : (0xC0 + n / 64) % 32 * 64 + (0x80 + n % 64) % 64 = n := by omega
  rw [← hlead] at hstart
  rw [scan_lead hstart, scan_last, toNat_trail, hlead, hbits]
  all_goals simp only [toNat_trail]; omega

theorem scan_three (hlow : 0x800 ≤ n) (hhigh : n < 0x10000) (hvalid : n < 0xD800 ∨ 0xDFFF < n) :
    scan none ((0xE0 + n / 4096).toUInt8 :: (0x80 + n / 64 % 64).toUInt8 ::
        (0x80 + n % 64).toUInt8 :: rest) = some (Char.ofNat n) :: scan none rest := by
  have hlead : (0xE0 + n / 4096).toUInt8.toNat = 0xE0 + n / 4096 := toNat_toUInt8 (by omega)
  have hstart := start_three (b := 0xE0 + n / 4096) (by omega) (by omega)
  have hbits : ((0xE0 + n / 4096) % 16 * 64 + (0x80 + n / 64 % 64) % 64) * 64 +
      (0x80 + n % 64) % 64 = n := by omega
  rw [← hlead] at hstart
  rw [scan_lead hstart, scan_inner, scan_last, toNat_trail, toNat_trail, hlead, hbits]
  all_goals simp only [toNat_trail, hlead]; try split
  all_goals omega

theorem scan_four (hlow : 0x10000 ≤ n) (hhigh : n < 0x110000) :
    scan none ((0xF0 + n / 262144).toUInt8 :: (0x80 + n / 4096 % 64).toUInt8 ::
        (0x80 + n / 64 % 64).toUInt8 :: (0x80 + n % 64).toUInt8 :: rest) =
      some (Char.ofNat n) :: scan none rest := by
  have hlead : (0xF0 + n / 262144).toUInt8.toNat = 0xF0 + n / 262144 := toNat_toUInt8 (by omega)
  have hstart := start_four (b := 0xF0 + n / 262144) (by omega) (by omega)
  have hbits : (((0xF0 + n / 262144) % 8 * 64 + (0x80 + n / 4096 % 64) % 64) * 64 +
      (0x80 + n / 64 % 64) % 64) * 64 + (0x80 + n % 64) % 64 = n := by omega
  rw [← hlead] at hstart
  rw [scan_lead hstart, scan_inner, scan_inner, scan_last, toNat_trail, toNat_trail, toNat_trail,
    hlead, hbits]
  all_goals simp only [toNat_trail, hlead]; try split
  all_goals omega

end Lengths

/-- The bytes of a character are read as this character. -/
theorem scan_encodeChar (c : Char) (rest : List UInt8) :
    scan none (encodeChar c ++ rest) = some c :: scan none rest := by
  have htop := toNat_lt c
  have hvalid : c.toNat < 0xD800 ∨ 0xDFFF < c.toNat := c.valid.imp_right And.left
  have hchar : ∀ {bytes}, scan none bytes = some (Char.ofNat c.toNat) :: scan none rest →
      scan none bytes = some c :: scan none rest := by
    rw [Char.ofNat_toNat]
    exact id
  rw [encodeChar]
  split_ifs with hone htwo hthree
  · have hbyte : c.toNat.toUInt8.toNat = c.toNat := toNat_toUInt8 (by omega)
    have hscan := scan_ascii c.toNat.toUInt8 (hbyte.trans_lt hone) rest
    rw [hbyte] at hscan
    exact hchar hscan
  · exact hchar (scan_two rest (by omega) htwo)
  · exact hchar (scan_three rest (by omega) hthree hvalid)
  · exact hchar (scan_four rest (by omega) htop)

theorem decode?_encode (s : String) : decode? (encode s) = some s := by
  have hscan : ∀ cs : List Char, scan none (cs.flatMap encodeChar) = cs.map some := by
    intro cs
    induction cs with
    | nil => rfl
    | cons c cs ih => rw [List.flatMap_cons, scan_encodeChar, ih, List.map_cons]
  have hread : (s.toList.map some).mapM id = some s.toList :=
    mapM_map_eq_some (fun c : Char => (rfl : id (some c) = some c)) _
  rw [decode?, encode, hscan, hread, Option.map_some, String.ofList_toList]

end Utf8

/-- Puts the bytes in place of the percent signs and their digits. -/
def percentBytes : List UInt8 → List UInt8
  | b :: high :: low :: rest =>
    match decide (b = 0x25), Json.hexValue high, Json.hexValue low with
    | true, some high, some low => (high * 16 + low).toUInt8 :: percentBytes rest
    | _, _, _ => b :: percentBytes (high :: low :: rest)
  | bytes => bytes

/-- The text that an encoded one stands for. -/
def percentDecode (s : String) : Option String := Utf8.decode? (percentBytes (Utf8.encode s))

theorem percentBytes_cons_of_ne {b : UInt8} (h : b ≠ 0x25) (rest : List UInt8) :
    percentBytes (b :: rest) = b :: percentBytes rest := by
  match rest with
  | [] => rfl
  | [_] => rfl
  | _ :: _ :: _ => rw [percentBytes, decide_eq_false h]

theorem encodeChar_upperHexDigit {n : Nat} (h : n < 16) :
    ∃ b, Utf8.encodeChar (upperHexDigit n) = [b] ∧ Json.hexValue b = some n := by
  have hall : ∀ m : Fin 16,
      (Utf8.encodeChar (upperHexDigit m.val)).map Json.hexValue = [some m.val] := by decide
  obtain ⟨b, hb, hvalue⟩ := List.map_eq_singleton_iff.mp (hall ⟨n, h⟩)
  exact ⟨b, hb, hvalue⟩

theorem percentBytes_percentByte (b : UInt8) (rest : List UInt8) :
    percentBytes ((percentByte b).flatMap Utf8.encodeChar ++ rest) = b :: percentBytes rest := by
  have hlt := b.toNat_lt
  obtain ⟨high, hhigh, hhighValue⟩ := encodeChar_upperHexDigit (n := b.toNat / 16) (by omega)
  obtain ⟨low, hlow, hlowValue⟩ := encodeChar_upperHexDigit (n := b.toNat % 16) (by omega)
  have hbyte : (b.toNat / 16 * 16 + b.toNat % 16).toUInt8 = b := by
    rw [Nat.div_add_mod', Nat.toUInt8_eq, UInt8.ofNat_toNat]
  have hpercent : Utf8.encodeChar '%' = [0x25] := by decide
  simp [percentByte, hhigh, hlow, hpercent, percentBytes, hhighValue, hlowValue, hbyte]

theorem encodeChar_of_isUnreserved {c : Char} (h : isUnreserved c = true) :
    ∃ b, Utf8.encodeChar c = [b] ∧ b ≠ 0x25 := by
  have hlow := toNat_lt_of_isUnreserved h
  have hpercent : c.toNat ≠ 0x25 := by
    intro heq
    rw [← Char.ofNat_toNat c, heq] at h
    revert h
    decide
  refine ⟨c.toNat.toUInt8, if_pos hlow, fun heq => hpercent ?_⟩
  rw [← Utf8.toNat_toUInt8 (Nat.lt_trans hlow (by decide)), heq]
  rfl

theorem percentBytes_percentChar (c : Char) (rest : List UInt8) :
    percentBytes ((percentChar c).flatMap Utf8.encodeChar ++ rest) =
      Utf8.encodeChar c ++ percentBytes rest := by
  rw [percentChar]
  split
  case isTrue h =>
    obtain ⟨b, hb, hne⟩ := encodeChar_of_isUnreserved h
    simp [hb, percentBytes_cons_of_ne hne]
  case isFalse =>
    induction Utf8.encodeChar c with
    | nil => rfl
    | cons b bytes ih =>
        rw [List.flatMap_cons, List.flatMap_append, List.append_assoc, percentBytes_percentByte,
          ih, List.cons_append]

theorem percentDecode_percentEncode (s : String) : percentDecode (percentEncode s) = some s := by
  have hbytes : ∀ cs : List Char,
      percentBytes ((percentChars cs).flatMap Utf8.encodeChar) = cs.flatMap Utf8.encodeChar := by
    intro cs
    induction cs with
    | nil => rfl
    | cons c cs ih =>
        rw [percentChars_cons, List.flatMap_append, percentBytes_percentChar, ih, List.flatMap_cons]
  rw [percentDecode, percentEncode, Utf8.encode, String.toList_ofList, hbytes]
  exact Utf8.decode?_encode s

example : percentDecode "a%20b%2F+%" = some "a b/+%" := by decide +kernel

end ApiCommands.Text
