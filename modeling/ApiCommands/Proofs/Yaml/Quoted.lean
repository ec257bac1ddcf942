import ApiCommands.Proofs.Keys
import ApiCommands.Yaml.Scalar

namespace ApiCommands.Yaml

/-!
# Quoted texts

A text between quotes tells where it ends and what it holds: a quote in it is doubled between
single quotes and escaped between double ones.
-/

/-- Whether a line break stands right before the end of a text. -/
def breakAtEnd : Bool → List Char → Bool
  | atBreak, [] => atBreak
  | _, c :: cs => breakAtEnd (isBreak c) cs

theorem breakAtEnd_eq (atBreak : Bool) (cs : List Char) :
    breakAtEnd atBreak cs = if cs.isEmpty then atBreak else cs.getLast?.any isBreak := by
  induction cs generalizing atBreak with
  | nil => rfl
  | cons c cs ih =>
      rw [breakAtEnd, ih]
      cases cs <;> simp [List.getLast?_cons]

theorem breakAtEnd_false (cs : List Char) : breakAtEnd false cs = cs.getLast?.any isBreak := by
  rw [breakAtEnd_eq]
  cases cs <;> rfl

theorem indentLines_cons_of_break (indent : Nat) (write : Char → List Char) (atBreak : Bool)
    {c : Char} (h : isBreak c = true) (cs : List Char) :
    indentLines indent write atBreak (c :: cs) = c :: indentLines indent write true cs := by
  rw [indentLines, if_pos h]

theorem indentLines_cons_of_not_break (indent : Nat) (write : Char → List Char) (atBreak : Bool)
    {c : Char} (h : isBreak c = false) (cs : List Char) :
    indentLines indent write atBreak (c :: cs) =
      (if atBreak then spaces indent else []) ++ (write c ++ indentLines indent write false cs) := by
  rw [indentLines, if_neg (by simp [h]), List.append_assoc]

theorem not_break_of_isBreak_false {c d : Char} (hc : isBreak c = true) (hd : isBreak d = false) :
    c ≠ d := by
  rintro rfl
  rw [hc] at hd
  cases hd

/-- What is indented does not begin with a line break. -/
theorem spaces_ne_break {c d : Char} (hc : isBreak c = false) (hd : isBreak d = true) (k : Nat)
    (cs ds : List Char) : spaces k ++ c :: cs ≠ d :: ds := by
  have hspace : isBreak ' ' = false := by decide
  intro h
  cases k with
  | zero => exact not_break_of_isBreak_false hd hc (List.cons.inj h).1.symm
  | succ k => exact not_break_of_isBreak_false hd hspace (List.cons.inj h).1.symm

theorem indented_ne_break {indent : Nat} {atBreak : Bool} {c d : Char} (hc : isBreak c = false)
    (hd : isBreak d = true) (cs ds : List Char) :
    (if atBreak then spaces indent else []) ++ c :: cs ≠ d :: ds := by
  cases atBreak with
  | false => exact spaces_ne_break hc hd 0 cs ds
  | true => exact spaces_ne_break hc hd indent cs ds

/-- Lines whose characters are written after themselves are told apart character by character. -/
theorem indentLines_cons_inj {indent : Nat} {write : Char → List Char}
    (hwrite : ∀ c, ∃ rest, write c = c :: rest) {atBreak : Bool} {c d : Char}
    {cs ds x y : List Char}
    (h : indentLines indent write atBreak (c :: cs) ++ x =
      indentLines indent write atBreak (d :: ds) ++ y) :
    c = d ∧ indentLines indent write (isBreak c) cs ++ x =
      indentLines indent write (isBreak c) ds ++ y := by
  obtain ⟨restC, hcharC⟩ := hwrite c
  obtain ⟨restD, hcharD⟩ := hwrite d
  cases hc : isBreak c with
  | true =>
      rw [indentLines_cons_of_break indent write atBreak hc] at h
      cases hd : isBreak d with
      | true =>
          rw [indentLines_cons_of_break indent write atBreak hd] at h
          exact List.cons.inj h
      | false =>
          rw [indentLines_cons_of_not_break indent write atBreak hd, hcharD, List.append_assoc] at h
          exact (indented_ne_break hd hc _ _ h.symm).elim
  | false =>
      rw [indentLines_cons_of_not_break indent write atBreak hc] at h
      cases hd : isBreak d with
      | true =>
          rw [indentLines_cons_of_break indent write atBreak hd, hcharC, List.append_assoc] at h
          exact (indented_ne_break hc hd _ _ h).elim
      | false =>
          rw [indentLines_cons_of_not_break indent write atBreak hd] at h
          simp only [List.append_assoc] at h
          have hline := List.append_cancel_left h
          obtain rfl : c = d := by
            rw [hcharC, hcharD] at hline
            exact (List.cons.inj hline).1
          exact ⟨rfl, List.append_cancel_left hline⟩

/-- What stands between single quotes, after a line break or not. -/
def singleBody (indent : Nat) (atBreak : Bool) (cs : List Char) : List Char :=
  indentLines indent singleChar atBreak cs ++
    (if breakAtEnd atBreak cs then spaces indent else [])

theorem writeSingle_eq (indent : Nat) (cs : List Char) :
    writeSingle indent cs = '\'' :: (singleBody indent false cs ++ ['\'']) := by
  rw [writeSingle, singleBody, breakAtEnd_false]
  rfl

section Single

variable (indent : Nat) (atBreak : Bool) (cs : List Char)

theorem singleBody_nil :
    singleBody indent atBreak [] = if atBreak then spaces indent else [] := rfl

theorem singleBody_cons_of_break {c : Char} (h : isBreak c = true) :
    singleBody indent atBreak (c :: cs) = c :: singleBody indent true cs := by
  rw [singleBody, indentLines_cons_of_break indent singleChar atBreak h, breakAtEnd, h]
  rfl

theorem singleBody_cons_of_not_break {c : Char} (h : isBreak c = false) :
    singleBody indent atBreak (c :: cs) =
      (if atBreak then spaces indent else []) ++ (singleChar c ++ singleBody indent false cs) := by
  rw [singleBody, indentLines_cons_of_not_break indent singleChar atBreak h, breakAtEnd, h,
    singleBody, List.append_assoc, List.append_assoc]

end Single

/-- A character between single quotes does not look like the closing quote. -/
theorem exists_singleChar (c : Char) :
    ∃ rest, singleChar c = c :: rest ∧ (c = '\'' → rest = ['\'']) := by
  by_cases h : c = '\''
  · exact ⟨['\''], by rw [h]; rfl, fun _ => rfl⟩
  · exact ⟨[], if_neg (by simpa using h), fun heq => (h heq).elim⟩

theorem singleBody_cons_ne_end {indent : Nat} {atBreak : Bool} {r : List Char}
    (hr : r.head? ≠ some '\'') (c : Char) (cs x : List Char) :
    singleBody indent atBreak (c :: cs) ++ x ≠ singleBody indent atBreak [] ++ '\'' :: r := by
  rw [singleBody_nil]
  cases hbreak : isBreak c with
  | true =>
      rw [singleBody_cons_of_break indent atBreak cs hbreak]
      exact fun h => indented_ne_break (by decide) hbreak _ _ h.symm
  | false =>
      obtain ⟨rest, hchar, hquote⟩ := exists_singleChar c
      rw [singleBody_cons_of_not_break indent atBreak cs hbreak, hchar, List.append_assoc]
      intro h
      obtain ⟨hc, htail⟩ := List.cons.inj (List.append_cancel_left h)
      rw [hquote hc] at htail
      exact hr (by rw [← htail]; rfl)

/-- Where a text between single quotes ends is told by the first quote that is not doubled. -/
theorem singleBody_inj {indent : Nat} {atBreak : Bool} {cs cs' r r' : List Char}
    (hr : r.head? ≠ some '\'') (hr' : r'.head? ≠ some '\'')
    (h : singleBody indent atBreak cs ++ '\'' :: r = singleBody indent atBreak cs' ++ '\'' :: r') :
    cs = cs' ∧ r = r' := by
  induction cs generalizing atBreak cs' with
  | nil =>
      cases cs' with
      | nil => exact ⟨rfl, (List.cons.inj (List.append_cancel_left h)).2⟩
      | cons d cs' => exact (singleBody_cons_ne_end hr d cs' _ h.symm).elim
  | cons c cs ih =>
      cases cs' with
      | nil => exact (singleBody_cons_ne_end hr' c cs _ h).elim
      | cons d cs' =>
          rw [singleBody, singleBody, breakAtEnd, breakAtEnd, List.append_assoc,
            List.append_assoc] at h
          obtain ⟨rfl, htail⟩ :=
            indentLines_cons_inj (fun c => (exists_singleChar c).imp fun _ h => h.1) h
          rw [← List.append_assoc, ← List.append_assoc] at htail
          obtain ⟨rfl, rfl⟩ := ih htail
          exact ⟨rfl, rfl⟩

theorem writeSingle_inj {indent : Nat} {cs cs' r r' : List Char} (hr : r.head? ≠ some '\'')
    (hr' : r'.head? ≠ some '\'')
    (h : writeSingle indent cs ++ r = writeSingle indent cs' ++ r') : cs = cs' ∧ r = r' := by
  rw [writeSingle_eq, writeSingle_eq, List.cons_append, List.cons_append, List.append_assoc,
    List.append_assoc] at h
  exact singleBody_inj hr hr' (List.cons.inj h).2

/-! ### Double quotes -/

/-- The digit of a base of sixteen that a letter or a digit stands for. -/
def hexDigit (c : Char) : Nat :=
  if Decimal.isDigit c then c.toNat - 48 else c.toNat - 55

def hexValue (acc : Nat) (cs : List Char) : Nat := cs.foldl (fun n c => 16 * n + hexDigit c) acc

def unescape : Char → Option Char
  | '0' => some '\x00'
  | 'a' => some '\x07'
  | 'b' => some '\x08'
  | 't' => some '\t'
  | 'n' => some '\n'
  | 'v' => some '\x0B'
  | 'f' => some '\x0C'
  | 'r' => some '\r'
  | 'e' => some '\x1B'
  | '"' => some '"'
  | '\\' => some '\\'
  | 'N' => some '\x85'
  | 'L' => some '\u2028'
  | 'P' => some '\u2029'
  | _ => none

/-- Reads one character between double quotes and returns what follows it. -/
def readDoubleChar : List Char → Option (Char × List Char)
  | [] => none
  | '"' :: _ => none
  | '\\' :: 'x' :: rest => some (Char.ofNat (hexValue 0 (rest.take 2)), rest.drop 2)
  | '\\' :: 'u' :: rest => some (Char.ofNat (hexValue 0 (rest.take 4)), rest.drop 4)
  | '\\' :: 'U' :: rest => some (Char.ofNat (hexValue 0 (rest.take 8)), rest.drop 8)
  | '\\' :: l :: rest => (unescape l).map (·, rest)
  | c :: rest => some (c, rest)

theorem hexValue_append (acc : Nat) (cs cs' : List Char) :
    hexValue acc (cs ++ cs') = hexValue (hexValue acc cs) cs' := List.foldl_append

theorem hexValue_zeros (k : Nat) : hexValue 0 (List.replicate k '0') = 0 := by
  induction k with
  | zero => rfl
  | succ k ih => exact ih

theorem hexDigit_toUpper : ∀ d < 16, hexDigit (Nat.digitChar d).toUpper = d := by decide

theorem hexValue_toDigits (n : Nat) :
    hexValue 0 ((Nat.toDigits 16 n).map Char.toUpper) = n := by
  induction n using Nat.strongRecOn with
  | ind n ih =>
      by_cases hn : n < 16
      · rw [Nat.toDigits_of_lt_base hn]
        exact (Nat.zero_add _).trans (hexDigit_toUpper n hn)
      · have hmod : n % 16 < 16 := Nat.mod_lt n (by decide)
        have hsplit := Nat.toDigits_append_toDigits (b := 16) (n := n / 16) (by decide)
          (Nat.div_pos (by omega) (by decide)) hmod
        rw [Nat.div_add_mod, Nat.toDigits_of_lt_base hmod] at hsplit
        rw [← hsplit, List.map_append, hexValue_append, ih (n / 16) (by omega)]
        change 16 * (n / 16) + hexDigit (Nat.digitChar (n % 16)).toUpper = n
        rw [hexDigit_toUpper _ hmod, Nat.div_add_mod]

theorem upperHex_spec {width n : Nat} (hwidth : 0 < width) (h : n < Nat.pow 16 width) :
    (upperHex width n).length = width ∧ hexValue 0 (upperHex width n) = n := by
  have hlength : (Nat.toDigits 16 n).length ≤ width :=
    (Nat.length_toDigits_le_iff (by decide) hwidth).mpr h
  rw [upperHex]
  constructor
  · rw [List.length_append, List.length_replicate, List.length_map]
    omega
  · rw [hexValue_append, hexValue_zeros, hexValue_toDigits]

theorem unescape_of_escapeLetter {c l : Char} (h : escapeLetter c = some l) :
    unescape l = some c ∧ l ≠ 'x' ∧ l ≠ 'u' ∧ l ≠ 'U' := by
  have hall : ∀ p ∈ [('\x00', '0'), ('\x07', 'a'), ('\x08', 'b'), ('\t', 't'), ('\n', 'n'),
      ('\x0B', 'v'), ('\x0C', 'f'), ('\r', 'r'), ('\x1B', 'e'), ('"', '"'), ('\\', '\\'),
      ('\x85', 'N'), ('\u2028', 'L'), ('\u2029', 'P')],
      unescape p.2 = some p.1 ∧ p.2 ≠ 'x' ∧ p.2 ≠ 'u' ∧ p.2 ≠ 'U' := by decide
  exact hall (c, l) (mem_of_lookup h)

/-- The letter before the digits of a character tells how many there are. -/
theorem readDoubleChar_hex {l : Char} {width : Nat}
    (hl : (l = 'x' ∧ width = 2) ∨ (l = 'u' ∧ width = 4) ∨ (l = 'U' ∧ width = 8)) {c : Char}
    (h : c.toNat < Nat.pow 16 width) (r : List Char) :
    readDoubleChar ('\\' :: l :: (upperHex width c.toNat ++ r)) = some (c, r) := by
  obtain ⟨hlength, hvalue⟩ := upperHex_spec (by omega : 0 < width) h
  have htake : hexValue 0 ((upperHex width c.toNat ++ r).take width) = c.toNat := by
    rw [List.take_left' hlength, hvalue]
  have hdrop : (upperHex width c.toNat ++ r).drop width = r := List.drop_left' hlength
  rcases hl with ⟨rfl, rfl⟩ | ⟨rfl, rfl⟩ | ⟨rfl, rfl⟩ <;>
    rw [readDoubleChar, htake, hdrop, Char.ofNat_toNat]

/-- A character between double quotes is read back. -/
theorem readDoubleChar_append (c : Char) (r : List Char) :
    readDoubleChar (doubleChar c ++ r) = some (c, r) := by
  rw [doubleChar]
  split
  case h_1 l hl =>
    obtain ⟨hletter, hx, hu, hU⟩ := unescape_of_escapeLetter hl
    change readDoubleChar ('\\' :: l :: r) = _
    rw [readDoubleChar, hletter, Option.map_some]
    · exact fun h => hx h
    · exact fun h => hu h
    · exact fun h => hU h
  case h_2 hnone =>
    split
    case isTrue =>
      change readDoubleChar (c :: r) = _
      rw [readDoubleChar]
      all_goals
        intros
        subst c
        cases hnone
    case isFalse =>
      split
      case isTrue hsmall => exact readDoubleChar_hex (.inl ⟨rfl, rfl⟩) (Nat.lt_succ_of_le hsmall) r
      case isFalse =>
        split
        case isTrue hsmall =>
          exact readDoubleChar_hex (.inr (.inl ⟨rfl, rfl⟩)) (Nat.lt_succ_of_le hsmall) r
        case isFalse => exact readDoubleChar_hex (.inr (.inr ⟨rfl, rfl⟩)) c.val.toNat_lt r

/-- Where a text between double quotes ends is told by the first quote that is not escaped. -/
theorem writeDouble_inj {cs cs' r r' : List Char}
    (h : writeDouble cs ++ r = writeDouble cs' ++ r') : cs = cs' ∧ r = r' := by
  have hbody : cs.flatMap doubleChar ++ '"' :: r = cs'.flatMap doubleChar ++ '"' :: r' := by
    simpa [writeDouble] using h
  clear h
  induction cs generalizing cs' with
  | nil =>
      cases cs' with
      | nil => exact ⟨rfl, (List.cons.inj hbody).2⟩
      | cons d cs' =>
          have hread := congrArg readDoubleChar hbody
          rw [List.flatMap_cons, List.append_assoc, readDoubleChar_append] at hread
          cases hread
  | cons c cs ih =>
      rw [List.flatMap_cons, List.append_assoc] at hbody
      have hread := congrArg readDoubleChar hbody
      rw [readDoubleChar_append] at hread
      cases cs' with
      | nil => cases hread
      | cons d cs' =>
          rw [List.flatMap_cons, List.append_assoc, readDoubleChar_append] at hread
          obtain ⟨rfl, hrest⟩ := Prod.mk.inj (Option.some.inj hread)
          obtain ⟨rfl, rfl⟩ := ih hrest
          exact ⟨rfl, rfl⟩

end ApiCommands.Yaml
