namespace ApiCommands.Text

/-!
# Blank characters

The characters that surround a text without belonging to it, and cutting them off.
-/

def isBlank (c : Char) : Bool :=
  let n := c.toNat
  (0x9 ≤ n && n ≤ 0xD) || n == 0x20 || n == 0x85 || n == 0xA0 || n == 0x1680 ||
    (0x2000 ≤ n && n ≤ 0x200A) || n == 0x2028 || n == 0x2029 || n == 0x202F || n == 0x205F ||
    n == 0x3000

/-- Cuts the characters of a class off the end of a text. -/
def dropEndWhile (p : Char → Bool) (cs : List Char) : List Char :=
  (cs.reverse.dropWhile p).reverse

@[simp] theorem dropEndWhile_nil (p : Char → Bool) : dropEndWhile p [] = [] := rfl

def trimStart (s : String) : String :=
  String.ofList (s.toList.dropWhile isBlank)

def trimEnd (s : String) : String :=
  String.ofList (dropEndWhile isBlank s.toList)

def trim (s : String) : String :=
  String.ofList (dropEndWhile isBlank (s.toList.dropWhile isBlank))

/-- A text that is there and not empty. -/
def unlessEmpty (s : Option String) : Option String := s.filter (· ≠ "")

theorem unlessEmpty_eq_some_iff {s : Option String} {t : String} :
    unlessEmpty s = some t ↔ s = some t ∧ t ≠ "" := by
  simp [unlessEmpty, Option.filter_eq_some_iff]

end ApiCommands.Text
