import ApiCommands.Decimal.Binary64

namespace ApiCommands.Decimal

/-!
# Reading numbers from arguments

Whole numbers within bounds, and binary numbers by the usual decimal grammar, rounded correctly.
-/

def isDigit (c : Char) : Bool := '0' ≤ c && c ≤ '9'

def digitValue (c : Char) : Nat := c.toNat - 48

/-- The value of a run of digits read after `acc`. -/
def digitsValue (acc : Nat) (ds : List Char) : Nat :=
  ds.foldl (fun n c => 10 * n + digitValue c) acc

def readDigits (ds : List Char) : Option Nat :=
  if ds.isEmpty || !ds.all isDigit then none else some (digitsValue 0 ds)

/-- An unsigned number below `bound`; a plus sign may stand before it. -/
def readNat (bound : Nat) (s : String) : Option Nat :=
  let ds := match s.toList with
    | '+' :: rest => rest
    | cs => cs
  (readDigits ds).filter (· < bound)

/-- A number in the range of 64-bit signed integers; a sign may stand before it. -/
def readInt64 (s : String) : Option Int :=
  match s.toList with
  | '-' :: rest => ((readDigits rest).filter (· ≤ Nat.pow 2 63)).map fun n => -(n : Int)
  | '+' :: rest => ((readDigits rest).filter (· < Nat.pow 2 63)).map Int.ofNat
  | cs => ((readDigits cs).filter (· < Nat.pow 2 63)).map Int.ofNat

/-- The power of ten after an `e`: an optional sign and digits up to the end. -/
def readPower : List Char → Option Int
  | '-' :: rest => (readDigits rest).map fun n => -(n : Int)
  | '+' :: rest => (readDigits rest).map Int.ofNat
  | cs => (readDigits cs).map Int.ofNat

/-- The magnitude nearest to `coefficient · 10 ^ power`. Powers out of reach are not computed. -/
def Magnitude.ofDecimal (coefficient : Nat) (power : Int) : Magnitude :=
  if coefficient = 0 then .zero
  else
    let top : Int := power + coefficient.log2 * 1233 / 4096
    if top > 400 then .infinite
    else if top < -400 then .zero
    else
      match power with
      | .ofNat k => ofRatio (coefficient * Nat.pow 10 k) 1
      | .negSucc k => ofRatio coefficient (Nat.pow 10 (k + 1))

/-- The decimal part of the grammar: digits, a point and digits, a power; a digit is needed on one
side of the point. -/
def readMagnitude (cs : List Char) : Option Magnitude :=
  let whole := cs.takeWhile isDigit
  let rest := cs.dropWhile isDigit
  let (fraction, rest) := match rest with
    | '.' :: rest => (rest.takeWhile isDigit, rest.dropWhile isDigit)
    | rest => ([], rest)
  if whole.isEmpty && fraction.isEmpty then none
  else
    let coefficient := digitsValue (digitsValue 0 whole) fraction
    let power : Option Int := match rest with
      | [] => some 0
      | c :: rest => if c = 'e' ∨ c = 'E' then readPower rest else none
    power.map fun p => .ofDecimal coefficient (p - fraction.length)

/-- The words for infinity and for what is no number, in any letter case. -/
def readWord (negative : Bool) (cs : List Char) : Option Binary64 :=
  let word := String.ofList (cs.map Char.toLower)
  if word = "inf" ∨ word = "infinity" then some (.infinite negative)
  else if word = "nan" then some .nan
  else none

def readUnsigned (negative : Bool) (cs : List Char) : Option Binary64 :=
  match readMagnitude cs with
  | some m => some (m.signed negative)
  | none => readWord negative cs

def readBinary64 (s : String) : Option Binary64 :=
  match s.toList with
  | '-' :: rest => readUnsigned true rest
  | '+' :: rest => readUnsigned false rest
  | cs => readUnsigned false cs

example : readNat (2 ^ 64) "+5" = some 5 := by decide +kernel
example : readInt64 "-9223372036854775808" = some (-9223372036854775808) := by decide +kernel
example : readBinary64 "1e400" = some (.infinite false) := by decide +kernel
example : readBinary64 ".5" = some (.finite false (2 ^ 52) (-53)) := by decide +kernel
example : readBinary64 "." = none := by decide +kernel

end ApiCommands.Decimal
