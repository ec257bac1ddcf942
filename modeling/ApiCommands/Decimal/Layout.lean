import ApiCommands.Decimal.Shortest

namespace ApiCommands.Decimal

/-!
# Layouts of decimals

A decimal is written with a point, padded with zeros, or with one digit before the point and a
power of ten. A layout says when which is done and how the power is marked.
-/

structure Layout where
  /-- Whether numbers below 1e-5 and from 1e16 on are written with a power of ten. -/
  usesPowers : Bool
  /-- Whether a whole number is written with one zero after the point. -/
  keepsPoint : Bool
  /-- Whether a positive power has a plus sign. -/
  plusSign : Bool
  tie : Tie
deriving Repr

def natDigits (n : Nat) : List Char := Nat.toDigits 10 n

def intText (i : Int) : List Char :=
  match i with
  | .ofNat n => natDigits n
  | .negSucc n => '-' :: natDigits (n + 1)

/-- Writes digits with the point after the first `whole` of them, which may lie outside them. -/
def positional (l : Layout) (ds : List Char) (whole : Int) : List Char :=
  if whole ≤ 0 then '0' :: '.' :: (List.replicate (-whole).toNat '0' ++ ds)
  else
    let n := whole.toNat
    if ds.length ≤ n then
      ds ++ List.replicate (n - ds.length) '0' ++ (if l.keepsPoint then ['.', '0'] else [])
    else ds.take n ++ '.' :: ds.drop n

/-- Writes digits with the point after the first and a power of ten. -/
def scientific (l : Layout) (ds : List Char) (power : Int) : List Char :=
  let mantissa := match ds with
    | [] => []
    | [d] => [d]
    | d :: rest => d :: '.' :: rest
  mantissa ++ 'e' :: (if l.plusSign && 0 ≤ power then ['+'] else []) ++ intText power

def digitsText (l : Layout) (d : Digits) : List Char :=
  let ds := natDigits d.coefficient
  let power := d.exponent + ds.length - 1
  if l.usesPowers && !(decide (-5 ≤ power) && decide (power < 16)) then scientific l ds power
  else positional l ds (power + 1)

def signText (negative : Bool) : List Char := if negative then ['-'] else []

/-- The text of a finite number, or the words of the other numbers. -/
def Binary64.text (l : Layout) : Binary64 → String
  | .finite negative m e =>
    String.ofList (signText negative ++ digitsText l (shortest l.tie m e))
  | .infinite negative => String.ofList (signText negative ++ ['i', 'n', 'f'])
  | .nan => "NaN"

/-- Plain numbers are never written with a power of ten, and whole ones without a point. -/
def plain : Layout := ⟨false, false, false, .up⟩

example : (Binary64.finite false (2 ^ 52) (-52)).text plain = "1" := by decide +kernel
example : (Binary64.finite true 0 (-1074)).text plain = "-0" := by decide +kernel
example : (Binary64.finite false 0x1999999999999A (-56)).text plain = "0.1" := by decide +kernel
example : (Binary64.finite false 0x11C37937E08000 1).text ⟨true, true, true, .even⟩ = "1e+16" := by
  decide +kernel

end ApiCommands.Decimal
