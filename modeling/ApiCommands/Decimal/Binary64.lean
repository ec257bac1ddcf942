namespace ApiCommands.Decimal

/-!
# Binary floating point, 64 bits

A finite number is a sign, a significand below 2^53 and a power of two not below 2^-1074. All
arithmetic is exact on ratios of natural numbers and rounded once, a half to the even neighbour.
-/

/-- Finite numbers are kept with the least exponent for their magnitude: the significand is at
least 2^52 unless the exponent is -1074. -/
inductive Binary64 where
  | finite (negative : Bool) (significand : Nat) (exponent : Int)
  | infinite (negative : Bool)
  | nan
deriving DecidableEq, Repr

/-- A magnitude: zero or positive, finite or past the largest number. -/
inductive Magnitude where
  | finite (significand : Nat) (exponent : Int)
  | infinite
deriving DecidableEq, Repr

/-- The quotient, a half going to the even neighbour. -/
def divideEven (num den : Nat) : Nat :=
  let q := num / den
  let r := num % den
  if 2 * r < den then q else if den < 2 * r then q + 1 else q + q % 2

/-- The numerator and the denominator of `num / den` times a power of two. -/
def scaleTwo (num den : Nat) (power : Int) : Nat × Nat :=
  match power with
  | .ofNat k => (num * Nat.pow 2 k, den)
  | .negSucc k => (num, den * Nat.pow 2 (k + 1))

/-- The largest `k` such that `2 ^ k` is not above `num / den`. -/
def floorLog2 (num den : Nat) : Int :=
  let k : Int := (num.log2 : Int) - (den.log2 : Int)
  let (n, d) := scaleTwo num den (-k)
  if d ≤ n then k else k - 1

namespace Magnitude

def zero : Magnitude := .finite 0 (-1074)

def ofRatio (num den : Nat) : Magnitude :=
  if num = 0 then zero
  else
    let e := max (floorLog2 num den - 52) (-1074)
    let (n, d) := scaleTwo num den (-e)
    let m := divideEven n d
    let (m, e) := if m = Nat.pow 2 53 then (Nat.pow 2 52, e + 1) else (m, e)
    if e > 971 then .infinite else .finite m e

def ofNat (n : Nat) : Magnitude := ofRatio n 1

def tenPow (k : Nat) : Magnitude := ofNat (Nat.pow 10 k)

def ratio (m : Nat) (e : Int) : Nat × Nat := scaleTwo m 1 e

def mul : Magnitude → Magnitude → Magnitude
  | .finite m e, .finite m' e' =>
    let (n, d) := scaleTwo (m * m') 1 (e + e')
    ofRatio n d
  | _, _ => .infinite

/-- Division by a positive finite magnitude. -/
def div : Magnitude → Magnitude → Magnitude
  | .finite m e, .finite m' e' =>
    let (n, d) := scaleTwo m m' (e - e')
    ofRatio n d
  | .infinite, _ => .infinite
  | .finite .., .infinite => zero

def add : Magnitude → Magnitude → Magnitude
  | .finite m e, .finite m' e' =>
    let (n, d) := ratio m e
    let (n', d') := ratio m' e'
    ofRatio (n * d' + n' * d) (d * d')
  | _, _ => .infinite

def isZero : Magnitude → Bool
  | .finite m _ => m == 0
  | .infinite => false

def lt : Magnitude → Magnitude → Bool
  | .finite m e, .finite m' e' =>
    let (n, d) := ratio m e
    let (n', d') := ratio m' e'
    n * d' < n' * d
  | .finite .., .infinite => true
  | .infinite, _ => false

def signed (negative : Bool) : Magnitude → Binary64
  | .finite m e => .finite negative m e
  | .infinite => .infinite negative

example : ofRatio 1 1 = .finite (2 ^ 52) (-52) := by decide
example : ofRatio 1 10 = .finite 0x1999999999999A (-56) := by decide
example : ofNat (2 ^ 53 + 1) = .finite (2 ^ 52) 1 := by decide

end Magnitude

end ApiCommands.Decimal
