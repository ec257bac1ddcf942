import ApiCommands.Decimal.Binary64

namespace ApiCommands.Decimal

/-!
# Shortest decimals

The decimal of a binary number is the one with the coarsest grid `10 ^ e` that has a point among
the reals rounding to that number, and of those points the nearest.
-/

/-- The value `coefficient · 10 ^ exponent`. -/
structure Digits where
  coefficient : Nat
  exponent : Int
deriving DecidableEq, Repr

/-- Which of two equally near points is taken. -/
inductive Tie where
  | even
  | up
deriving DecidableEq, Repr

/-- The numerator and the denominator of `num / den` times a power of ten. -/
def scaleTen (num den : Nat) (power : Int) : Nat × Nat :=
  match power with
  | .ofNat k => (num * Nat.pow 10 k, den)
  | .negSucc k => (num, den * Nat.pow 10 (k + 1))

/-- The reals that round to `significand · 2 ^ exponent`, in quarters of that power of two. -/
structure Interval where
  low : Nat
  middle : Nat
  high : Nat
  closed : Bool

def interval (significand : Nat) (exponent : Int) : Interval :=
  { low := 4 * significand - (if significand = Nat.pow 2 52 ∧ exponent ≠ -1074 then 1 else 2)
    middle := 4 * significand
    high := 4 * significand + 2
    closed := significand % 2 == 0 }

/-- Whether the point `k · den` lies in the interval scaled by `num`. -/
def Interval.holds (i : Interval) (num den k : Nat) : Bool :=
  if i.closed then i.low * num ≤ k * den && k * den ≤ i.high * num
  else i.low * num < k * den && k * den < i.high * num

/-- The point of the grid in the interval that is nearest to its middle, where a quarter is
`num / den` grid units. -/
def Interval.nearest? (i : Interval) (tie : Tie) (num den : Nat) : Option Nat :=
  let below := i.middle * num / den
  let above := below + 1
  let rest := i.middle * num % den
  let first := i.holds num den below && below != 0
  let second := i.holds num den above
  if rest = 0 ∧ first then some below
  else
    match first, second with
    | false, false => none
    | true, false => some below
    | false, true => some above
    | true, true =>
      if 2 * rest < den then some below
      else if den < 2 * rest then some above
      else
        match tie with
        | .up => some above
        | .even => if below % 2 = 0 then some below else some above

/-- Looks at ever finer grids, from `10 ^ e` down. -/
def search (i : Interval) (tie : Tie) (exponent : Int) : Nat → Int → Option Digits
  | 0, _ => none
  | steps + 1, e =>
    let (num, den) := scaleTwo 1 1 (exponent - 2)
    let (num, den) := scaleTen num den (-e)
    match i.nearest? tie num den with
    | some k => some ⟨k, e⟩
    | none => search i tie exponent steps (e - 1)

/-- A power of ten above the number: its binary logarithm times 0.30103, rounded up. -/
def topExponent (significand : Nat) (exponent : Int) : Int :=
  ((significand.log2 : Int) + exponent + 1) * 1233 / 4096 + 1

/-- The shortest decimal of `significand · 2 ^ exponent`; seventeen digits suffice. -/
def shortest (tie : Tie) (significand : Nat) (exponent : Int) : Digits :=
  if significand = 0 then ⟨0, 0⟩
  else
    (search (interval significand exponent) tie exponent 24
      (topExponent significand exponent)).getD ⟨0, 0⟩

example : shortest .even 0x1999999999999A (-56) = ⟨1, -1⟩ := by decide +kernel
example : shortest .even 1 (-1074) = ⟨5, -324⟩ := by decide +kernel
example : shortest .even (2 ^ 52) (-52) = ⟨1, 0⟩ := by decide +kernel
example : shortest .even (2 ^ 52 + 1) (-2) = ⟨11258999068426242, -1⟩ := by decide +kernel

end ApiCommands.Decimal
