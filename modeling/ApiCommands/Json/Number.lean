import ApiCommands.Json.Fault
import ApiCommands.Decimal.Layout

namespace ApiCommands.Json

/-!
# JSON numbers

An integer literal that fits 64 bits stays an integer; every other literal is a binary number. Its
digits are taken while they fit 64 bits, and the power of ten is applied by one multiplication or
division (two divisions below 1e-308), each rounded.
-/

open Decimal

inductive Number where
  | integer (value : Int)
  | float (value : Binary64)
deriving DecidableEq, Repr

def isDigit (b : UInt8) : Bool := 0x30 ≤ b && b ≤ 0x39

def digitOf (b : UInt8) : Nat := b.toNat - 0x30

/-- A literal as it is written: the digits before the point, those after it, and the power. -/
structure Literal where
  negative : Bool
  whole : List Nat
  fraction : Option (List Nat)
  power : Option (Bool × List Nat)
deriving Repr

def fits (n : Nat) : Bool := n < Nat.pow 2 64

/-- Takes digits while they fit; returns the significand and how many digits are left out. -/
def takeWhole (acc : Nat) : List Nat → Nat × Nat
  | [] => (acc, 0)
  | d :: ds => if fits (acc * 10 + d) then takeWhole (acc * 10 + d) ds else (acc, ds.length + 1)

/-- Takes digits while they fit; returns the significand and how many digits were taken. -/
def takeFraction (acc : Nat) : List Nat → Nat × Nat
  | [] => (acc, 0)
  | d :: ds =>
    if fits (acc * 10 + d) then
      let (acc, taken) := takeFraction (acc * 10 + d) ds
      (acc, taken + 1)
    else (acc, 0)

/-- The power of ten of a literal, `none` past 32 bits. -/
def powerValue (ds : List Nat) : Option Nat :=
  let n := ds.foldl (fun n d => n * 10 + d) 0
  if n < Nat.pow 2 31 then some n else none

/-- A significand times a power of ten, `none` past the largest number. -/
def applyPower (significand : Nat) (power : Int) : Option Magnitude :=
  let f := Magnitude.ofNat significand
  if 0 ≤ power then
    if power ≤ 308 then
      match f.mul (.tenPow power.toNat) with
      | .infinite => none
      | m => some m
    else if f.isZero then some f else none
  else
    let k := (-power).toNat
    if k ≤ 308 then some (f.div (.tenPow k))
    else if k ≤ 616 then some ((f.div (.tenPow 308)).div (.tenPow (k - 308)))
    else some .zero

def floatOf (negative : Bool) (significand : Nat) (power : Int) : Reading Number :=
  match applyPower significand power with
  | some m => .ok (.float (m.signed negative))
  | none => .error .malformed

/-- The integer of a literal without point and power, or the binary number where it does not
fit. -/
def integerOf (negative : Bool) (n : Nat) : Number :=
  if negative then
    if n = 0 ∨ Nat.pow 2 63 < n then .float ((Magnitude.ofNat n).signed true)
    else .integer (-(n : Int))
  else .integer n

def Literal.number (l : Literal) : Reading Number :=
  let (significand, dropped) := takeWhole 0 l.whole
  if l.fraction.isNone && l.power.isNone && dropped == 0 then
    .ok (integerOf l.negative significand)
  else
    let (significand, taken) := takeFraction significand (l.fraction.getD [])
    let start : Int := (dropped : Int) - (taken : Int)
    match l.power with
    | none => floatOf l.negative significand start
    | some (minus, ds) =>
      match powerValue ds with
      | some p => floatOf l.negative significand (if minus then start - p else start + p)
      | none =>
        if significand ≠ 0 ∧ ¬ minus then .error .malformed
        else .ok (.float (Magnitude.zero.signed l.negative))

/-- The fault where a digit is missing: a kept number notices the end of the text. -/
def digitMissing (rest : List UInt8) : Cut :=
  if rest.isEmpty then ⟨.cutShort, .malformed⟩ else .both .malformed

def digits (bytes : List UInt8) : Except Cut (List Nat × List UInt8) :=
  let ds := bytes.takeWhile isDigit
  if ds.isEmpty then .error (digitMissing bytes)
  else .ok (ds.map digitOf, bytes.dropWhile isDigit)

/-- The digits before the point; a zero stands alone. -/
def wholeDigits (bytes : List UInt8) : Except Cut (List Nat × List UInt8) := do
  let (ds, rest) ← digits bytes
  match ds with
  | 0 :: _ :: _ => .error (.both .malformed)
  | _ => .ok (ds, rest)

def fractionDigits : List UInt8 → Except Cut (Option (List Nat) × List UInt8)
  | b :: rest =>
    if b = 0x2E then do
      let (ds, rest) ← digits rest
      .ok (some ds, rest)
    else .ok (none, b :: rest)
  | [] => .ok (none, [])

def powerSign : List UInt8 → Bool × List UInt8
  | b :: rest => if b = 0x2B then (false, rest) else if b = 0x2D then (true, rest)
    else (false, b :: rest)
  | [] => (false, [])

def powerDigits : List UInt8 → Except Cut (Option (Bool × List Nat) × List UInt8)
  | b :: rest =>
    if b = 0x65 ∨ b = 0x45 then do
      let (minus, rest) := powerSign rest
      let (ds, rest) ← digits rest
      .ok (some (minus, ds), rest)
    else .ok (none, b :: rest)
  | [] => .ok (none, [])

/-- Reads a literal after its minus sign, if it has one, and returns what follows it. -/
def readLiteral (negative : Bool) (bytes : List UInt8) : Except Cut (Literal × List UInt8) := do
  let (whole, rest) ← wholeDigits bytes
  let (fraction, rest) ← fractionDigits rest
  let (power, rest) ← powerDigits rest
  .ok (⟨negative, whole, fraction, power⟩, rest)

/-- In JSON a binary number always has a point or a power, and a positive power its sign. -/
def floatLayout : Layout := ⟨true, true, true, .even⟩

def Number.text : Number → List Char
  | .integer i => intText i
  | .float x => (x.text floatLayout).toList

end ApiCommands.Json
