import ApiCommands.Json.Fault
import ApiCommands.Text.Utf8

namespace ApiCommands.Json

/-!
# JSON strings

A string is first cut into bytes and `\u` units, which settles where it ends. Only a string that
is kept has its units paired and its bytes read as UTF-8.
-/

inductive Piece where
  | byte (b : UInt8)
  /-- The sixteen bits of a `\u` escape. -/
  | unit (n : Nat)
deriving DecidableEq, Repr

def hexValue (b : UInt8) : Option Nat :=
  if 0x30 ≤ b ∧ b ≤ 0x39 then some (b.toNat - 0x30)
  else if 0x61 ≤ b ∧ b ≤ 0x66 then some (b.toNat - 0x57)
  else if 0x41 ≤ b ∧ b ≤ 0x46 then some (b.toNat - 0x37)
  else none

def hexUnit (a b c d : UInt8) : Option Nat := do
  let a ← hexValue a
  let b ← hexValue b
  let c ← hexValue c
  let d ← hexValue d
  some (((a * 16 + b) * 16 + c) * 16 + d)

def escaped (b : UInt8) : Option UInt8 :=
  if b = 0x22 ∨ b = 0x5C ∨ b = 0x2F then some b
  else if b = 0x62 then some 0x08
  else if b = 0x66 then some 0x0C
  else if b = 0x6E then some 0x0A
  else if b = 0x72 then some 0x0D
  else if b = 0x74 then some 0x09
  else none

/-- The pieces of a string up to its closing quote, and what follows it or why there is none. -/
def pieces : List UInt8 → List Piece × Reading (List UInt8)
  | [] => ([], .error .cutShort)
  | b :: rest =>
    if b = 0x22 then ([], .ok rest)
    else if b < 0x20 then ([], .error .malformed)
    else if b ≠ 0x5C then
      let (ps, stop) := pieces rest
      (.byte b :: ps, stop)
    else
      match rest with
      | [] => ([], .error .cutShort)
      | e :: rest =>
        if e ≠ 0x75 then
          match escaped e with
          | none => ([], .error .malformed)
          | some c =>
            let (ps, stop) := pieces rest
            (.byte c :: ps, stop)
        else
          match rest with
          | h₁ :: h₂ :: h₃ :: h₄ :: rest =>
            match hexUnit h₁ h₂ h₃ h₄ with
            | none => ([], .error .malformed)
            | some n =>
              let (ps, stop) := pieces rest
              (.unit n :: ps, stop)
          | _ => ([], .error .cutShort)

def isLeading (n : Nat) : Bool := 0xD800 ≤ n && n ≤ 0xDBFF

def isTrailing (n : Nat) : Bool := 0xDC00 ≤ n && n ≤ 0xDFFF

def pairChar (leading trailing : Nat) : Char :=
  Char.ofNat ((leading - 0xD800) * 0x400 + (trailing - 0xDC00) + 0x10000)

/-- The bytes of a kept string. A leading unit needs a trailing one right after it; where the
string breaks off instead, `stop` is the fault. -/
def joinPieces (stop : Option Fault) : List Piece → Reading (List UInt8)
  | [] => match stop with
    | none => .ok []
    | some f => .error f
  | .byte b :: rest => (joinPieces stop rest).map (b :: ·)
  | .unit n :: rest =>
    if isTrailing n then .error .malformed
    else if isLeading n then
      match rest with
      | [] => .error (stop.getD .malformed)
      | .byte _ :: _ => .error .malformed
      | .unit t :: rest =>
        if isTrailing t then
          (joinPieces stop rest).map (Text.Utf8.encodeChar (pairChar n t) ++ ·)
        else .error .malformed
    else (joinPieces stop rest).map (Text.Utf8.encodeChar (Char.ofNat n) ++ ·)

/-- The text of a kept string that has a closing quote. -/
def keepText (ps : List Piece) : Reading String := do
  let bytes ← joinPieces none ps
  match Text.Utf8.decode? bytes with
  | some s => .ok s
  | none => .error .malformed

/-- The fault of a string without a closing quote. -/
def brokenText (ps : List Piece) (stop : Fault) : Cut :=
  match joinPieces (some stop) ps with
  | .error f => ⟨f, stop⟩
  | .ok _ => .both stop

/-- Reads a string after its opening quote: what it holds when it is kept, and what follows it. -/
def readText (bytes : List UInt8) : Except Cut (Reading String × List UInt8) :=
  match pieces bytes with
  | (ps, .ok rest) => .ok (keepText ps, rest)
  | (ps, .error stop) => .error (brokenText ps stop)

def escapeChar (c : Char) : List Char :=
  if c = '"' then ['\\', '"']
  else if c = '\\' then ['\\', '\\']
  else if c = '\x08' then ['\\', 'b']
  else if c = '\x0C' then ['\\', 'f']
  else if c = '\n' then ['\\', 'n']
  else if c = '\r' then ['\\', 'r']
  else if c = '\t' then ['\\', 't']
  else if c.toNat < 0x10 then ['\\', 'u', '0', '0', '0'] ++ Nat.toDigits 16 c.toNat
  else if c.toNat < 0x20 then ['\\', 'u', '0', '0'] ++ Nat.toDigits 16 c.toNat
  else [c]

def writeText (s : String) : List Char :=
  '"' :: (s.toList.flatMap escapeChar ++ ['"'])

end ApiCommands.Json
