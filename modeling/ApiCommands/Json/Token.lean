import ApiCommands.Json.Number
import ApiCommands.Json.Text

namespace ApiCommands.Json

/-!
# JSON tokens

The text is cut into tokens once. A number or a string that is well formed but cannot be kept
carries the fault of keeping it; a token that breaks off ends the list.
-/

inductive Token where
  | openObject
  | closeObject
  | openArray
  | closeArray
  | comma
  | colon
  | null
  | bool (value : Bool)
  | number (kept : Reading Number)
  | string (kept : Reading String)
  /-- A string without a closing quote. -/
  | brokenString (cut : Cut)
  /-- A number or a word that breaks off, or a byte that begins no token. -/
  | broken (cut : Cut)

def isBlank (b : UInt8) : Bool := b == 0x20 || b == 0x09 || b == 0x0A || b == 0x0D

/-- Reads the letters of a word and returns what follows them. -/
def word : List UInt8 → List UInt8 → Except Cut (List UInt8)
  | [], rest => .ok rest
  | _ :: _, [] => .error (.both .cutShort)
  | w :: ws, b :: rest => if w = b then word ws rest else .error (.both .malformed)

def ofWord (token : Token) (letters rest : List UInt8) : Token × List UInt8 :=
  match word letters rest with
  | .ok rest => (token, rest)
  | .error cut => (.broken cut, [])

def ofLiteral (negative : Bool) (bytes : List UInt8) : Token × List UInt8 :=
  match readLiteral negative bytes with
  | .ok (l, rest) => (.number l.number, rest)
  | .error cut => (.broken cut, [])

def ofText (bytes : List UInt8) : Token × List UInt8 :=
  match readText bytes with
  | .ok (kept, rest) => (.string kept, rest)
  | .error cut => (.brokenString cut, [])

/-- The token that begins with a byte, and what follows it. -/
def token (b : UInt8) (rest : List UInt8) : Token × List UInt8 :=
  if b = 0x7B then (.openObject, rest)
  else if b = 0x7D then (.closeObject, rest)
  else if b = 0x5B then (.openArray, rest)
  else if b = 0x5D then (.closeArray, rest)
  else if b = 0x2C then (.comma, rest)
  else if b = 0x3A then (.colon, rest)
  else if b = 0x22 then ofText rest
  else if b = 0x2D then ofLiteral true rest
  else if isDigit b then ofLiteral false (b :: rest)
  else if b = 0x6E then ofWord .null [0x75, 0x6C, 0x6C] rest
  else if b = 0x74 then ofWord (.bool true) [0x72, 0x75, 0x65] rest
  else if b = 0x66 then ofWord (.bool false) [0x61, 0x6C, 0x73, 0x65] rest
  else (.broken (.both .malformed), [])

/-- The tokens of the text; each takes at least one byte, so `limit` never runs out when it is the
number of bytes. -/
def tokensUpTo : Nat → List UInt8 → List Token
  | 0, _ => []
  | _, [] => []
  | limit + 1, b :: rest =>
    if isBlank b then tokensUpTo limit rest
    else
      let (t, rest) := token b rest
      t :: tokensUpTo limit rest

def tokens (bytes : List UInt8) : List Token := tokensUpTo bytes.length bytes

end ApiCommands.Json
