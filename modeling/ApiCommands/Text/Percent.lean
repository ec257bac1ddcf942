import ApiCommands.Text.Utf8

namespace ApiCommands.Text

/-!
# Percent encoding

Every byte other than an unreserved character is written as a percent sign and two hexadecimal
digits, so an encoded text consists of unreserved characters and percent signs.
-/

def isUnreserved (c : Char) : Bool :=
  c.isAlphanum || c == '-' || c == '.' || c == '_' || c == '~'

/-- The upper-case hexadecimal digit of a number below sixteen. -/
def upperHexDigit (n : Nat) : Char :=
  if n < 10 then Char.ofNat (0x30 + n) else Char.ofNat (0x37 + n)

def percentByte (b : UInt8) : List Char :=
  ['%', upperHexDigit (b.toNat / 16), upperHexDigit (b.toNat % 16)]

def percentChar (c : Char) : List Char :=
  if isUnreserved c then [c] else (Utf8.encodeChar c).flatMap percentByte

def percentChars (cs : List Char) : List Char := cs.flatMap percentChar

def percentEncode (s : String) : String := String.ofList (percentChars s.toList)

theorem percentChars_cons (c : Char) (cs : List Char) :
    percentChars (c :: cs) = percentChar c ++ percentChars cs := by
  simp [percentChars]

example : percentEncode "a b/é~" = "a%20b%2F%C3%A9~" := by decide

end ApiCommands.Text
