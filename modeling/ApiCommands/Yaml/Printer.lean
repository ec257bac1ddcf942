import ApiCommands.Json.Value
import ApiCommands.Text.Blank
import ApiCommands.Yaml.Scalar

namespace ApiCommands.Yaml

/-!
# Writing YAML

A value is written in block style: an item after a dash, a member after its name and a colon, or
after a question mark and a colon where the name is long or has lines. The items of a member's
list stand as deep as the member.
-/

open Json (Value)

/-- In YAML a binary number has a point or a power, and a positive power has no sign. -/
def floatLayout : Decimal.Layout := ⟨true, true, false, .even⟩

def numberText : Json.Number → List Char
  | .integer i => Decimal.intText i
  | .float x => (x.text floatLayout).toList

/-- A line break, unless the text has ended its line. -/
def endLine (cs : List Char) : List Char :=
  if cs.getLast?.any isBreak then cs else cs ++ ['\n']

def textEntry (indent : Nat) (s : String) : List Char :=
  ' ' :: endLine (writeText indent s)

def leafText (indent : Nat) : Value → List Char
  | .null => ['n', 'u', 'l', 'l', '\n']
  | .bool true => ['t', 'r', 'u', 'e', '\n']
  | .bool false => ['f', 'a', 'l', 's', 'e', '\n']
  | .number n => numberText n ++ ['\n']
  | .string s => endLine (writeText indent s)
  | .array _ => ['[', ']', '\n']
  | .object _ => ['{', '}', '\n']

mutual

def afterMark (indent : Nat) : Value → List Char
  | .array (x :: xs) => ' ' :: itemLines (indent + 2) true (x :: xs)
  | .object (m :: ms) => ' ' :: memberLines (indent + 2) true (m :: ms)
  | v => ' ' :: leafText (indent + 2) v

def afterName (indent : Nat) : Value → List Char
  | .array (x :: xs) => '\n' :: itemLines indent false (x :: xs)
  | .object (m :: ms) => '\n' :: memberLines (indent + 2) false (m :: ms)
  | v => ' ' :: leafText (indent + 2) v

/-- Items at `indent`; `started` says that the blanks before the first are already there. -/
def itemLines (indent : Nat) (started : Bool) : List Value → List Char
  | [] => []
  | v :: vs =>
    (if started then [] else spaces indent) ++ '-' :: afterMark indent v ++
      itemLines indent false vs

/-- Members at `indent`; `started` says that the blanks before the first are already there. -/
def memberLines (indent : Nat) (started : Bool) : List (String × Value) → List Char
  | [] => []
  | (name, v) :: ms =>
    (if started then [] else spaces indent) ++
      (if isShortName name then writeText (indent + 2) name ++ ':' :: afterName indent v
      else '?' :: textEntry (indent + 2) name ++ spaces indent ++ ':' :: afterMark indent v) ++
      memberLines indent false ms

end

def documentChars : Value → List Char
  | .array (x :: xs) => itemLines 0 true (x :: xs)
  | .object (m :: ms) => memberLines 0 true (m :: ms)
  | v => leafText 2 v

/-- The text of a value, less the line breaks at its end. -/
def render (v : Value) : String :=
  String.ofList (Text.dropEndWhile (· == '\n') (documentChars v))

end ApiCommands.Yaml
