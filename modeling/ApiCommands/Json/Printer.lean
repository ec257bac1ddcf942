import ApiCommands.Json.Value

namespace ApiCommands.Json

/-!
# Writing JSON

The compact form has no blanks; the pretty form has a line for each item and member, indented by
two blanks a level, and no lines inside an empty container.
-/

namespace Value

mutual

def compactChars : Value → List Char
  | .null => ['n', 'u', 'l', 'l']
  | .bool true => ['t', 'r', 'u', 'e']
  | .bool false => ['f', 'a', 'l', 's', 'e']
  | .number n => n.text
  | .string s => writeText s
  | .array items => '[' :: compactItems items
  | .object members => '{' :: compactMembers members

def compactItems : List Value → List Char
  | [] => [']']
  | [v] => compactChars v ++ [']']
  | v :: vs => compactChars v ++ ',' :: compactItems vs

def compactMembers : List (String × Value) → List Char
  | [] => ['}']
  | [(name, v)] => writeText name ++ ':' :: compactChars v ++ ['}']
  | (name, v) :: ms => writeText name ++ ':' :: compactChars v ++ ',' :: compactMembers ms

end

def compact (v : Value) : String := String.ofList v.compactChars

def newLine (indent : Nat) : List Char := '\n' :: List.replicate indent ' '

mutual

def prettyChars (indent : Nat) : Value → List Char
  | .array [] => ['[', ']']
  | .object [] => ['{', '}']
  | .array items => '[' :: prettyItems indent items
  | .object members => '{' :: prettyMembers indent members
  | .null => ['n', 'u', 'l', 'l']
  | .bool true => ['t', 'r', 'u', 'e']
  | .bool false => ['f', 'a', 'l', 's', 'e']
  | .number n => n.text
  | .string s => writeText s

/-- The items of an array that stands at `indent`, and its closing bracket. -/
def prettyItems (indent : Nat) : List Value → List Char
  | [] => newLine indent ++ [']']
  | [v] => newLine (indent + 2) ++ prettyChars (indent + 2) v ++ newLine indent ++ [']']
  | v :: vs => newLine (indent + 2) ++ prettyChars (indent + 2) v ++ ',' :: prettyItems indent vs

/-- The members of an object that stands at `indent`, and its closing brace. -/
def prettyMembers (indent : Nat) : List (String × Value) → List Char
  | [] => newLine indent ++ ['}']
  | [(name, v)] =>
    newLine (indent + 2) ++ writeText name ++ ':' :: ' ' :: prettyChars (indent + 2) v ++
      newLine indent ++ ['}']
  | (name, v) :: ms =>
    newLine (indent + 2) ++ writeText name ++ ':' :: ' ' :: prettyChars (indent + 2) v ++
      ',' :: prettyMembers indent ms

end

def pretty (v : Value) : String := String.ofList (v.prettyChars 0)

end Value

example : (parse (Text.Utf8.encode "[1, -0, 1e5, \"a\"]")).map Value.compact =
    .ok "[1,-0.0,100000.0,\"a\"]" := by decide +kernel

end ApiCommands.Json
