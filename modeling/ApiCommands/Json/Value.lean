import ApiCommands.Json.Outline
import ApiCommands.Table

namespace ApiCommands.Json

/-!
# JSON values

A value keeps its object members sorted by name, the last of equal names winning. Reading a value
out of an outline finds the first fault of the text in reading order.
-/

inductive Value where
  | null
  | bool (value : Bool)
  | number (value : Number)
  | string (value : String)
  | array (items : List Value)
  | object (members : List (String × Value))

namespace Value

def ofMembers (ms : List (String × Value)) : Value := .object (Table.ofList ms)

def get? (name : String) : Value → Option Value
  | .object ms => ms.lookup name
  | _ => none

def string? : Value → Option String
  | .string s => some s
  | _ => none

end Value

namespace Outline

/-- The fault of a value that is not of the wanted shape. A number or a string is read first, so
what is wrong with it comes before its shape. -/
def mismatch : Outline → Fault
  | .number (.error f) => f
  | .string (.error f) => f
  | .broken cut => cut.kept
  | _ => .wrongShape

/-- Reads the items of an array, then the reason why they end. -/
def readItems {α : Type} (read : Outline → Reading α) (stop : Option Fault) :
    List Outline → Reading (List α)
  | [] => match stop with
    | none => .ok []
    | some f => .error f
  | o :: os => do
    let x ← read o
    let xs ← readItems read stop os
    .ok (x :: xs)

/-- Reads the members of an object, each name before its value, then the reason why they end. -/
def readMembers {α : Type} (read : Outline → Reading α) (stop : Option Cut) :
    List (Reading String × Outline) → Reading (List (String × α))
  | [] => match stop with
    | none => .ok []
    | some cut => .error cut.kept
  | (name, o) :: ms => do
    let name ← name
    let x ← read o
    let xs ← readMembers read stop ms
    .ok ((name, x) :: xs)

/-- Reads any value. At most `budget` containers may be nested in each other. -/
def toValue : Nat → Outline → Reading Value
  | _, .null => .ok .null
  | _, .bool b => .ok (.bool b)
  | _, .number kept => kept.map .number
  | _, .string kept => kept.map .string
  | _, .broken cut => .error cut.kept
  | 0, .array .. => .error .malformed
  | 0, .object .. => .error .malformed
  | budget + 1, .array items stop => (readItems (toValue budget) stop items).map .array
  | budget + 1, .object members stop =>
    (readMembers (toValue budget) stop members).map .ofMembers

mutual

/-- Passes over a value that nobody keeps: only its grammar counts, at any depth. -/
def skip : Outline → Reading Unit
  | .null => .ok ()
  | .bool _ => .ok ()
  | .number _ => .ok ()
  | .string _ => .ok ()
  | .broken cut => .error cut.skipped
  | .array items stop => skipItems stop items
  | .object members stop => skipMembers stop members

def skipItems (stop : Option Fault) : List Outline → Reading Unit
  | [] => match stop with
    | none => .ok ()
    | some f => .error f
  | o :: os =>
    match skip o with
    | .ok () => skipItems stop os
    | .error f => .error f

def skipMembers (stop : Option Cut) : List (Reading String × Outline) → Reading Unit
  | [] => match stop with
    | none => .ok ()
    | some cut => .error cut.skipped
  | (_, o) :: ms =>
    match skip o with
    | .ok () => skipMembers stop ms
    | .error f => .error f

end

end Outline

/-- How many containers may be nested in each other in what is kept of a text. -/
def nestingLimit : Nat := 127

/-- Reads a whole text with a reader of outlines; nothing may follow the value. -/
def readWhole {α : Type} (read : Outline → Reading α) (bytes : List UInt8) : Reading α := do
  let (o, more) := Outline.ofBytes bytes
  let x ← read o
  if more then .error .malformed else .ok x

def parse (bytes : List UInt8) : Reading Value := readWhole (·.toValue nestingLimit) bytes

end ApiCommands.Json
