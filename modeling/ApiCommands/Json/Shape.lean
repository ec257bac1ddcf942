import ApiCommands.Json.Value

namespace ApiCommands.Json

/-!
# Shapes of records

A shape says which values a reader takes. Records are named by a type `R` and described by a table
of fields, so a shape may contain itself. Every field may be missing or null; a member of another
name is skipped. A record may also be written as an array of its fields in the order of the table.
-/

inductive Shape (R : Type) where
  | text
  | flag
  | anything
  /-- A text or a list of texts. -/
  | textOrTexts
  | list (items : Shape R)
  /-- An object with any names. -/
  | table (entries : Shape R)
  | record (name : R)

/-- The fields of each record, and whether it may leave out the last ones where it is an array. -/
structure Records (R : Type) where
  fields : R → List (String × Shape R)
  mayEndEarly : R → Bool

namespace Value

def isText : Value → Bool
  | .string _ => true
  | _ => false

def isTextOrTexts : Value → Bool
  | .string _ => true
  | .array items => items.all isText
  | _ => false

end Value

namespace Outline

/-- A null stands for a field that is left out. -/
def unlessNull (check : Outline → Reading Unit) : Outline → Reading Unit
  | .null => .ok ()
  | o => check o

/-- Checks the members of a record, each name before its value. A field that comes twice is a
fault at the second name. -/
def checkMembers {S : Type} (fields : List (String × S)) (check : S → Outline → Reading Unit)
    (stop : Option Cut) : List String → List (Reading String × Outline) → Reading Unit
  | _, [] => match stop with
    | none => .ok ()
    | some cut => .error cut.kept
  | seen, (name, o) :: ms => do
    let name ← name
    match fields.lookup name with
    | none =>
      skip o
      checkMembers fields check stop seen ms
    | some s =>
      if seen.contains name then .error .wrongShape
      else
        unlessNull (check s) o
        checkMembers fields check stop (name :: seen) ms

/-- Checks the items of a record that is written as an array. -/
def checkPositions {S : Type} (early : Bool) (check : S → Outline → Reading Unit)
    (stop : Option Fault) : List (String × S) → List Outline → Reading Unit
  | [], [] => match stop with
    | none => .ok ()
    | some f => .error f
  | [], _ :: _ => .error .malformed
  | _ :: _, [] => match stop with
    | none => if early then .ok () else .error .wrongShape
    | some f => .error f
  | (_, s) :: fields, o :: os => do
    unlessNull (check s) o
    checkPositions early check stop fields os

def forget {α : Type} (r : Reading α) : Reading Unit := r.map fun _ => ()

/-- Whether an outline has a shape, else the first fault in reading order. At most `budget`
containers may be nested in each other in what is kept. -/
def check {R : Type} (rs : Records R) : Nat → Shape R → Outline → Reading Unit
  | budget, .anything, o => forget (o.toValue budget)
  | budget, .textOrTexts, o => do
    let v ← o.toValue budget
    if v.isTextOrTexts then .ok () else .error .wrongShape
  | _, .text, .string kept => forget kept
  | _, .flag, .bool _ => .ok ()
  | 0, .list _, .array .. => .error .malformed
  | 0, .table _, .object .. => .error .malformed
  | 0, .record _, .array .. => .error .malformed
  | 0, .record _, .object .. => .error .malformed
  | budget + 1, .list s, .array items stop => forget (readItems (check rs budget s) stop items)
  | budget + 1, .table s, .object members stop =>
    forget (readMembers (check rs budget s) stop members)
  | budget + 1, .record r, .object members stop =>
    checkMembers (rs.fields r) (check rs budget) stop [] members
  | budget + 1, .record r, .array items stop =>
    checkPositions (rs.mayEndEarly r) (check rs budget) stop (rs.fields r) items
  | _, _, o => .error o.mismatch

def presentIfNotNull : Outline → Option Outline
  | .null => none
  | o => some o

/-- The members whose names are well formed. -/
def entries : Outline → List (String × Outline)
  | .object members _ => members.filterMap fun (name, o) => name.toOption.map (·, o)
  | _ => []

def items : Outline → List Outline
  | .array items _ => items
  | _ => []

/-- The place of a name in a table of fields. -/
def placeOf {S : Type} (name : String) (fields : List (String × S)) : Nat :=
  fields.findIdx fun (n, _) => n == name

/-- A field of a record, by its name or by its place; `none` where it is missing or null. -/
def field {S : Type} (fields : List (String × S)) (name : String) (o : Outline) : Option Outline :=
  match o with
  | .object .. => (o.entries.lookup name).bind presentIfNotNull
  | .array items _ => (items[placeOf name fields]?).bind presentIfNotNull
  | _ => none

def text : Outline → String
  | .string (.ok s) => s
  | _ => ""

def isTrue : Outline → Bool
  | .bool b => b
  | _ => false

def plainValue (o : Outline) : Value :=
  match o.toValue nestingLimit with
  | .ok v => v
  | .error _ => .null

end Outline

end ApiCommands.Json
