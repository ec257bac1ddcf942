import ApiCommands.Command.Tree
import ApiCommands.Json.Value

namespace ApiCommands

/-!
# Trees as JSON values

A tree is shown as a JSON value with sorted members; what is empty or missing is left out. An
input can be read back from its value.
-/

open Json (Value)

/-- A member that is left out where its text is empty. -/
def textMember (name text : String) : List (String × Value) :=
  if text = "" then [] else [(name, .string text)]

def listMember (name : String) (items : List Value) : List (String × Value) :=
  if items.isEmpty then [] else [(name, .array items)]

namespace Input

def toValue (i : Input) : Value :=
  .object (textMember "description" i.description ++
    listMember "enum" (i.choices.map .string) ++
    [("in", .string i.location.name), ("name", .string i.name),
      ("positional", .bool i.positional), ("required", .bool i.required),
      ("type", .string i.type.name)])

/-- A name from a fixed set, which may also be written as an object that maps it to null. -/
def tag? : Value → Option String
  | .string s => some s
  | .object [(s, .null)] => some s
  | _ => none

def bool? : Value → Option Bool
  | .bool b => some b
  | _ => none

def texts? : Value → Option (List String)
  | .array items => items.mapM Value.string?
  | _ => none

/-- A member that may be missing, but is not null. -/
def optionalMember {α : Type} (name : String) (default : α) (read : Value → Option α) (v : Value) :
    Option α :=
  match v.get? name with
  | none => some default
  | some v => read v

/-- Reads an input from its value; members of other names are passed over. -/
def ofValue? (v : Value) : Option Input := do
  let name ← (← v.get? "name").string?
  let description ← optionalMember "description" "" Value.string? v
  let type ← ParamType.ofName? (← tag? (← v.get? "type"))
  let required ← bool? (← v.get? "required")
  let location ← Location.ofName? (← tag? (← v.get? "in"))
  let positional ← bool? (← v.get? "positional")
  let choices ← optionalMember "enum" [] texts? v
  some { name, description, type, required, location, positional, choices }

end Input

namespace Endpoint

def toValue (e : Endpoint) : Value :=
  .object [("method", .string e.method), ("params", .array (e.inputs.map Input.toValue)),
    ("path", .string e.path)]

end Endpoint

namespace Node

mutual

def toValue : Node → Value
  | ⟨name, about, longAbout, endpoint, children⟩ =>
    .object ([("about", .string about)] ++
      listMember "children" (valuesOf children) ++
      (endpoint.toList.map fun e => ("endpoint", e.toValue)) ++
      textMember "long_about" longAbout ++
      [("name", .string name)])

def valuesOf : List Node → List Value
  | [] => []
  | n :: rest => toValue n :: valuesOf rest

end

end Node

def Tree.toValue (t : Tree) : Value := .object [("commands", .array (Node.valuesOf t))]

end ApiCommands
