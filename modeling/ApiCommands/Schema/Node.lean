import ApiCommands.Json.Printer
import ApiCommands.Json.Shape
import ApiCommands.Text.Blank

namespace ApiCommands.Schema

/-!
# Schema nodes

As much of a JSON schema as commands are made from.
-/

open Json (Value Shape Records Outline)

/-- A node with a reference stands for the node that the reference leads to. -/
structure Node where
  reference : Option String := none
  typeName : String := ""
  description : Option String := none
  /-- In the order of the document. -/
  properties : List (String × Node) := []
  /-- Sorted, without repetitions. -/
  required : List String := []
  choices : List Value := []

/-- The text of an enumerated value: texts as they are, all else as JSON. -/
def choiceText : Value → String
  | .string s => s
  | v => v.compact

namespace Node

def choiceTexts (n : Node) : List String := n.choices.map choiceText

/-- The reference of a node that has to be followed; an empty one counts as none. -/
def pending (n : Node) : Option String := Text.unlessEmpty n.reference

end Node

/-- The type of a node that names one or several: the first that is not null, else the first. -/
def typeOf : Value → String
  | .string s => s
  | .array items =>
    let names := items.filterMap Value.string?
    ((names.find? (· ≠ "null")) <|> names.head?).getD ""
  | _ => ""

def nameSet (names : List String) : List String :=
  (Table.ofList (names.map (·, ()))).map Prod.fst

/-- The fields of a node; `self` is the shape of a node. -/
def nodeFields {R : Type} (self : Shape R) : List (String × Shape R) :=
  [("$ref", .text), ("type", .textOrTexts), ("description", .text), ("properties", .table self),
    ("required", .list .text), ("enum", .list .anything)]

/-- The table of records for a text that holds nothing but nodes. -/
def nodeRecords : Records Unit := ⟨fun () => nodeFields (.record ()), fun () => true⟩

def nodeShape : Shape Unit := .record ()

def nodeField (name : String) (o : Outline) : Option Outline :=
  o.field (nodeFields nodeShape) name

/-- The node that a checked outline describes, down to `depth` nested ones. -/
def Node.ofOutline : Nat → Outline → Node
  | 0, _ => {}
  | depth + 1, o =>
    { reference := (nodeField "$ref" o).map Outline.text
      typeName := ((nodeField "type" o).map fun t => typeOf t.plainValue).getD ""
      description := (nodeField "description" o).map Outline.text
      properties := Table.inOrder (((nodeField "properties" o).map Outline.entries).getD []
        |>.map fun (name, p) => (name, ofOutline depth p))
      required := nameSet ((((nodeField "required" o).map Outline.items).getD []).map Outline.text)
      choices := (((nodeField "enum" o).map Outline.items).getD []).map Outline.plainValue }

abbrev Components := List (String × Node)

def Components.ofOutline (depth : Nat) (o : Outline) : Components :=
  Table.ofList (o.entries.map fun (name, n) => (name, Node.ofOutline depth n))

def Node.parse (bytes : List UInt8) : Json.Reading Node :=
  Json.readWhole (fun o => (o.check nodeRecords Json.nestingLimit nodeShape).map fun () =>
    Node.ofOutline Json.nestingLimit o) bytes

def Components.parse (bytes : List UInt8) : Json.Reading Components :=
  Json.readWhole (fun o => (o.check nodeRecords Json.nestingLimit (.table nodeShape)).map fun () =>
    Components.ofOutline Json.nestingLimit o) bytes

end ApiCommands.Schema
