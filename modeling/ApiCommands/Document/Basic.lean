import ApiCommands.Document.Format

namespace ApiCommands.Document

/-!
# API documents

Paths with their operations, and the schemas that references lead to. Paths and schemas are sorted
by name.
-/

/-- The methods that an operation may be declared for, in the order of their commands. -/
inductive Method where
  | get
  | post
  | put
  | patch
  | delete
deriving DecidableEq, Repr

namespace Method

def all : List Method := [get, post, put, patch, delete]

def key : Method → String
  | get => "get"
  | post => "post"
  | put => "put"
  | patch => "patch"
  | delete => "delete"

def name : Method → String
  | get => "GET"
  | post => "POST"
  | put => "PUT"
  | patch => "PATCH"
  | delete => "DELETE"

theorem mem_all (m : Method) : m ∈ all := by
  cases m <;> simp [all]

end Method

structure Declared where
  name : String
  place : String
  required : Bool
  description : String
  schema : Option Schema.Node

structure Operation where
  summary : String
  description : String
  parameters : List Declared
  /-- The schema of the request body for each kind of content. -/
  content : List (String × Option Schema.Node)

abbrev PathItem := List (Method × Operation)

end Document

structure Document where
  paths : List (String × Document.PathItem)
  schemas : Schema.Components

namespace Document

open Json (Outline)

def jsonContent : String := "application/json"

def Operation.body (op : Operation) : Option Schema.Node :=
  (op.content.lookup jsonContent).join

def recordField (r : Record) (name : String) (o : Outline) : Option Outline :=
  o.field r.fields name

def textField (r : Record) (name : String) (o : Outline) : String :=
  ((recordField r name o).map Outline.text).getD ""

def schemaField (r : Record) (o : Outline) : Option Schema.Node :=
  (recordField r "schema" o).map (Schema.Node.ofOutline Json.nestingLimit)

def Declared.ofOutline (o : Outline) : Declared :=
  { name := textField .parameter "name" o
    place := textField .parameter "in" o
    required := ((recordField .parameter "required" o).map Outline.isTrue).getD false
    description := textField .parameter "description" o
    schema := schemaField .parameter o }

/-- The table in a field, empty where the field is missing. -/
def tableField (r : Record) (name : String) (o : Outline) : List (String × Outline) :=
  ((recordField r name o).map Outline.entries).getD []

def contentOf (o : Outline) : List (String × Option Schema.Node) :=
  Table.ofList ((tableField .requestBody "content" o).map fun (kind, m) =>
    (kind, schemaField .mediaType m))

def Operation.ofOutline (o : Outline) : Operation :=
  { summary := textField .operation "summary" o
    description := textField .operation "description" o
    parameters := (((recordField .operation "parameters" o).map Outline.items).getD []).map
      Declared.ofOutline
    content := ((recordField .operation "requestBody" o).map contentOf).getD [] }

def PathItem.ofOutline (o : Outline) : PathItem :=
  Method.all.filterMap fun m =>
    (recordField .pathItem m.key o).map fun op => (m, Operation.ofOutline op)

def ofOutline (o : Outline) : Document :=
  { paths := Table.ofList ((tableField .document "paths" o).map fun (path, item) =>
      (path, PathItem.ofOutline item))
    schemas := Table.ofList
      (((recordField .document "components" o).map (tableField .components "schemas")).getD []
        |>.map fun (name, n) => (name, Schema.Node.ofOutline Json.nestingLimit n)) }

def read (o : Outline) : Json.Reading Document :=
  (o.check records Json.nestingLimit (.record .document)).map fun () => ofOutline o

def parse (bytes : List UInt8) : Json.Reading Document := Json.readWhole read bytes

def unknownVersion : String := "unknown"

def versionOf (o : Outline) : Option String :=
  (o.field (VersionRecord.fields .document) "info").bind fun info =>
    (info.field (VersionRecord.fields .info) "version").map Outline.text

def readVersion (o : Outline) : Json.Reading (Option String) :=
  (o.check versionRecords Json.nestingLimit (.record .document)).map fun () => versionOf o

/-- The version that a document gives itself; a text that is no such document has none. -/
def version (bytes : List UInt8) : String :=
  match Json.readWhole readVersion bytes with
  | .ok (some v) => if v = "" then unknownVersion else v
  | _ => unknownVersion

end Document

end ApiCommands
