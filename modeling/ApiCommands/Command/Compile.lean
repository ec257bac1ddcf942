import ApiCommands.Command.Basic
import ApiCommands.Command.Naming
import ApiCommands.Document.Basic
import ApiCommands.Failure
import ApiCommands.Schema.Resolve
import ApiCommands.Text.Template

namespace ApiCommands

/-!
# Commands of a document

Every operation under the base path becomes one command. Its parameters are the placeholders of
the path, then the declared query parameters, then the properties of the JSON body; a name is
taken once.
-/

namespace Compile

open Document (Declared Operation Method PathItem)
open Schema (Components)

/-- The mark of paths that become commands, the paths that never do, the segments that only group
commands, and the name of a command without a literal segment. -/
structure Options where
  base : String := "/api/v1/"
  excluded : List String :=
    ["/api/v1/tools/\x7btoolName\x7d", "/api/v1/tools", "/api/v1/openapi",
      "/api/v1/prompts/\x7bpromptName\x7d", "/api/v1/prompts"]
  grouping : List String := ["tools"]
  fallback : String := "unknown"
deriving DecidableEq, Repr

structure Draft where
  params : List Param
  notices : List Notice := []

def lookUp (components : Components) : Option Schema.Node → Option Schema.Node × List Notice
  | none => (none, [])
  | some n =>
    match Schema.resolve components n with
    | .ok n => (some n, [])
    | .error b => (none, [.reference b])

def typeOf (schema : Option Schema.Node) : ParamType :=
  (schema.bind fun n => ParamType.ofName? n.typeName).getD .string

def choicesOf (schema : Option Schema.Node) : List String :=
  (schema.map Schema.Node.choiceTexts).getD []

def Draft.note (d : Draft) (notices : List Notice) : Draft :=
  { d with notices := d.notices ++ notices }

/-- Adds a parameter unless its name is taken. -/
def Draft.push (method path : String) (d : Draft) (p : Param) : Draft :=
  if d.params.any fun q => q.name == p.name then d.note [.duplicateParam method path p.name]
  else { d with params := d.params ++ [p] }

/-- Changes the first element of a class. -/
def updateFirst {α : Type} (p : α → Bool) (f : α → α) : List α → List α
  | [] => []
  | x :: xs => if p x then f x :: xs else x :: updateFirst p f xs

def isPathParam (name : String) (p : Param) : Bool := p.location == .path && p.name == name

/-- What a declaration says of a path parameter: its description and its type, where it has
them. -/
def enrich (schema : Option Schema.Node) (x : Declared) (p : Param) : Param :=
  { p with
    description := if x.description = "" then p.description else x.description
    type := (schema.bind fun n => ParamType.ofName? n.typeName).getD p.type }

/-- A declaration for a placeholder adds to it; one for no placeholder is passed over. -/
def Draft.describe (components : Components) (x : Declared) (d : Draft) : Draft :=
  if d.params.any (isPathParam x.name) then
    let (schema, notices) := lookUp components x.schema
    { params := updateFirst (isPathParam x.name) (enrich schema x) d.params
      notices := d.notices ++ notices }
  else d

def queryParam (schema : Option Schema.Node) (x : Declared) : Param :=
  { name := x.name
    description := x.description
    type := typeOf schema
    required := x.required
    location := .query
    choices := choicesOf schema }

def Draft.declare (components : Components) (method path : String) (d : Draft) (x : Declared) :
    Draft :=
  if x.place = "path" then d.describe components x
  else if x.place = "query" ∧ x.name ≠ "" then
    let (schema, notices) := lookUp components x.schema
    (d.note notices).push method path (queryParam schema x)
  else d

def placeholder (name : String) : Param :=
  { name := name, required := true, location := .path }

def bodyParam (required : List String) (name : String) (property : Option Schema.Node) : Param :=
  { name := name
    description := (property.bind Schema.Node.description).getD ""
    type := typeOf property
    required := required.contains name
    location := .body
    choices := choicesOf property }

def bodyOf (components : Components) (body : Schema.Node) : List Param × List Notice :=
  let found := body.properties.map fun (name, property) => (name, lookUp components (some property))
  (found.map fun (name, property, _) => bodyParam body.required name property,
    found.flatMap fun (_, _, notices) => notices)

/-- The parameters of a body. An unresolvable body has none. -/
def bodyParams (components : Components) (method path : String) (op : Operation) :
    List Param × List Notice :=
  match op.body with
  | none => ([], [])
  | some schema =>
    match Schema.resolve components schema with
    | .error b => ([], [.reference b, .bodyUnresolved method path])
    | .ok body => bodyOf components body

/-- All parameters of an operation; `relative` is the path after the base. -/
def draft (components : Components) (method path relative : String) (op : Operation) : Draft :=
  let start : Draft := { params := (Text.Template.names relative).map placeholder }
  let declared := op.parameters.foldl (Draft.declare components method path) start
  let (body, notices) := bodyParams components method path op
  body.foldl (Draft.push method path) (declared.note notices)

def command (options : Options) (components : Components) (path relative : String)
    (m : Method) (op : Operation) : Command × List Notice :=
  let (parent, name) := Naming.ofPath options.grouping options.fallback relative
  let d := draft components m.name path relative op
  ({ name := name
     parent := parent
     short := op.summary
     long := op.description
     method := m.name
     path := path
     params := d.params }, d.notices)

def relative? (base path : String) : Option String :=
  (Schema.dropMark base.toList path.toList).map String.ofList

def ofPath (options : Options) (components : Components) (path : String) (item : PathItem) :
    List Command × List Notice :=
  match relative? options.base path with
  | none => ([], [])
  | some relative =>
    if options.excluded.contains path then ([], [.excluded path])
    else
      let made := item.map fun (m, op) => command options components path relative m op
      (made.map Prod.fst, made.flatMap Prod.snd)

/-- The commands of a document, by path and then by method. -/
def ofDocument (options : Options) (d : Document) : List Command × List Notice :=
  let made := d.paths.map fun (path, item) => ofPath options d.schemas path item
  let commands := made.flatMap Prod.fst
  (commands, made.flatMap Prod.snd ++ [.compiled commands.length])

end Compile

def compile (options : Compile.Options) (bytes : List UInt8) :
    Outcome (List Command × List Notice) :=
  match Document.parse bytes with
  | .ok d => .ok (Compile.ofDocument options d)
  | .error f => .error (.unreadableDocument f)

end ApiCommands
