import ApiCommands.Command.Basic
import ApiCommands.Failure
import ApiCommands.Json.Printer
import ApiCommands.Text.Blank
import ApiCommands.Text.Capital
import ApiCommands.Text.Percent
import ApiCommands.Text.Template

namespace ApiCommands

/-!
# Requests

A request is made from a method, a path template and given values: path values fill the
placeholders, query values are appended in the order of their names, body values are the members
of one object.
-/

open Json (Value)

structure Given where
  name : String
  location : Location
  raw : String
deriving DecidableEq, Repr

namespace Given

/-- The JSON value that a text denotes, if it does. -/
def parsed? (raw : String) : Option Value := (Json.parse (Text.Utf8.encode raw)).toOption

/-- The value in a body: the JSON value that the text denotes, else the text. -/
def toJson (g : Given) : Value := (parsed? g.raw).getD (.string g.raw)

def isAt (l : Location) (g : Given) : Bool := g.location == l

/-- Whether a value is given at a place and not empty. -/
def isFilled (l : Location) (g : Given) : Bool := g.isAt l && g.raw != ""

end Given

structure Prepared where
  method : String
  path : String
  body : Option Value

namespace Request

def isMethodChar (c : Char) : Bool := c.isAlphanum || "!#$%&'*+-.^_\x60|~".toList.contains c

/-- A method is a word of its own alphabet. -/
def isMethod (s : String) : Bool := s != "" && s.toList.all isMethodChar

/-- Puts path values into the template, one after the other. -/
def fillPath (template : String) (given : List Given) : String :=
  (given.filter (·.isAt .path)).foldl
    (fun path g => Text.Template.fill g.name (Text.percentEncode g.raw) path) template

/-- The query values that are not empty, by name, the last of equal names winning. -/
def queryOf (given : List Given) : List (String × String) :=
  Table.ofList ((given.filter (·.isFilled .query)).map fun g => (g.name, g.raw))

def queryPair (entry : String × String) : String :=
  Text.percentEncode entry.1 ++ "=" ++ Text.percentEncode entry.2

def appendQuery (path : String) (query : List (String × String)) : String :=
  if query.isEmpty then path
  else path ++ "?" ++ String.intercalate "&" (query.map queryPair)

/-- The body values that are not empty, by name. -/
def membersOf (given : List Given) : List (String × Value) :=
  Table.ofList ((given.filter (·.isFilled .body)).map fun g => (g.name, g.toJson))

/-- The methods that send a body even when it has no member. -/
def alwaysHasBody (method : String) : Bool := ["POST", "PUT", "PATCH"].contains method

def bodyOf (method : String) (given : List Given) : Option Value :=
  let members := membersOf given
  if !members.isEmpty || alwaysHasBody method then some (.object members) else none

/-- Prepares a request. Neither a word that is no method nor a placeholder without a value is let
through. -/
def prepare (method template : String) (given : List Given) : Outcome Prepared :=
  let name := Text.asciiUpper method
  if !isMethod name then .error (.misuse (.unsupportedMethod method))
  else
    let path := fillPath template given
    match Text.Template.names path with
    | missing :: _ => .error (.misuse (.missingPathParam missing))
    | [] => .ok ⟨name, appendQuery path (queryOf given), bodyOf name given⟩

/-- The address of a path on a server: one slash stands between them. -/
def url (server path : String) : String :=
  let base := Text.dropEndWhile (· == '/') server.toList
  let rest := path.toList.dropWhile (· == '/')
  if rest.isEmpty then String.ofList base else String.ofList (base ++ '/' :: rest)

end Request

end ApiCommands
