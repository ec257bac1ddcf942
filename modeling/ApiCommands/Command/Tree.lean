import ApiCommands.Command.Input
import ApiCommands.Command.Naming
import ApiCommands.Notice
import ApiCommands.Text.Capital

namespace ApiCommands

/-!
# The command tree

Commands of the top level come first, each child below the node of its parent's name. A name that
is taken among its siblings gets the method as a suffix, and a number after that.
-/

structure Endpoint where
  method : String
  path : String
  inputs : List Input
deriving DecidableEq, Repr

/-- A node without an endpoint only groups its children. -/
structure Node where
  name : String
  about : String
  longAbout : String
  endpoint : Option Endpoint
  children : List Node

abbrev Tree := List Node

namespace Endpoint

def positionals (e : Endpoint) : List Input := e.inputs.filter (·.positional)

def flags (e : Endpoint) : List Input := e.inputs.filter (!·.positional)

end Endpoint

namespace Node

def ofCommand (name : String) (c : Command) : Node :=
  { name := name
    about := c.short
    longAbout := c.long
    endpoint := some ⟨c.method, c.path, ApiCommands.inputs c.params⟩
    children := [] }

def grouping (name : String) : Node :=
  { name := name
    about := Text.capitalize name ++ " commands"
    longAbout := ""
    endpoint := none
    children := [] }

def isGrouping (n : Node) : Bool := n.endpoint.isNone

end Node

namespace Tree

def find? (name : String) (nodes : List Node) : Option Node := nodes.find? (·.name == name)

def uniqueName (taken : List String) (c : Command) : String :=
  if taken.contains c.name then Naming.firstFree taken (c.name ++ "-" ++ Text.asciiLower c.method)
  else c.name

/-- Adds a command after its siblings; a change of its name is noticed. -/
def addTo (siblings : List Node) (c : Command) : List Node × List Notice :=
  let taken := siblings.map Node.name
  let name := uniqueName taken c
  (siblings ++ [Node.ofCommand name c],
    if taken.contains c.name then [.renamed c.name name] else [])

/-- Adds a command as a child of the node of its parent's name, which is made where it is
missing. -/
def addChild (c : Command) : List Node → List Node × List Notice
  | [] =>
    let (children, notices) := addTo [] c
    ([{ Node.grouping c.parent with children := children }], notices)
  | n :: rest =>
    if n.name = c.parent then
      let (children, notices) := addTo n.children c
      ({ n with children := children } :: rest, notices)
    else
      let (rest, notices) := addChild c rest
      (n :: rest, notices)

def isTop (c : Command) : Bool := c.parent == ""

/-- One step of building: the tree so far and its notices, and a command. -/
def add (add : List Node → Command → List Node × List Notice) (state : Tree × List Notice)
    (c : Command) : Tree × List Notice :=
  let (nodes, notices) := add state.1 c
  (nodes, state.2 ++ notices)

def build (commands : List Command) : Tree × List Notice :=
  let top := (commands.filter isTop).foldl (add addTo) ([], [])
  (commands.filter (!isTop ·)).foldl (add fun nodes c => addChild c nodes) top

def ofCommands (commands : List Command) : Tree := (build commands).1

end Tree

end ApiCommands
