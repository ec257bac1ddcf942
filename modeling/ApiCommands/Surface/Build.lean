import ApiCommands.Command.Tree
import ApiCommands.Surface.Basic
import ApiCommands.Text.Blank

namespace ApiCommands

/-!
# The command line of a tree

Every node is a subcommand. The positional inputs of its endpoint are numbered arguments, the
others are flags; a flag with the name of a global one gets a suffix. Two built-in commands show
the tree and write completion scripts, unless a node has their name.
-/

namespace Surface

def programName : String := "dot-ai"

def programVersion : String := "0.1.0"

def treeCommand : String := "tree"

def completionCommand : String := "completion"

def shellNames : List String := ["bash", "zsh", "fish"]

/-- The names of global flags. -/
def reservedNames : List String :=
  ["server-url", "token", "output", "timeout", "debug", "help", "version"]

def globalArgs : List Arg :=
  [{ id := "server_url", long := some "server-url", global := true, valueName := some "URL"
     help := some "Server URL (env: DOT_AI_URL, default: http://localhost:3456)", kind := .text },
   { id := "token", long := some "token", global := true, valueName := some "TOKEN"
     help := some "Bearer token (env: DOT_AI_AUTH_TOKEN)", kind := .text },
   { id := "output", long := some "output", global := true, valueName := some "FORMAT"
     help := some "Output format (env: DOT_AI_OUTPUT_FORMAT, default: yaml)"
     kind := .oneOf ["json", "yaml"] },
   { id := "timeout", long := some "timeout", global := true, valueName := some "SECONDS"
     help := some
       "Request timeout in seconds, 0 disables (env: DOT_AI_TIMEOUT, default: 300)"
     kind := .nat64 },
   { id := "debug", long := some "debug", global := true, help := some "Enable debug logging"
     kind := .switch }]

def argId (name : String) : String := "param__" ++ name

def flagHelp (i : Input) : String :=
  let choices :=
    if i.choices.isEmpty then ""
    else " (one of: " ++ String.intercalate ", " i.choices ++ ")"
  let required := if i.required && i.type != .boolean then " (required)" else ""
  Text.trimStart (i.description ++ choices ++ required)

/-- The kind of value of a flag and the name that stands for it. -/
def flagKind (i : Input) : ValueKind × Option String :=
  match i.type with
  | .boolean => (.switch, none)
  | .integer => (.int64, some "INTEGER")
  | .number => (.binary64, some "NUMBER")
  | .object => (.text, some "JSON")
  | .array => (.text, some "JSON")
  | .string =>
    if i.choices.isEmpty then (.text, some "STRING") else (.suggested i.choices, some "STRING")

def flagArg (long : String) (i : Input) : Arg :=
  let (kind, valueName) := flagKind i
  { id := argId i.name
    long := some long
    valueName := valueName
    required := i.required && i.type != .boolean
    help := some (flagHelp i)
    kind := kind }

def positionalArg (index : Nat) (i : Input) : Arg :=
  { id := argId i.name
    index := some index
    valueName := some i.name
    required := true
    help := some i.description
    kind := .text }

/-- The long name of a flag, and the names that are taken after it. -/
def longName (taken : List String) (name : String) : String × List String :=
  if reservedNames.contains name then
    let long := Naming.firstFree taken (name ++ "-param")
    (long, long :: taken)
  else (name, taken)

/-- The flags with their long names, each found after those before it. -/
def flagArgs (taken : List String) : List Input → List Arg
  | [] => []
  | i :: rest =>
    let (long, taken) := longName taken i.name
    flagArg long i :: flagArgs taken rest

def positionalArgs (index : Nat) : List Input → List Arg
  | [] => []
  | i :: rest => positionalArg index i :: positionalArgs (index + 1) rest

/-- The names of flags that are no global ones. -/
def ownNames (e : Endpoint) : List String :=
  (e.flags.map (·.name)).filter (!reservedNames.contains ·)

def endpointArgs (e : Endpoint) : List Arg :=
  positionalArgs 1 e.positionals ++ flagArgs (ownNames e) e.flags

mutual

/-- The subcommand of a node. A node without an endpoint needs a subcommand, and one with both
does not demand its arguments of a subcommand. -/
def ofNode : Node → Spec
  | ⟨name, about, longAbout, endpoint, children⟩ =>
    { name := name
      about := some about
      longAbout := if longAbout = "" then none else some longAbout
      subcommandRequired := endpoint.isNone
      helpWhenEmpty := endpoint.isNone
      subcommandWaives := endpoint.isSome && !children.isEmpty
      args := (endpoint.map endpointArgs).getD []
      subcommands := ofNodes children }

def ofNodes : List Node → List Spec
  | [] => []
  | n :: rest => ofNode n :: ofNodes rest

end

def treeSpec : Spec :=
  { name := treeCommand, about := some "Show the command tree compiled from the API document" }

def shellArg : Arg := { id := "shell", required := true, kind := .oneOf shellNames }

def completionSpec : Spec :=
  { name := completionCommand
    about := some "Generate a shell completion script"
    args := [shellArg] }

def unlessNode (t : Tree) (c : Spec) : List Spec :=
  if (Tree.find? c.name t).isNone then [c] else []

def versionText (apiVersion : String) : String := programVersion ++ " (API " ++ apiVersion ++ ")"

def build (t : Tree) (apiVersion : String) : Spec :=
  { name := programName
    about := some "DevOps AI Toolkit CLI (generated from the server's OpenAPI document)"
    version := some (versionText apiVersion)
    subcommandRequired := true
    helpWhenEmpty := true
    args := globalArgs
    subcommands := ofNodes t ++ unlessNode t treeSpec ++ unlessNode t completionSpec }

end Surface

end ApiCommands
