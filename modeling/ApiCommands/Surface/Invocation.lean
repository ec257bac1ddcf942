import ApiCommands.Request.Send
import ApiCommands.Surface.Build
import ApiCommands.Surface.Parse

namespace ApiCommands

/-!
# Invocations

The subcommands of a command line lead to a node of the tree, and the values given to the last of
them are the values of its inputs. Each value is checked against the choices of its input before
anything is sent.
-/

inductive Shell where
  | bash
  | zsh
  | fish
deriving DecidableEq, Repr

def Shell.ofName? (s : String) : Option Shell :=
  if s = "bash" then some .bash
  else if s = "zsh" then some .zsh
  else if s = "fish" then some .fish
  else none

namespace Matches

/-- The values of the level on which the command line ends. -/
def lastValues (m : Matches) : Values := (m.steps.getLast?.map Step.values).getD m.values

/-- The value of a global argument: the one given at the innermost level. -/
def global? (m : Matches) (id : String) : Option ArgValue :=
  (m.values :: m.steps.map Step.values).reverse.findSome? fun vs => vs.lookup id

def globalText? (m : Matches) (id : String) : Option String :=
  match m.global? id with
  | some (.text s) => some s
  | _ => none

def globalNat? (m : Matches) (id : String) : Option Nat :=
  match m.global? id with
  | some (.nat64 n) => some n
  | _ => none

def globalFlags (m : Matches) : GlobalFlags :=
  { serverUrl := m.globalText? "server_url"
    token := m.globalText? "token"
    output := m.globalText? "output"
    timeout := m.globalNat? "timeout" }

end Matches

namespace Surface

/-- The node that the named subcommands lead to, from a list of siblings on. -/
def walk (siblings : List Node) : List Step → Option Node
  | [] => none
  | [s] => Tree.find? s.command siblings
  | s :: steps => (Tree.find? s.command siblings).bind fun n => walk n.children steps

def findNode (t : Tree) (m : Matches) : Option Node := walk t m.steps

def wantedType (i : Input) : ValueType :=
  if i.positional then .text
  else
    match i.type with
    | .boolean => .switch
    | .integer => .int64
    | .number => .binary64
    | _ => .text

def rawOf (values : Values) (i : Input) : Option String :=
  (values.lookup (argId i.name)).bind (·.rawAs (wantedType i))

def collectInputs (values : Values) : List Input → Outcome (List Given)
  | [] => .ok []
  | i :: rest =>
    match rawOf values i with
    | none => collectInputs values rest
    | some raw => do
      i.validate raw
      let given ← collectInputs values rest
      .ok (⟨i.name, i.location, raw⟩ :: given)

def collect (e : Endpoint) (values : Values) : Outcome (List Given) := collectInputs values e.inputs

def invoke (carrier : Carrier) (settings : Settings) (e : Endpoint) (values : Values) :
    Outcome (List UInt8) := do
  let given ← collect e values
  Request.execute carrier settings e.method e.path given

def builtIn? (m : Matches) : Option String := m.steps.head?.map Step.command

def shell? (m : Matches) : Option Shell :=
  match m.steps with
  | s :: _ =>
    if s.command = completionCommand then
      match s.values.lookup shellArg.id with
      | some (.text name) => Shell.ofName? name
      | _ => none
    else none
  | [] => none

end Surface

end ApiCommands
