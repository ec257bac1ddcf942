import ApiCommands.Command.Basic
import ApiCommands.Failure

namespace ApiCommands

/-!
# Inputs of a command

Each parameter is given as a positional argument or as a flag. Path parameters are positional, and
so is the one required free text of the body when there is exactly one; all others are flags.
-/

structure Input extends Param where
  positional : Bool
deriving DecidableEq, Repr

namespace Param

/-- Whether a parameter is a required text in the body that may be anything. -/
def isFreeText (p : Param) : Bool :=
  p.location == .body && p.required && p.type == .string && p.choices.isEmpty

def isPath (p : Param) : Bool := p.location == .path

def promoted (ps : List Param) : List Param :=
  match ps.filter isFreeText with
  | [only] => [only]
  | _ => []

def positionals (ps : List Param) : List Param := ps.filter isPath ++ promoted ps

def isFlag (hasPromoted : Bool) (p : Param) : Bool :=
  !p.isPath && !(hasPromoted && p.isFreeText)

def flags (ps : List Param) : List Param := ps.filter (isFlag !(promoted ps).isEmpty)

end Param

/-- The inputs of some parameters: the positional ones in the order of the arguments, then the
flags. -/
def inputs (ps : List Param) : List Input :=
  (Param.positionals ps).map (⟨·, true⟩) ++ (Param.flags ps).map (⟨·, false⟩)

namespace Input

def validate (i : Input) (value : String) : Outcome Unit :=
  if i.choices.isEmpty || i.choices.contains value then .ok ()
  else .error (.valueNotAllowed i.name value i.choices)

end Input

end ApiCommands
