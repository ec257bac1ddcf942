namespace ApiCommands

/-!
# Command lines

A command line is described by the arguments of each command and by its subcommands.
-/

/-- What the value of an argument has to be. -/
inductive ValueKind where
  /-- Given or not; there is no value. -/
  | switch
  | text
  /-- Any text, with some suggested. -/
  | suggested (choices : List String)
  | oneOf (choices : List String)
  | int64
  | nat64
  | binary64
deriving DecidableEq, Repr

structure Arg where
  id : String
  /-- The name after two dashes; an argument without one is positional. -/
  long : Option String := none
  /-- The place that a positional argument asks for. -/
  index : Option Nat := none
  valueName : Option String := none
  required : Bool := false
  /-- Whether the argument may also be given to subcommands. -/
  global : Bool := false
  help : Option String := none
  kind : ValueKind
deriving DecidableEq, Repr

structure Spec where
  name : String
  about : Option String := none
  longAbout : Option String := none
  version : Option String := none
  subcommandRequired : Bool := false
  /-- Whether the help is shown where nothing is given. -/
  helpWhenEmpty : Bool := false
  /-- Whether a subcommand makes required arguments optional. -/
  subcommandWaives : Bool := false
  args : List Arg := []
  subcommands : List Spec := []

namespace ValueKind

def takesValue : ValueKind → Bool
  | switch => false
  | _ => true

/-- The values that are shown for an argument. -/
def choices : ValueKind → Option (List String)
  | suggested cs => some cs
  | oneOf cs => some cs
  | _ => none

def hidesChoices : ValueKind → Bool
  | suggested _ => true
  | _ => false

/-- Whether a value may begin with a dash and be a number. -/
def allowsNegative : ValueKind → Bool
  | int64 => true
  | binary64 => true
  | _ => false

end ValueKind

namespace Spec

def subcommand? (c : Spec) (name : String) : Option Spec := c.subcommands.find? (·.name == name)

def isPositional (a : Arg) : Bool := a.long.isNone

def positionals (c : Spec) : List Arg := c.args.filter isPositional

end Spec

end ApiCommands
