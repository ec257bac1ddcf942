namespace ApiCommands

/-!
# Notices

What the program reports while it compiles a document: warnings about what the document leaves
unclear, and traces of what was passed over.
-/

/-- A reference that does not lead to a schema. -/
inductive BrokenReference where
  /-- It does not point at a component. -/
  | unsupported (reference : String)
  /-- It has been followed before. -/
  | cyclic (reference : String)
  /-- There is no such component. -/
  | unresolvable (reference : String)
deriving DecidableEq, Repr

inductive Notice where
  | reference (broken : BrokenReference)
  | bodyUnresolved (method path : String)
  | duplicateParam (method path name : String)
  | excluded (path : String)
  | compiled (count : Nat)
  | noCommands
  | renamed (name newName : String)
  | sourceUnreadable (reason : String)
  | documentUnreadable (reason : String)
deriving DecidableEq, Repr

inductive Level where
  | debug
  | warn
deriving DecidableEq, Repr

def BrokenReference.text : BrokenReference → String
  | .unsupported r => "unsupported $ref " ++ r
  | .cyclic r => "cyclic $ref " ++ r
  | .unresolvable r => "unresolvable $ref " ++ r

namespace Notice

def level : Notice → Level
  | excluded _ => .debug
  | compiled _ => .debug
  | noCommands => .debug
  | renamed .. => .debug
  | _ => .warn

def text : Notice → String
  | reference b => b.text
  | bodyUnresolved method path =>
    method ++ " " ++ path ++ ": request body schema unresolved, no body parameters"
  | duplicateParam method path name =>
    method ++ " " ++ path ++ ": parameter " ++ name ++ " declared more than once, keeping the first"
  | excluded path => "skipping excluded path " ++ path
  | compiled count => "compiled " ++ toString count ++ " commands"
  | noCommands => "no API commands registered"
  | renamed name newName => "command name " ++ name ++ " already registered, using " ++ newName
  | sourceUnreadable reason => "could not load API document: " ++ reason
  | documentUnreadable reason => reason ++ "; no API commands available"

end Notice

end ApiCommands
