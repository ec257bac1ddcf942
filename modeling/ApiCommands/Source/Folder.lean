import ApiCommands.Command.Naming
import ApiCommands.Source.Load

namespace ApiCommands.Source

/-!
# A folder in memory

The files of one folder, and what a path finds there: the names of the path lead to the folder and
then to a file, after which nothing may follow.
-/

structure Folder where
  /-- The path of the folder, from the root. -/
  path : String
  files : List (String × List UInt8)

namespace Folder

/-- Drops the names that stay where they are; a name followed by two dots leads nowhere. -/
def steps : List (List Char) → List (List Char)
  | [] => []
  | s :: rest =>
    let rest := steps rest
    if s = [] ∨ s = ['.'] then rest
    else
      match rest with
      | ['.', '.'] :: others => if s = ['.', '.'] then s :: rest else others
      | _ => s :: rest

/-- Whether a path ends in a slash or a dot, which only folders do. -/
def asksFolder (cs : List Char) : Bool :=
  match (Naming.segments cs).getLast? with
  | some s => s == [] || s == ['.']
  | none => false

/-- What a path finds below the folder. -/
def below (f : Folder) (rest : List Char) : Entry :=
  match steps (Naming.segments rest) with
  | [] => .folder
  | [name] =>
    if name = ['.', '.'] then .folder
    else
      match f.files.lookup (String.ofList name) with
      | some bytes => if asksFolder rest then .missing else .file bytes
      | none => .missing
  | _ => .missing

/-- Whether a path stays at the root or where it starts. -/
def isPlain (cs : List Char) : Bool :=
  !cs.isEmpty && (Naming.segments cs).all fun s => s == [] || s == ['.'] || s == ['.', '.']

def entry (f : Folder) (path : String) : Entry :=
  let cs := path.toList
  if f.path.toList.isPrefixOf cs then
    match cs.drop f.path.length with
    | [] => .folder
    | '/' :: rest => f.below rest
    | _ => .missing
  else if isPlain cs then .folder
  else .missing

def places (f : Folder) : Places := ⟨f.entry, fun _ => none⟩

end Folder

end ApiCommands.Source
