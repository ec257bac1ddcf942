import ApiCommands.Notice
import ApiCommands.Schema.Node

namespace ApiCommands.Schema

/-!
# Following references

A reference names a component. A chain of references is followed until a node has none; it breaks
where it leaves the components or returns to a reference followed before, so it has at most one
step more than there are components.
-/

/-- What stands before the name of a component in a reference. -/
def componentMark : String := "#/components/schemas/"

/-- Replaces `~` and a letter by a character. -/
def unescape (letter replacement : Char) : List Char → List Char
  | '~' :: c :: rest =>
    if c = letter then replacement :: unescape letter replacement rest
    else '~' :: unescape letter replacement (c :: rest)
  | c :: rest => c :: unescape letter replacement rest
  | [] => []

/-- What is left of a text after another that it begins with. -/
def dropMark : List Char → List Char → Option (List Char)
  | [], cs => some cs
  | _ :: _, [] => none
  | m :: ms, c :: cs => if m = c then dropMark ms cs else none

theorem dropMark_eq_some_iff {mark cs rest : List Char} :
    dropMark mark cs = some rest ↔ cs = mark ++ rest := by
  induction mark generalizing cs with
  | nil => simp [dropMark]
  | cons m mark ih =>
      cases cs with
      | nil => simp [dropMark]
      | cons c cs =>
          by_cases h : m = c
          · simp [dropMark, h, ih]
          · simp [dropMark, h, Ne.symm h]

/-- The name of the component that a reference points at; in it `~1` stands for a slash and `~0`
for a tilde. -/
def componentName (reference : String) : Option String :=
  match dropMark componentMark.toList reference.toList with
  | none => none
  | some name =>
    if name.isEmpty || name.contains '/' then none
    else some (String.ofList (unescape '0' '~' (unescape '1' '/' name)))

/-- Follows references from a node, those in `followed` being behind. Every step adds one to them
that names a component, so `limit` never runs out when it is above the number of components. -/
def follow (components : Components) : Nat → List String → Node → Except BrokenReference Node
  | limit, followed, node =>
    match node.pending with
    | none => .ok node
    | some r =>
      match componentName r with
      | none => .error (.unsupported r)
      | some name =>
        if followed.contains r then .error (.cyclic r)
        else
          match components.lookup name with
          | none => .error (.unresolvable r)
          | some target =>
            match limit with
            | 0 => .error (.cyclic r)
            | limit + 1 => follow components limit (r :: followed) target

def resolve (components : Components) (node : Node) : Except BrokenReference Node :=
  follow components (components.length + 1) [] node

example : componentName "#/components/schemas/a~1b~01" = some "a/b~1" := by decide +kernel

end ApiCommands.Schema
