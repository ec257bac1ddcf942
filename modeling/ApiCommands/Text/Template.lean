namespace ApiCommands.Text

/-!
# Path templates

A template has placeholders: a name between a brace and the next closing brace. The scan goes from
left to right and goes on after the closing brace.
-/

namespace Template

/-- The texts between braces, in order; `inside` is the text since the brace that is open, in
reverse. A brace that is never closed has none. -/
def groups : Option (List Char) → List Char → List (List Char)
  | _, [] => []
  | none, c :: rest => if c = '{' then groups (some []) rest else groups none rest
  | some inside, c :: rest =>
    if c = '}' then inside.reverse :: groups none rest else groups (some (c :: inside)) rest

/-- Keeps the first of equal elements. -/
def firsts {α : Type} [DecidableEq α] (seen : List α) : List α → List α
  | [] => []
  | x :: xs => if x ∈ seen then firsts seen xs else x :: firsts (x :: seen) xs

/-- The distinct names of the placeholders, in order. -/
def names (template : String) : List String :=
  firsts [] ((groups none template.toList).filter (!·.isEmpty) |>.map String.ofList)

/-- Replaces every occurrence of a text that is not empty, from left to right. `skip` characters
are still covered by the last occurrence. -/
def replaceFrom (old new : List Char) : Nat → List Char → List Char
  | _, [] => []
  | skip + 1, _ :: rest => replaceFrom old new skip rest
  | 0, c :: rest =>
    if old.isPrefixOf (c :: rest) then new ++ replaceFrom old new (old.length - 1) rest
    else c :: replaceFrom old new 0 rest

def replaceAll (old new cs : List Char) : List Char := replaceFrom old new 0 cs

def group (name : List Char) : List Char := '{' :: name ++ ['}']

def fill (name value : String) (template : String) : String :=
  String.ofList (replaceAll (group name.toList) value.toList template.toList)

@[simp] theorem groups_nil (inside : Option (List Char)) : groups inside [] = [] := by
  cases inside <;> rfl

theorem groups_cons_of_ne {c : Char} (h : c ≠ '{') (rest : List Char) :
    groups none (c :: rest) = groups none rest := by
  simp [groups, h]

example : names "/a/{x}/{y}{x}" = ["x", "y"] := by decide +kernel
example : fill "x" "1" "/{x}/{xx}{x}" = "/1/{xx}1" := by decide +kernel

end Template

end ApiCommands.Text
