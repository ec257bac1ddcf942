namespace ApiCommands

/-!
# Names of commands

A command is named after the literal segments of its path: the first is the parent, the rest are
the name. A leading grouping segment is dropped when another literal follows.
-/

namespace Naming

def segments : List Char → List (List Char)
  | [] => [[]]
  | c :: rest =>
    if c = '/' then [] :: segments rest
    else
      match segments rest with
      | [] => [[c]]
      | s :: ss => (c :: s) :: ss

def isLiteral (segment : List Char) : Bool := !segment.isEmpty && !segment.contains '{'

/-- The segments that are neither empty nor hold a placeholder. -/
def literals (path : String) : List String :=
  ((segments path.toList).filter isLiteral).map String.ofList

def dropGrouping (grouping : List String) : List String → List String
  | first :: second :: rest =>
    if grouping.contains first then second :: rest else first :: second :: rest
  | names => names

/-- The parent, empty for a command of the top level, and the name. -/
def derive (fallback : String) : List String → String × String
  | [] => ("", fallback)
  | [only] => ("", only)
  | parent :: rest => (parent, String.intercalate "-" rest)

def ofPath (grouping : List String) (fallback path : String) : String × String :=
  derive fallback (dropGrouping grouping (literals path))

theorem segments_ne_nil (cs : List Char) : segments cs ≠ [] := by
  induction cs with
  | nil => simp [segments]
  | cons c rest ih =>
    by_cases h : c = '/'
    · simp [segments, h]
    · simp only [segments, h, if_false]
      split <;> simp_all

example : ofPath ["tools"] "unknown" "tools/query" = ("", "query") := by decide +kernel
example : ofPath ["tools"] "unknown" "a/{id}/b//c" = ("a", "b-c") := by decide +kernel

/-- The first free name among `stem-2`, `stem-3` and so on, from a number on. Of more candidates
than there are taken names one is free, so `limit` never runs out when it is their number plus
one. -/
def numbered (taken : List String) (stem : String) : Nat → Nat → String
  | 0, k => stem ++ "-" ++ toString k
  | limit + 1, k =>
    let candidate := stem ++ "-" ++ toString k
    if taken.contains candidate then numbered taken stem limit (k + 1) else candidate

def firstFree (taken : List String) (stem : String) : String :=
  if taken.contains stem then numbered taken stem (taken.length + 1) 2 else stem

example : firstFree ["a", "a-2"] "a" = "a-3" := by decide +kernel

end Naming

end ApiCommands
