namespace ApiCommands

/-!
# Tables sorted by name

A table is a list of named entries with strictly increasing names. Names are compared character by
character, which is the order of their bytes.
-/

namespace Table

/-- Puts an entry in its place; an entry of that name is replaced. -/
def insert {α : Type} (name : String) (x : α) : List (String × α) → List (String × α)
  | [] => [(name, x)]
  | (n, y) :: rest =>
    if name = n then (name, x) :: rest
    else if name < n then (name, x) :: (n, y) :: rest
    else (n, y) :: insert name x rest

def ofList {α : Type} (entries : List (String × α)) : List (String × α) :=
  entries.foldl (fun t (name, x) => insert name x t) []

/-- Keeps the place of the first of equal names and the entry of the last. -/
def replace {α : Type} (name : String) (x : α) : List (String × α) → List (String × α)
  | [] => [(name, x)]
  | (n, y) :: rest => if name = n then (n, x) :: rest else (n, y) :: replace name x rest

/-- The entries in the order in which their names first occur, the last of equal names winning. -/
def inOrder {α : Type} (entries : List (String × α)) : List (String × α) :=
  entries.foldl (fun t (name, x) => replace name x t) []

theorem lookup_insert_self {α : Type} (name : String) (x : α) (t : List (String × α)) :
    (insert name x t).lookup name = some x := by
  induction t with
  | nil => simp [insert]
  | cons e rest ih =>
    obtain ⟨n, y⟩ := e
    by_cases h : name = n
    · simp [insert, h]
    · by_cases hl : name < n
      · simp [insert, h, hl]
      · have hne : (name == n) = false := by simpa using h
        simp [insert, h, hl, List.lookup_cons, hne, ih]

end Table

end ApiCommands
