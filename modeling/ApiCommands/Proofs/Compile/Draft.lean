import ApiCommands.Command.Compile
import ApiCommands.Proofs.Text.Template

namespace ApiCommands

/-!
# Drafts of parameters

What the declarations and the body of an operation add to a draft: the parameters with new names,
in order, and one notice for every name that is taken. Declarations for placeholders change
neither the names nor the places.
-/

/-- Whether a notice is about a parameter that is left out because its name is taken. -/
def Notice.isDuplicate : Notice → Bool
  | .duplicateParam .. => true
  | _ => false

namespace Compile

open Document (Declared Operation)
open Schema (Components)
open Text.Template (firsts mem_firsts mem_append_cons_of_mem mem_cons_append_iff)

section Taken

variable {α β : Type}

/-- The elements with new names, in order. -/
def fresh (name : α → String) (taken : List String) : List α → List α
  | [] => []
  | x :: xs =>
    if name x ∈ taken then fresh name taken xs else x :: fresh name (name x :: taken) xs

/-- The names that are taken when their turn comes. -/
def repeats (taken : List String) : List String → List String
  | [] => []
  | n :: ns => if n ∈ taken then n :: repeats taken ns else repeats (n :: taken) ns

theorem fresh_congr (name : α → String) {taken taken' : List String}
    (h : ∀ n, n ∈ taken ↔ n ∈ taken') (xs : List α) :
    fresh name taken xs = fresh name taken' xs := by
  induction xs generalizing taken taken' with
  | nil => rfl
  | cons x xs ih =>
      have hcons : ∀ n, n ∈ name x :: taken ↔ n ∈ name x :: taken' := by
        intro n
        rw [List.mem_cons, List.mem_cons, h n]
      simp only [fresh, h (name x), ih h, ih hcons]

theorem repeats_congr {taken taken' : List String} (h : ∀ n, n ∈ taken ↔ n ∈ taken')
    (ns : List String) : repeats taken ns = repeats taken' ns := by
  induction ns generalizing taken taken' with
  | nil => rfl
  | cons m ns ih =>
      have hcons : ∀ n, n ∈ m :: taken ↔ n ∈ m :: taken' := by
        intro n
        rw [List.mem_cons, List.mem_cons, h n]
      simp only [repeats, h m, ih h, ih hcons]

theorem map_fresh (name : α → String) (taken : List String) (xs : List α) :
    (fresh name taken xs).map name = firsts taken (xs.map name) := by
  induction xs generalizing taken with
  | nil => rfl
  | cons x xs ih =>
      by_cases h : name x ∈ taken <;> simp [fresh, firsts, h, ih]

theorem fresh_map (f : α → β) (name : β → String) (taken : List String) (xs : List α) :
    fresh name taken (xs.map f) = (fresh (fun x => name (f x)) taken xs).map f := by
  induction xs generalizing taken with
  | nil => rfl
  | cons x xs ih =>
      by_cases h : name (f x) ∈ taken <;> simp [fresh, h, ih]

theorem mem_of_mem_fresh {name : α → String} {taken : List String} {xs : List α} {x : α}
    (h : x ∈ fresh name taken xs) : x ∈ xs := by
  induction xs generalizing taken with
  | nil => simp [fresh] at h
  | cons y xs ih =>
      rw [fresh] at h
      split at h
      case isTrue => exact List.mem_cons_of_mem y (ih h)
      case isFalse =>
        rcases List.mem_cons.mp h with rfl | h
        · exact List.mem_cons_self
        · exact List.mem_cons_of_mem y (ih h)

theorem fresh_append (name : α → String) (taken : List String) (xs ys : List α) :
    fresh name taken (xs ++ ys) =
      fresh name taken xs ++ fresh name (taken ++ xs.map name) ys := by
  induction xs generalizing taken with
  | nil => simp [fresh]
  | cons x xs ih =>
      by_cases h : name x ∈ taken
      · rw [List.cons_append, fresh, if_pos h, ih, fresh, if_pos h, List.map_cons,
          fresh_congr name (mem_append_cons_of_mem h _)]
      · rw [List.cons_append, fresh, if_neg h, ih, fresh, if_neg h, List.map_cons,
          List.cons_append, fresh_congr name (mem_cons_append_iff _ _ _), List.cons_append]

theorem repeats_append (taken ns ms : List String) :
    repeats taken (ns ++ ms) = repeats taken ns ++ repeats (taken ++ ns) ms := by
  induction ns generalizing taken with
  | nil => simp [repeats]
  | cons n ns ih =>
      by_cases h : n ∈ taken
      · rw [List.cons_append, repeats, if_pos h, ih, repeats, if_pos h,
          repeats_congr (mem_append_cons_of_mem h _), List.cons_append]
      · rw [List.cons_append, repeats, if_neg h, ih, repeats, if_neg h, List.cons_append,
          repeats_congr (mem_cons_append_iff _ _ _)]

theorem mem_append_fresh (name : α → String) (taken : List String) (xs : List α) (n : String) :
    n ∈ taken ++ (fresh name taken xs).map name ↔ n ∈ taken ++ xs.map name := by
  rw [map_fresh, List.mem_append, List.mem_append, mem_firsts]
  tauto

end Taken

def duplicates (notices : List Notice) : List Notice := notices.filter Notice.isDuplicate

theorem duplicates_append (ns ms : List Notice) :
    duplicates (ns ++ ms) = duplicates ns ++ duplicates ms := List.filter_append ..

theorem push_of_mem {d : Draft} {p : Param} (h : p.name ∈ d.params.map Param.name)
    (method path : String) :
    d.push method path p = d.note [.duplicateParam method path p.name] := by
  rw [Draft.push, if_pos (by simpa using h)]

theorem push_of_notMem {d : Draft} {p : Param} (h : p.name ∉ d.params.map Param.name)
    (method path : String) : d.push method path p = { d with params := d.params ++ [p] } := by
  rw [Draft.push, if_neg (by simpa using h)]

theorem params_foldl_push (method path : String) (ps : List Param) (d : Draft) :
    (ps.foldl (Draft.push method path) d).params =
      d.params ++ fresh Param.name (d.params.map Param.name) ps := by
  induction ps generalizing d with
  | nil => simp [fresh]
  | cons p ps ih =>
      rw [List.foldl_cons, ih]
      by_cases h : p.name ∈ d.params.map Param.name
      · rw [push_of_mem h, fresh, if_pos h]
        rfl
      · have hseen : ∀ n, n ∈ (d.params ++ [p]).map Param.name ↔
            n ∈ p.name :: d.params.map Param.name := by
          intro n
          simp [or_comm]
        rw [push_of_notMem h, fresh, if_neg h, fresh_congr Param.name hseen, List.append_assoc,
          List.singleton_append]

theorem duplicates_foldl_push (method path : String) (ps : List Param) (d : Draft) :
    duplicates (ps.foldl (Draft.push method path) d).notices =
      duplicates d.notices ++
        (repeats (d.params.map Param.name) (ps.map Param.name)).map
          (.duplicateParam method path) := by
  induction ps generalizing d with
  | nil => simp [repeats]
  | cons p ps ih =>
      rw [List.foldl_cons, ih, List.map_cons, repeats]
      by_cases h : p.name ∈ d.params.map Param.name
      · rw [push_of_mem h, if_pos h, Draft.note, duplicates_append, List.append_assoc,
          List.map_cons]
        rfl
      · have hseen : ∀ n, n ∈ (d.params ++ [p]).map Param.name ↔
            n ∈ p.name :: d.params.map Param.name := by
          intro n
          simp [or_comm]
        rw [push_of_notMem h, if_neg h, repeats_congr hseen]

end Compile

end ApiCommands
