import ApiCommands.Proofs.Text.Percent
import ApiCommands.Proofs.Text.Template
import ApiCommands.Request.Basic

namespace ApiCommands.Request

/-!
# Filling the path

Path values whose braced names stand for themselves in a template fill it all at once. A request is
prepared exactly when no placeholder is left and the method is a word.
-/

open Text (percentChars)
open Text.Template

/-- The encoded value of a placeholder, the first one that is given. -/
def pathValue (given : List Given) (name : List Char) : Option (List Char) :=
  ((given.filter (·.isAt .path)).find? fun g => g.name.toList == name).map
    fun g => percentChars g.raw.toList

theorem openBrace_notMem_pathValue {given : List Given} {name x : List Char}
    (h : pathValue given name = some x) : '{' ∉ x := by
  obtain ⟨g, _, rfl⟩ := Option.map_eq_some_iff.mp h
  exact Text.openBrace_notMem_percentChars _

theorem openBrace_notMem_only (name cs : List Char) :
    ∀ other x, only name (percentChars cs) other = some x → '{' ∉ x :=
  fun _ _ => openBrace_notMem_of_only (Text.openBrace_notMem_percentChars cs)

theorem pathValue_cons (g : Given) (given : List Given) (name : List Char) :
    pathValue (g :: given) name =
      if g.isAt .path then
        (only g.name.toList (percentChars g.raw.toList) name).or (pathValue given name)
      else pathValue given name := by
  by_cases hpath : g.isAt .path = true
  · by_cases hname : g.name.toList = name
    · simp [pathValue, hpath, hname, only]
    · simp [pathValue, hpath, hname, only, Ne.symm hname]
  · simp [pathValue, hpath]

theorem pathValue_isSome {given : List Given} {g : Given} (hg : g ∈ given)
    (hpath : g.isAt .path = true) : (pathValue given g.name.toList).isSome = true := by
  rw [pathValue, Option.isSome_map, List.find?_isSome]
  exact ⟨g, List.mem_filter.mpr ⟨hg, hpath⟩, by simp⟩

theorem fillPath_cons (template : String) (g : Given) (given : List Given) :
    fillPath template (g :: given) =
      fillPath (if g.isAt .path then fill g.name (Text.percentEncode g.raw) template
        else template) given := by
  by_cases hpath : g.isAt .path = true <;> simp [fillPath, hpath]

/-- Filling brings no mark into a path. -/
theorem notMem_fillPath {c : Char} (hc : Text.IsMark c) {template : String}
    (h : c ∉ template.toList) (given : List Given) : c ∉ (fillPath template given).toList := by
  induction given generalizing template with
  | nil => exact h
  | cons g given ih =>
      rw [fillPath_cons]
      split
      case isTrue =>
        refine ih fun hmem => ?_
        rw [fill, String.toList_ofList, Text.percentEncode, String.toList_ofList] at hmem
        rcases mem_replaceFrom hmem with hmem | hmem
        · exact Text.notMem_percentChars hc _ hmem
        · exact h hmem
      case isFalse => exact ih h

/-- A path value is given for a name. -/
def HasPathValue (given : List Given) (name : String) : Prop :=
  ∃ g ∈ given, g.isAt .path = true ∧ g.name = name

instance (given : List Given) (name : String) : Decidable (HasPathValue given name) :=
  inferInstanceAs (Decidable (∃ g ∈ given, g.isAt .path = true ∧ g.name = name))

theorem pathValue_eq_none_iff {given : List Given} {name : String} :
    pathValue given name.toList = none ↔ ¬HasPathValue given name := by
  rw [pathValue, Option.map_eq_none_iff, List.find?_eq_none]
  constructor
  · rintro h ⟨g, hg, hpath, rfl⟩
    exact h g (List.mem_filter.mpr ⟨hg, hpath⟩) (by simp)
  · intro h g hg hname
    obtain ⟨hg, hpath⟩ := List.mem_filter.mp hg
    exact h ⟨g, hg, hpath, String.toList_injective (by simpa using hname)⟩

/-- The braced names of the path values stand for themselves in a template: none goes on beyond the
end of a placeholder, and none is the end of a longer one. -/
structure Plain (template : String) (given : List Given) : Prop where
  closeBrace : ∀ g ∈ given, g.isAt .path = true → '}' ∉ g.name.toList
  apart : ∀ g ∈ given, g.isAt .path = true → ∀ name ∈ names template,
    ¬HidesIn g.name.toList name.toList

namespace Plain

variable {template : String} {given : List Given}

theorem of_notMem (hopen : ∀ name ∈ names template, '{' ∉ name.toList)
    (hclose : ∀ g ∈ given, g.isAt .path = true → '}' ∉ g.name.toList) : Plain template given where
  closeBrace := hclose
  apart := fun _ _ _ name hname => not_hidesIn_of_notMem (hopen name hname) _

theorem not_hidesIn_groups (h : Plain template given) {g : Given} (hg : g ∈ given)
    (hpath : g.isAt .path = true) {name : List Char} (hname : name ∈ groups none template.toList) :
    ¬HidesIn g.name.toList name := by
  intro hhides
  have hne : name ≠ [] := fun hnil => by simp [HidesIn, hnil] at hhides
  exact h.apart g hg hpath _ (ofList_mem_names hname hne) (by simpa using hhides)

theorem toList_fill {g : Given} (h : Plain template (g :: given)) (hpath : g.isAt .path = true) :
    (fill g.name (Text.percentEncode g.raw) template).toList =
      substitute (only g.name.toList (percentChars g.raw.toList)) none template.toList := by
  rw [fill, String.toList_ofList, Text.percentEncode, String.toList_ofList]
  exact replaceAll_group (h.closeBrace g List.mem_cons_self hpath)
    (fun _ => h.not_hidesIn_groups List.mem_cons_self hpath) _

/-- What is left of a template when one value has been put in is plain for the others. -/
theorem tail {g : Given} (h : Plain template (g :: given)) (hpath : g.isAt .path = true) :
    Plain (fill g.name (Text.percentEncode g.raw) template) given where
  closeBrace := fun f hf => h.closeBrace f (List.mem_cons_of_mem g hf)
  apart := by
    intro f hf hfpath name hname
    have hgroup := (mem_names.mp hname).1
    rw [h.toList_fill hpath, groups_substitute (openBrace_notMem_only _ _)] at hgroup
    exact h.not_hidesIn_groups (List.mem_cons_of_mem g hf) hfpath (List.mem_of_mem_filter hgroup)

/-- Filling one path value after the other is one substitution. -/
theorem toList_fillPath (h : Plain template given) :
    (fillPath template given).toList = substitute (pathValue given) none template.toList := by
  induction given generalizing template with
  | nil => exact (substitute_none _).symm
  | cons g given ih =>
      rw [fillPath_cons, funext (pathValue_cons g given)]
      by_cases hpath : g.isAt .path = true
      · simp only [if_pos hpath]
        rw [ih (h.tail hpath), h.toList_fill hpath,
          substitute_substitute (openBrace_notMem_only _ _)]
      · simp only [if_neg hpath]
        refine ih ⟨fun f hf => h.closeBrace f (List.mem_cons_of_mem g hf), ?_⟩
        exact fun f hf => h.apart f (List.mem_cons_of_mem g hf)

/-- Filling takes the placeholders that have a value and leaves the others in their order. -/
theorem names_fillPath (h : Plain template given) :
    names (fillPath template given) =
      (names template).filter fun name => ¬HasPathValue given name := by
  apply names_eq_filter
  rw [h.toList_fillPath, groups_substitute fun _ _ => openBrace_notMem_pathValue]
  refine List.filter_congr fun name _ => ?_
  rw [Bool.eq_iff_iff, Option.isNone_iff_eq_none, decide_eq_true_iff, ← pathValue_eq_none_iff,
    String.toList_ofList]

theorem names_fillPath_eq_nil (h : Plain template given)
    (hcover : ∀ name ∈ names template, HasPathValue given name) :
    names (fillPath template given) = [] := by
  rw [h.names_fillPath, List.filter_eq_nil_iff]
  simpa using hcover

end Plain

section Prepared

variable {method template : String} {given : List Given} {r : Prepared}

theorem prepare_eq_ok_iff : prepare method template given = .ok r ↔
    isMethod (Text.asciiUpper method) = true ∧ names (fillPath template given) = [] ∧
      r = ⟨Text.asciiUpper method, appendQuery (fillPath template given) (queryOf given),
        bodyOf (Text.asciiUpper method) given⟩ := by
  constructor
  · intro h
    rw [prepare] at h
    dsimp only at h
    split at h
    case isTrue => cases h
    case isFalse hmethod =>
      split at h
      case h_1 => cases h
      case h_2 hnames =>
        cases h
        exact ⟨by simpa using hmethod, hnames, rfl⟩
  · rintro ⟨hmethod, hnames, rfl⟩
    simp [prepare, hmethod, hnames]

theorem prepare_eq_ok (h : prepare method template given = .ok r) :
    r = ⟨Text.asciiUpper method, appendQuery (fillPath template given) (queryOf given),
      bodyOf (Text.asciiUpper method) given⟩ :=
  (prepare_eq_ok_iff.mp h).2.2

theorem names_eq_nil_of_prepare (h : prepare method template given = .ok r) :
    names (fillPath template given) = [] :=
  (prepare_eq_ok_iff.mp h).2.1

theorem path_of_prepare (h : prepare method template given = .ok r) :
    r.path = appendQuery (fillPath template given) (queryOf given) := by
  rw [prepare_eq_ok h]

theorem body_of_prepare (h : prepare method template given = .ok r) :
    r.body = bodyOf (Text.asciiUpper method) given := by
  rw [prepare_eq_ok h]

theorem exists_prepare_iff (hmethod : isMethod (Text.asciiUpper method) = true) :
    (∃ r, prepare method template given = .ok r) ↔ names (fillPath template given) = [] := by
  simp [prepare_eq_ok_iff, hmethod]

end Prepared

end ApiCommands.Request
