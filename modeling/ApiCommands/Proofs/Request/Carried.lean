import ApiCommands.Proofs.Keys
import ApiCommands.Proofs.Request.Path

namespace ApiCommands.Request

/-!
# What a request carries

A value that is not empty is in the request: in the place of its placeholder, in the query beside
its name, or under its name in the body. An empty value is left out of the query and of the body,
and nothing takes the place of its placeholder.
-/

open Json (Value)
open Text (percentChars)
open Text.Template

/-- A value is in a request that was made of given values. -/
def Carries (template : String) (given : List Given) (r : Prepared) (g : Given) : Prop :=
  match g.location with
  | .path => ∃ value rest, r.path = String.ofList (substitute value none template.toList) ++ rest ∧
      (rest = "" ∨ ∃ query, rest = "?" ++ query) ∧ g.name.toList ∈ groups none template.toList ∧
      value g.name.toList = some (percentChars g.raw.toList) ∧ percentChars g.raw.toList ≠ []
  | .query => ∃ query : List (String × String), (g.name, g.raw) ∈ query ∧
      r.path = fillPath template given ++ "?" ++ String.intercalate "&" (query.map queryPair)
  | .body => ∃ members, (g.name, g.toJson) ∈ members ∧ r.body = some (.object members)

theorem appendQuery_of_ne_nil {query : List (String × String)} (h : query ≠ []) (path : String) :
    appendQuery path query = path ++ "?" ++ String.intercalate "&" (query.map queryPair) := by
  rw [appendQuery, if_neg (by simpa using h)]

theorem exists_appendQuery_eq (path : String) (query : List (String × String)) :
    ∃ rest, appendQuery path query = path ++ rest ∧ (rest = "" ∨ ∃ text, rest = "?" ++ text) := by
  by_cases h : query = []
  · exact ⟨"", by simp [appendQuery, h], Or.inl rfl⟩
  · refine ⟨_, ?_, Or.inr ⟨String.intercalate "&" (query.map queryPair), rfl⟩⟩
    rw [appendQuery_of_ne_nil h, String.append_assoc]

section Given

variable {given : List Given} {g : Given}

theorem mem_ofList_filled {α : Type} (f : Given → α) (hnodup : (given.map Given.name).Nodup)
    (hg : g ∈ given) (hraw : g.raw ≠ "") :
    (g.name, f g) ∈
      Table.ofList ((given.filter (·.isFilled g.location)).map fun g => (g.name, f g)) := by
  have hkeys : (((given.filter (·.isFilled g.location)).map fun g => (g.name, f g)).map
      Prod.fst).Nodup := by
    rw [List.map_map]
    exact hnodup.sublist (List.filter_sublist.map _)
  refine (Table.ofList_perm hkeys).mem_iff.mpr (List.mem_map.mpr ⟨g, ?_, rfl⟩)
  exact List.mem_filter.mpr ⟨hg, by simp [Given.isFilled, Given.isAt, hraw]⟩

theorem pathValue_of_mem (hnodup : ((given.filter (·.isAt .path)).map Given.name).Nodup)
    (hg : g ∈ given) (hpath : g.isAt .path = true) :
    pathValue given g.name.toList = some (percentChars g.raw.toList) := by
  have hkeys : ((given.filter (·.isAt .path)).map fun g => g.name.toList).Nodup := by
    have hlists := hnodup.map fun _ _ heq => String.toList_injective heq
    rwa [List.map_map] at hlists
  have hfind := find?_of_mem hkeys (List.mem_filter.mpr ⟨hg, hpath⟩)
  rw [pathValue, hfind, Option.map_some]

variable {method template : String} {r : Prepared}

/-- The names of the placeholders have to be what the scan finds, so they hold no opening brace. -/
theorem carries_path (h : prepare method template given = .ok r)
    (hnodup : (given.map Given.name).Nodup)
    (htemplate : ∀ name ∈ groups none template.toList, '{' ∉ name)
    (hgiven : ∀ f ∈ given, f.isAt .path = true → f.name.toList ∈ groups none template.toList)
    (hg : g ∈ given) (hpath : g.location = .path) (hraw : g.raw ≠ "") :
    Carries template given r g := by
  have hat : g.isAt .path = true := by simp [Given.isAt, hpath]
  have hclose : ∀ f ∈ given, f.isAt .path = true → '}' ∉ f.name.toList := by
    intro f hf hfpath
    exact notMem_of_mem_groups (hgiven f hf hfpath)
  have hplain : Plain template given :=
    .of_notMem (fun name hname => htemplate _ (mem_names.mp hname).1) hclose
  have hfill : fillPath template given =
      String.ofList (substitute (pathValue given) none template.toList) := by
    apply String.toList_injective
    rw [hplain.toList_fillPath, String.toList_ofList]
  obtain ⟨rest, hrest, hform⟩ := exists_appendQuery_eq (fillPath template given) (queryOf given)
  rw [Carries, hpath]
  have hpaths : ((given.filter (·.isAt .path)).map Given.name).Nodup :=
    hnodup.sublist (List.filter_sublist.map _)
  refine ⟨pathValue given, rest, ?_, hform, hgiven g hg hat, pathValue_of_mem hpaths hg hat, ?_⟩
  · rw [prepare_eq_ok h, ← hfill]
    exact hrest
  · apply Text.percentChars_ne_nil
    simpa using hraw

theorem carries_query (h : prepare method template given = .ok r)
    (hnodup : (given.map Given.name).Nodup) (hg : g ∈ given) (hquery : g.location = .query)
    (hraw : g.raw ≠ "") : Carries template given r g := by
  have hmem : (g.name, g.raw) ∈ queryOf given := by
    have hfilled := mem_ofList_filled Given.raw hnodup hg hraw
    rwa [hquery] at hfilled
  rw [Carries, hquery]
  refine ⟨queryOf given, hmem, ?_⟩
  rw [prepare_eq_ok h]
  exact appendQuery_of_ne_nil (List.ne_nil_of_mem hmem) _

theorem carries_body (h : prepare method template given = .ok r)
    (hnodup : (given.map Given.name).Nodup) (hg : g ∈ given) (hbody : g.location = .body)
    (hraw : g.raw ≠ "") : Carries template given r g := by
  have hmem : (g.name, g.toJson) ∈ membersOf given := by
    have hfilled := mem_ofList_filled Given.toJson hnodup hg hraw
    rwa [hbody] at hfilled
  have hsome : (!(membersOf given).isEmpty || alwaysHasBody (Text.asciiUpper method)) = true := by
    simp [List.ne_nil_of_mem hmem]
  rw [Carries, hbody]
  refine ⟨membersOf given, hmem, ?_⟩
  rw [prepare_eq_ok h]
  exact if_pos hsome

end Given

end ApiCommands.Request
