import ApiCommands.Proofs.Request.Carried
import ApiCommands.Proofs.Tables
import ApiCommands.Proofs.Text.Decoding
import Mathlib.Data.List.TakeWhile

namespace ApiCommands.Request

/-!
# The last value of a name

The query of a path is read back by cutting it at its marks and undoing the percent encoding. It
holds the last value of each name that is not empty, in the order of the names, and so does the
body.
-/

open Text (percentEncode percentDecode)
open Text.Template

/-- Cuts a text at the first mark, which belongs to neither part. -/
def cutAt (mark : Char) (cs : List Char) : List Char × Option (List Char) :=
  (cs.takeWhile (· != mark), (cs.dropWhile (· != mark)).tail?)

/-- What follows the first question mark of a path. -/
def queryText (path : String) : Option (List Char) := (cutAt '?' path.toList).2

/-- The name and the value of a piece, which stand on both sides of its first equals sign. -/
def readPair (piece : List Char) : Option (String × String) := do
  let name ← percentDecode (String.ofList (cutAt '=' piece).1)
  let value ← percentDecode (String.ofList (← (cutAt '=' piece).2))
  some (name, value)

def readQuery (path : String) : Option (List (String × String)) :=
  match queryText path with
  | none => some []
  | some text => (text.splitOn '&').mapM readPair

theorem cutAt_append {mark : Char} {before : List Char} (h : mark ∉ before) (after : List Char) :
    cutAt mark (before ++ mark :: after) = (before, some after) := by
  have hall : ∀ c ∈ before, (c != mark) = true := fun c hc => by
    simpa using fun heq : c = mark => h (heq ▸ hc)
  rw [cutAt, List.takeWhile_append_of_pos hall, List.dropWhile_append_of_pos hall]
  simp

theorem cutAt_of_notMem {mark : Char} {cs : List Char} (h : mark ∉ cs) :
    cutAt mark cs = (cs, none) := by
  have hall : ∀ c ∈ cs, (c != mark) = true := fun c hc => by
    simpa using fun heq : c = mark => h (heq ▸ hc)
  rw [cutAt, List.takeWhile_eq_self_iff.mpr hall, List.dropWhile_eq_nil_iff.mpr hall]
  rfl

theorem notMem_percentEncode {c : Char} (hc : Text.IsMark c) (s : String) :
    c ∉ (percentEncode s).toList := by
  rw [percentEncode, String.toList_ofList]
  exact Text.notMem_percentChars hc _

theorem toList_queryPair (entry : String × String) : (queryPair entry).toList =
    (percentEncode entry.1).toList ++ '=' :: (percentEncode entry.2).toList := by
  simp [queryPair]

theorem readPair_queryPair (entry : String × String) :
    readPair (queryPair entry).toList = some entry := by
  have hmark := notMem_percentEncode (c := '=') (by decide) entry.1
  simp [readPair, toList_queryPair, cutAt_append hmark, Text.percentDecode_percentEncode]

@[simp] theorem appendQuery_nil (path : String) : appendQuery path [] = path := rfl

/-- The text of a query that is not empty. -/
def queryChars (query : List (String × String)) : List Char :=
  ['&'].intercalate (query.map fun entry => (queryPair entry).toList)

theorem toList_appendQuery {query : List (String × String)} (h : query ≠ []) (path : String) :
    (appendQuery path query).toList = path.toList ++ '?' :: queryChars query := by
  rw [appendQuery_of_ne_nil h]
  simp [queryChars, String.toList_intercalate, Function.comp_def]

theorem queryText_appendQuery {path : String} (h : '?' ∉ path.toList)
    (query : List (String × String)) :
    queryText (appendQuery path query) = if query = [] then none else some (queryChars query) := by
  split
  case isTrue hnil => rw [hnil, appendQuery_nil, queryText, cutAt_of_notMem h]
  case isFalse hne => rw [queryText, toList_appendQuery hne, cutAt_append h]

theorem splitOn_queryChars {query : List (String × String)} (h : query ≠ []) :
    (queryChars query).splitOn '&' = query.map fun entry => (queryPair entry).toList := by
  refine List.splitOn_intercalate '&' (fun piece hpiece => ?_) (by simpa using h)
  obtain ⟨entry, _, rfl⟩ := List.mem_map.mp hpiece
  have hname := notMem_percentEncode (c := '&') (by decide) entry.1
  have hvalue := notMem_percentEncode (c := '&') (by decide) entry.2
  simp [toList_queryPair, hname, hvalue]

/-- Reading a query undoes writing it. -/
theorem readQuery_appendQuery {path : String} (h : '?' ∉ path.toList)
    (query : List (String × String)) : readQuery (appendQuery path query) = some query := by
  rw [readQuery, queryText_appendQuery h]
  split_ifs with hnil
  · rw [hnil]
  · dsimp only
    rw [splitOn_queryChars hnil]
    exact Text.mapM_map_eq_some readPair_queryPair query

/-- The last value of its name at a place, of those that are not empty. -/
def IsLast (l : Location) (given : List Given) (g : Given) : Prop :=
  ∃ before after, given = before ++ g :: after ∧ g.isFilled l = true ∧
    ∀ f ∈ after, f.isFilled l = true → f.name ≠ g.name

/-- A table holds the last value of each name that has one, in the order of the names' bytes. -/
structure HoldsLast {α : Type} (l : Location) (f : Given → α) (given : List Given)
    (table : List (String × α)) : Prop where
  ordered : (table.map Prod.fst).Pairwise fun a b => Text.Utf8.encode a < Text.Utf8.encode b
  names : ∀ name, name ∈ table.map Prod.fst ↔ ∃ g ∈ given, g.isFilled l = true ∧ g.name = name
  entries : ∀ name x, (name, x) ∈ table ↔ ∃ g, IsLast l given g ∧ g.name = name ∧ f g = x

section Last

variable {α : Type} {l : Location} {f : Given → α} {given given' : List Given} {g : Given}

theorem isLast_iff : IsLast l given g ↔
    given.reverse.find? (fun h => h.isFilled l && h.name == g.name) = some g := by
  rw [List.find?_eq_some_iff_append]
  constructor
  · rintro ⟨before, after, rfl, hfilled, hafter⟩
    refine ⟨by simp [hfilled], after.reverse, before.reverse, by simp, fun h hh => ?_⟩
    simpa [imp_iff_not_or] using hafter h (List.mem_reverse.mp hh)
  · rintro ⟨hg, after, before, hreverse, hafter⟩
    refine ⟨before.reverse, after.reverse, ?_, ?_, fun h hh => ?_⟩
    · simpa using congrArg List.reverse hreverse
    · simpa using hg
    · simpa [imp_iff_not_or] using hafter h (List.mem_reverse.mp hh)

theorem IsLast.mem (h : IsLast l given g) : g ∈ given ∧ g.isFilled l = true := by
  obtain ⟨before, after, rfl, hfilled, _⟩ := h
  exact ⟨by simp, hfilled⟩

theorem name_of_find?_eq_some {name : String} {xs : List Given}
    (h : xs.find? (fun h => h.isFilled l && h.name == name) = some g) : g.name = name := by
  have hg := List.find?_some h
  simp only [Bool.and_eq_true, beq_iff_eq] at hg
  exact hg.2

theorem exists_isLast (hg : g ∈ given) (hfilled : g.isFilled l = true) :
    ∃ h, IsLast l given h ∧ h.name = g.name := by
  have hsome : (given.reverse.find? fun h => h.isFilled l && h.name == g.name).isSome = true := by
    rw [List.find?_isSome]
    exact ⟨g, List.mem_reverse.mpr hg, by simp [hfilled]⟩
  obtain ⟨h, hfind⟩ := Option.isSome_iff_exists.mp hsome
  have hname := name_of_find?_eq_some hfind
  exact ⟨h, isLast_iff.mpr (hname ▸ hfind), hname⟩

theorem mem_ofList_filled_iff {name : String} {x : α} :
    (name, x) ∈ Table.ofList ((given.filter (·.isFilled l)).map fun g => (g.name, f g)) ↔
      ∃ g, IsLast l given g ∧ g.name = name ∧ f g = x := by
  rw [Table.mem_ofList, ← List.map_reverse, ← List.filter_reverse, lookup_map_filter,
    Option.map_eq_some_iff]
  constructor
  · rintro ⟨g, hfind, rfl⟩
    obtain rfl := name_of_find?_eq_some hfind
    exact ⟨g, isLast_iff.mpr hfind, rfl, rfl⟩
  · rintro ⟨g, hlast, rfl, rfl⟩
    exact ⟨g, isLast_iff.mp hlast, rfl⟩

theorem holdsLast_ofList (l : Location) (f : Given → α) (given : List Given) :
    HoldsLast l f given
      (Table.ofList ((given.filter (·.isFilled l)).map fun g => (g.name, f g))) where
  ordered := (Table.pairwise_ofList _).imp Text.Utf8.encode_lt_encode
  names := fun name => by
    constructor
    · intro hname
      obtain ⟨⟨_, x⟩, hentry, rfl⟩ := List.mem_map.mp hname
      obtain ⟨g, hlast, hname, _⟩ := mem_ofList_filled_iff.mp hentry
      exact ⟨g, hlast.mem.1, hlast.mem.2, hname⟩
    · rintro ⟨g, hg, hfilled, rfl⟩
      obtain ⟨h, hlast, hname⟩ := exists_isLast hg hfilled
      exact List.mem_map.mpr ⟨_, mem_ofList_filled_iff.mpr ⟨h, hlast, hname, rfl⟩, rfl⟩
  entries := fun _ _ => mem_ofList_filled_iff

theorem HoldsLast.eq {table table' : List (String × α)} (h : HoldsLast l f given table)
    (h' : HoldsLast l f given' table')
    (hsame : ∀ name x, (∃ g, IsLast l given g ∧ g.name = name ∧ f g = x) ↔
      ∃ g, IsLast l given' g ∧ g.name = name ∧ f g = x) : table = table' := by
  apply eq_of_pairwise (r := fun e e' : String × α => Text.Utf8.encode e.1 < Text.Utf8.encode e'.1)
  · intro a b hab hba
    exact List.lt_asymm hab hba
  · simpa only [List.pairwise_map] using h.ordered
  · simpa only [List.pairwise_map] using h'.ordered
  · rintro ⟨name, x⟩
    rw [h.entries, h'.entries, hsame name x]

end Last

section Given

variable {method template : String} {given : List Given} {r : Prepared}

theorem holdsLast_queryOf (given : List Given) :
    HoldsLast .query Given.raw given (queryOf given) :=
  holdsLast_ofList .query Given.raw given

theorem holdsLast_membersOf (given : List Given) :
    HoldsLast .body Given.toJson given (membersOf given) :=
  holdsLast_ofList .body Given.toJson given

theorem questionMark_notMem_fillPath (hmark : '?' ∉ template.toList) (given : List Given) :
    '?' ∉ (fillPath template given).toList :=
  notMem_fillPath (by decide) hmark given

theorem readQuery_of_prepare (hok : prepare method template given = .ok r)
    (hmark : '?' ∉ template.toList) : readQuery r.path = some (queryOf given) := by
  rw [path_of_prepare hok, readQuery_appendQuery (questionMark_notMem_fillPath hmark given)]

theorem queryText_of_prepare (hok : prepare method template given = .ok r)
    (hmark : '?' ∉ template.toList) :
    queryText r.path = if queryOf given = [] then none else some (queryChars (queryOf given)) := by
  rw [path_of_prepare hok, queryText_appendQuery (questionMark_notMem_fillPath hmark given)]

theorem questionMark_mem_iff (hok : prepare method template given = .ok r)
    (hmark : '?' ∉ template.toList) : '?' ∈ r.path.toList ↔ queryOf given ≠ [] := by
  rw [path_of_prepare hok]
  by_cases hquery : queryOf given = []
  · simp [hquery, questionMark_notMem_fillPath hmark given]
  · simp [hquery, toList_appendQuery]

theorem bodyOf_eq (method : String) (given : List Given) :
    bodyOf method given = if membersOf given ≠ [] ∨ method ∈ ["POST", "PUT", "PATCH"] then
      some (.object (membersOf given)) else none := by
  simp [bodyOf, alwaysHasBody]

/-- An empty value that is not in the path is as good as none. -/
theorem prepare_withoutEmpty {before after : List Given} {g : Given} (hraw : g.raw = "")
    (hplace : g.location ≠ .path) : prepare method template (before ++ g :: after) =
      prepare method template (before ++ after) := by
  have hpath : fillPath template (before ++ g :: after) = fillPath template (before ++ after) := by
    simp [fillPath, Given.isAt, hplace]
  have hquery : queryOf (before ++ g :: after) = queryOf (before ++ after) := by
    simp [queryOf, Given.isFilled, hraw]
  have hbody : ∀ name, bodyOf name (before ++ g :: after) = bodyOf name (before ++ after) := by
    simp [bodyOf, membersOf, Given.isFilled, hraw]
  rw [prepare, prepare, hpath, hquery, hbody]

/-- The query of a request is read back as the table of the last values given in the query that are
not empty, and the body has the last such values given in the body. So the query tells these values
and nothing else, and an empty value does not take the place of an earlier one. -/
theorem prepare_last_wins (hok : prepare method template given = .ok r)
    (hmark : '?' ∉ template.toList) :
    (∃ query, readQuery r.path = some query ∧ HoldsLast .query Given.raw given query ∧
      ('?' ∈ r.path.toList ↔ query ≠ [])) ∧
    (∃ members, HoldsLast .body Given.toJson given members ∧
      r.body = if members ≠ [] ∨ Text.asciiUpper method ∈ ["POST", "PUT", "PATCH"] then
        some (.object members) else none) ∧
    (∀ method' template' given' r', prepare method' template' given' = .ok r' →
      '?' ∉ template'.toList → (queryText r.path = queryText r'.path ↔
        ∀ name raw, (∃ g, IsLast .query given g ∧ g.name = name ∧ g.raw = raw) ↔
          ∃ g, IsLast .query given' g ∧ g.name = name ∧ g.raw = raw)) ∧
    ∀ before g after, given = before ++ g :: after → g.raw = "" → g.location ≠ .path →
      prepare method template (before ++ after) = .ok r := by
  refine ⟨?_, ?_, ?_, ?_⟩
  · exact ⟨queryOf given, readQuery_of_prepare hok hmark, holdsLast_queryOf given,
      questionMark_mem_iff hok hmark⟩
  · exact ⟨membersOf given, holdsLast_membersOf given, by rw [body_of_prepare hok, bodyOf_eq]⟩
  · intro method' template' given' r' hok' hmark'
    constructor
    · intro htext
      have hread := readQuery_of_prepare hok hmark
      rw [readQuery, htext, ← readQuery, readQuery_of_prepare hok' hmark'] at hread
      intro name raw
      rw [← (holdsLast_queryOf given).entries, ← (holdsLast_queryOf given').entries,
        Option.some.inj hread]
    · intro hsame
      rw [queryText_of_prepare hok hmark, queryText_of_prepare hok' hmark',
        (holdsLast_queryOf given).eq (holdsLast_queryOf given') hsame]
  · rintro before g after rfl hraw hplace
    rw [← hok, prepare_withoutEmpty hraw hplace]

end Given

/-- Names and values that are made of marks, some of them given twice or empty. -/
def markedGiven : List Given :=
  [⟨"b&", .query, "1"⟩, ⟨"é=?", .query, "+ &%26"⟩, ⟨"b&", .query, "=a?b"⟩, ⟨"b&", .query, ""⟩,
    ⟨"", .query, "#"⟩, ⟨"n", .body, "1e2"⟩, ⟨"n", .body, ""⟩, ⟨"x", .path, "?"⟩]

theorem prepare_last_wins_marked :
    '?' ∉ "/a/\x7bx\x7d".toList ∧ ∃ r, prepare "pUt" "/a/\x7bx\x7d" markedGiven = .ok r ∧
      ∃ query, readQuery r.path = some query ∧ HoldsLast .query Given.raw markedGiven query ∧
        ('?' ∈ r.path.toList ↔ query ≠ []) := by
  obtain ⟨r, hr⟩ : ∃ r, prepare "pUt" "/a/\x7bx\x7d" markedGiven = .ok r :=
    (exists_prepare_iff (by decide +kernel)).mpr (by decide +kernel)
  have hmark : '?' ∉ "/a/\x7bx\x7d".toList := by decide
  exact ⟨hmark, r, hr, (prepare_last_wins hr hmark).1⟩

example :
    (prepare "pUt" "/a/\x7bx\x7d" markedGiven).map (fun r => readQuery r.path) =
      .ok (some [("", "#"), ("b&", "=a?b"), ("é=?", "+ &%26")]) := by
  decide +kernel

end ApiCommands.Request
