import ApiCommands.Proofs.Request.Missing
import ApiCommands.Proofs.Request.Query
import ApiCommands.Proofs.Text.Trimmed
import Mathlib.Data.List.Dedup

namespace ApiCommands.Request

/-!
# The shape of an address

The marks of an address are those of the template and of the query's own syntax. No value adds a
segment to the path, a pair to the query or a fragment.
-/

open Text.Template

/-- The slashes at the end of the server are cut off, and the path is put after it as it is. -/
theorem exists_base (server : String) {path : String} {c : Char} {rest : List Char}
    (hpath : path.toList = '/' :: c :: rest) (hc : c ≠ '/') :
    ∃ base n, server.toList = base.toList ++ List.replicate n '/' ∧
      base.toList.getLast? ≠ some '/' ∧ url server path = base ++ path := by
  obtain ⟨⟨n, hn⟩, hlast⟩ := Text.exists_replicate_dropEndWhile '/' server.toList
  refine ⟨String.ofList (Text.dropEndWhile (· == '/') server.toList), n, by simpa using hn,
    by simpa using hlast, ?_⟩
  have hdrop : path.toList.dropWhile (· == '/') = c :: rest := by simp [hpath, hc]
  apply String.toList_injective
  rw [url, hdrop]
  simp [hpath]

theorem queryChars_cons_cons (entry next : String × String) (rest : List (String × String)) :
    queryChars (entry :: next :: rest) =
      (queryPair entry).toList ++ '&' :: queryChars (next :: rest) := by
  simp [queryChars, List.intercalate_cons_cons]

theorem count_queryPair {c : Char} (hc : Text.IsMark c) (entry : String × String) :
    (queryPair entry).toList.count c = if c = '=' then 1 else 0 := by
  have hname := List.count_eq_zero.mpr (notMem_percentEncode hc entry.1)
  have hvalue := List.count_eq_zero.mpr (notMem_percentEncode hc entry.2)
  rw [toList_queryPair, List.count_append, List.count_cons, hname, hvalue]
  by_cases heq : c = '='
  · simp [heq]
  · simp [heq, Ne.symm heq]

/-- A query has as many equals signs as pairs, and a separator between two pairs. -/
theorem count_queryChars {c : Char} (hc : Text.IsMark c) (query : List (String × String)) :
    (queryChars query).count c =
      (if c = '=' then query.length else 0) + if c = '&' then query.length - 1 else 0 := by
  induction query with
  | nil => simp [queryChars]
  | cons entry query ih =>
      have hentry := count_queryPair hc entry
      cases query with
      | nil =>
          have hone : queryChars [entry] = (queryPair entry).toList := by simp [queryChars]
          simp [hone, hentry]
      | cons next query =>
          rw [queryChars_cons_cons, List.count_append, List.count_cons, hentry, ih]
          simp only [List.length_cons, beq_iff_eq, eq_comm (a := '&')]
          split_ifs <;> omega

/-- The names of the query values that are not empty, each once. -/
def queryNames (given : List Given) : List String :=
  ((given.filter (·.isFilled .query)).map Given.name).dedup

theorem length_queryOf (given : List Given) :
    (queryOf given).length = (queryNames given).length := by
  have hkeys : ((queryOf given).map Prod.fst).Nodup := Table.nodup_ofList _
  have hnames : (queryNames given).Nodup := List.nodup_dedup _
  have hperm : ((queryOf given).map Prod.fst).Perm (queryNames given) := by
    rw [List.perm_ext_iff_of_nodup hkeys hnames]
    intro name
    rw [(holdsLast_queryOf given).names]
    simp [queryNames, and_assoc]
  rw [← hperm.length_eq, List.length_map]

/-- After the question mark there is one pair for each name with a value. -/
theorem exists_query {given : List Given} (hnames : queryNames given ≠ []) (path : String) :
    ∃ query, (appendQuery path (queryOf given)).toList = path.toList ++ '?' :: query ∧
      query.count '=' = (queryNames given).length ∧
      query.count '&' + 1 = (queryNames given).length ∧ '/' ∉ query := by
  have hlen := length_queryOf given
  have hpos : 0 < (queryNames given).length := List.length_pos_of_ne_nil hnames
  have hquery : queryOf given ≠ [] := List.ne_nil_of_length_pos (hlen ▸ hpos)
  refine ⟨queryChars (queryOf given), toList_appendQuery hquery path, ?_, ?_, ?_⟩
  · rw [count_queryChars (by decide), hlen]
    simp
  · rw [count_queryChars (by decide), hlen]
    simp
    omega
  · rw [← List.count_eq_zero, count_queryChars (by decide)]
    simp

section Given

variable {method template : String} {given : List Given} {r : Prepared}

/-- When a request is prepared, the placeholders without a value have no name. -/
theorem eq_nil_of_pathValue_eq_none (hplain : Plain template given)
    (hnames : names (fillPath template given) = []) {name : List Char}
    (hgroup : name ∈ groups none template.toList) (hnone : pathValue given name = none) :
    name = [] := by
  by_contra hne
  rw [hplain.names_fillPath, List.filter_eq_nil_iff] at hnames
  have hmissing : ¬HasPathValue given (String.ofList name) :=
    pathValue_eq_none_iff.mp (by simpa using hnone)
  exact hnames _ (ofList_mem_names hgroup hne) (by simpa using hmissing)

/-- No value brings a slash into the path. -/
theorem count_fillPath (hplain : Plain template given)
    (hnames : names (fillPath template given) = []) :
    (fillPath template given).toList.count '/' = (outside template.toList).count '/' := by
  rw [hplain.toList_fillPath]
  refine count_substitute (by decide) (by decide) (fun name x hx => ?_) fun name hname hnone => ?_
  · obtain ⟨g, _, rfl⟩ := Option.map_eq_some_iff.mp hx
    exact Text.notMem_percentChars (by decide) _
  · rw [eq_nil_of_pathValue_eq_none hplain hnames hname hnone]
    exact List.not_mem_nil

/-- The path begins like the template. -/
theorem exists_toList_of_prepare (hok : prepare method template given = .ok r)
    (hplain : Plain template given) {c : Char} {rest : List Char}
    (htemplate : template.toList = '/' :: c :: rest) (hc : c ≠ '{') :
    ∃ rest', r.path.toList = '/' :: c :: rest' := by
  obtain ⟨query, hquery, _⟩ := exists_appendQuery_eq (fillPath template given) (queryOf given)
  rw [path_of_prepare hok, hquery, String.toList_append, hplain.toList_fillPath, htemplate,
    substitute_cons_of_ne (by decide), substitute_cons_of_ne hc]
  exact ⟨_, rfl⟩

/-- Outside the query syntax a query holds no mark. -/
theorem count_appendQuery {c : Char} (hc : Text.IsMark c) (hequals : c ≠ '=') (hand : c ≠ '&')
    (path : String) (query : List (String × String)) :
    (appendQuery path query).toList.count c =
      path.toList.count c + if c = '?' ∧ query ≠ [] then 1 else 0 := by
  by_cases hquery : query = []
  · simp [hquery]
  · rw [toList_appendQuery hquery, List.count_append, List.count_cons, count_queryChars hc]
    by_cases hmark : c = '?'
    · simp [hmark, hquery]
    · simp [hequals, hand, hmark, Ne.symm hmark]

/-- The address of a request is the server and the path of the request, in which the marks are those
of the template and the query's own: no slash comes from a value, there is no fragment and at most
one question mark, and the query has one pair for each name with a value. -/
theorem prepare_keeps_shape (hok : prepare method template given = .ok r) {c : Char}
    {rest : List Char} (htemplate : template.toList = '/' :: c :: rest) (hslash : c ≠ '/')
    (hbrace : c ≠ '{') (hquestion : '?' ∉ template.toList) (hhash : '#' ∉ template.toList)
    (hopen : ∀ name ∈ names template, '{' ∉ name.toList)
    (hclose : ∀ g ∈ given, g.isAt .path = true → '}' ∉ g.name.toList) (server : String) :
    (∃ base n, server.toList = base.toList ++ List.replicate n '/' ∧
      base.toList.getLast? ≠ some '/' ∧ url server r.path = base ++ r.path) ∧
    r.path.toList.count '/' = (outside template.toList).count '/' ∧
    '#' ∉ r.path.toList ∧ r.path.toList.count '?' ≤ 1 ∧
    (queryNames given ≠ [] → ∃ path query, r.path.toList = path ++ '?' :: query ∧
      query.count '=' = (queryNames given).length ∧
      query.count '&' + 1 = (queryNames given).length ∧ '/' ∉ query) := by
  have hplain := Plain.of_notMem hopen hclose
  have hpath := path_of_prepare hok
  refine ⟨?_, ?_, ?_, ?_, fun hnames => ?_⟩
  · obtain ⟨rest', hbegins⟩ := exists_toList_of_prepare hok hplain htemplate hbrace
    exact exists_base server hbegins hslash
  · rw [hpath, count_appendQuery (by decide) (by decide) (by decide),
      count_fillPath hplain (names_eq_nil_of_prepare hok)]
    simp
  · rw [← List.count_eq_zero, hpath, count_appendQuery (by decide) (by decide) (by decide),
      List.count_eq_zero.mpr (notMem_fillPath (by decide) hhash given)]
    simp
  · rw [hpath, count_appendQuery (by decide) (by decide) (by decide),
      List.count_eq_zero.mpr (questionMark_notMem_fillPath hquestion given)]
    split <;> omega
  · obtain ⟨query, hquery, hcounts⟩ := exists_query hnames (fillPath template given)
    exact ⟨_, query, hpath ▸ hquery, hcounts⟩

end Given

/-- A placeholder whose name holds a slash, and a brace that is never closed. -/
def slashedTemplate : String := "/x/\x7ba/b\x7d/\x7bc"

/-- Values that are made of the marks of an address. -/
def slashedGiven : List Given :=
  [⟨"a/b", .path, "../?#"⟩, ⟨"c", .path, "/"⟩, ⟨"q=", .query, "1&r=/#"⟩, ⟨"b", .body, "/"⟩,
    ⟨"p?", .query, "/"⟩, ⟨"q=", .query, "2/"⟩]

theorem prepare_keeps_shape_slashed :
    slashedTemplate.toList = '/' :: 'x' :: "/\x7ba/b\x7d/\x7bc".toList ∧ ∃ r,
      prepare "get" slashedTemplate slashedGiven = .ok r ∧
      (∃ base n, "http://h//".toList = base.toList ++ List.replicate n '/' ∧
        base.toList.getLast? ≠ some '/' ∧ url "http://h//" r.path = base ++ r.path) ∧
      r.path.toList.count '/' = (outside slashedTemplate.toList).count '/' ∧
      '#' ∉ r.path.toList ∧ r.path.toList.count '?' ≤ 1 ∧
      ∃ path query, r.path.toList = path ++ '?' :: query ∧
        query.count '=' = (queryNames slashedGiven).length ∧
        query.count '&' + 1 = (queryNames slashedGiven).length ∧ '/' ∉ query := by
  obtain ⟨r, hr⟩ : ∃ r, prepare "get" slashedTemplate slashedGiven = .ok r :=
    (exists_prepare_iff (by decide +kernel)).mpr (by decide +kernel)
  have htemplate : slashedTemplate.toList = '/' :: 'x' :: "/\x7ba/b\x7d/\x7bc".toList := by
    decide
  obtain ⟨haddress, hslashes, hhash, hquestion, hquery⟩ := prepare_keeps_shape hr htemplate
    (by decide) (by decide) (by decide) (by decide) (by decide +kernel) (by decide +kernel)
    "http://h//"
  exact ⟨htemplate, r, hr, haddress, hslashes, hhash, hquestion, hquery (by decide +kernel)⟩

example :
    (prepare "get" slashedTemplate slashedGiven).map (fun r => url "http://h//" r.path) =
      .ok "http://h/x/..%2F%3F%23/\x7bc?p%3F=%2F&q%3D=2%2F" := by
  decide +kernel

end ApiCommands.Request
