import ApiCommands.Proofs.Decimal.Reading
import ApiCommands.Proofs.Request.Carried
import ApiCommands.Proofs.Surface.Sendable
import ApiCommands.Proofs.Surface.WellFormed

namespace ApiCommands

/-!
# Required parameters are sent

A required parameter that is no switch has a value on every accepted command line, and so it is
among what is collected. The request carries that value unless it is empty, which the value of a
number never is.
-/

open Request (Carries)
open Text.Template (group groups names substitute_append_of_notMem substitute_cons_of_ne
  substitute_group_append)

theorem ArgValue.raw_ne_empty {v : ArgValue} (h : v.type = .int64 ∨ v.type = .binary64) :
    v.raw ≠ "" := by
  cases v with
  | int64 i =>
      intro hraw
      have hlist : Decimal.intText i = [] := by
        simpa [ArgValue.raw] using congrArg String.toList hraw
      exact Decimal.intText_ne_nil i hlist
  | binary64 x => exact Decimal.Binary64.text_ne_empty Decimal.plain x
  | on => simp [ArgValue.type] at h
  | text s => simp [ArgValue.type] at h
  | nat64 n => simp [ArgValue.type] at h

namespace Surface

theorem wantedType_of_number {i : Input} (hflag : i.positional = false)
    (htype : i.type = .integer ∨ i.type = .number) :
    wantedType i = .int64 ∨ wantedType i = .binary64 := by
  rcases htype with htype | htype <;> simp [wantedType, hflag, htype]

/-- The value of a required input is collected, and a number is not empty. -/
theorem exists_given_of_required {s : Scope} {n : Node} {e : Endpoint} {vs : Values}
    (hat : s.At n) (he : n.endpoint = some e) (hwf : e.WellFormed) (hholds : Holds s vs)
    (hcomplete : Complete s vs) {given : List Given} (hcollect : collect e vs = .ok given)
    {i : Input} (hi : i ∈ e.inputs) (hasked : i.IsAsked) :
    ∃ g ∈ given, g.name = i.name ∧ g.location = i.location ∧ i.Allows g.raw ∧
      (i.positional = false → i.type = .integer ∨ i.type = .number → g.raw ≠ "") := by
  obtain ⟨v, hv, hwanted⟩ := exists_mem_of_isAsked hat he hwf hholds hcomplete hi hasked
  have hraw := rawOf_of_mem hholds.nodup hv hwanted
  obtain ⟨hgiven, hallows⟩ := allows_of_collectInputs hcollect
  refine ⟨⟨i.name, i.location, v.raw⟩, ?_, rfl, rfl, hallows i hi _ hraw, ?_⟩
  · rw [hgiven]
    exact List.mem_filterMap.mpr ⟨i, hi, givenOf_eq_some_iff.mpr ⟨rfl, rfl, hraw⟩⟩
  · intro hflag htype
    apply ArgValue.raw_ne_empty
    rw [hwanted]
    exact wantedType_of_number hflag htype

theorem mem_groups_of_isAt {options : Compile.Options} {bytes : List UInt8}
    {commands : List Command} {notices : List Notice}
    (hcompile : compile options bytes = .ok (commands, notices)) {n : Node}
    (hn : n ∈ Tree.nodes (Tree.ofCommands commands)) {e : Endpoint} (he : n.endpoint = some e)
    (hbraces : ∀ name ∈ groups none e.path.toList, '{' ∉ name) {vs : Values} {g : Given}
    (hg : g ∈ e.inputs.filterMap (givenOf vs)) (hpath : g.isAt .path = true) :
    g.name.toList ∈ groups none e.path.toList := by
  obtain ⟨i, hi, hgiven⟩ := List.mem_filterMap.mp hg
  obtain ⟨hname, hlocation, _⟩ := givenOf_eq_some_iff.mp hgiven
  have hipath : i.location = .path := by simpa [Given.isAt, hlocation] using hpath
  obtain ⟨d, site, hsite, c, _, rfl, rfl⟩ := exists_site_of_endpoint hcompile hn he
  have hmem := Compile.name_mem_names_of_commandAt hsite hbraces (toParam_mem_of_mem_inputs hi)
    hipath
  rw [hname]
  exact (Text.Template.mem_names.mp hmem).1

/-- A required parameter that is no switch is given a value. If that is not empty, the prepared
request carries it. -/
theorem carries_of_accepted {options : Compile.Options} {bytes : List UInt8}
    {commands : List Command} {notices : List Notice}
    (hcompile : compile options bytes = .ok (commands, notices)) {version : String}
    {words : List String} {m : Matches}
    (hparse : parse (build (Tree.ofCommands commands) version) words = .ok m) {e : Endpoint}
    (hinvoked : (findNode (Tree.ofCommands commands) m).bind Node.endpoint = some e)
    {given : List Given} (hcollect : collect e m.lastValues = .ok given) {r : Prepared}
    (hprepare : Request.prepare e.method e.path given = .ok r) {i : Input} (hi : i ∈ e.inputs)
    (hrequired : i.required = true) (htype : i.type ≠ .boolean) :
    ∃ g ∈ given, g.name = i.name ∧ g.location = i.location ∧ i.Allows g.raw ∧
      (i.positional = false → i.type = .integer ∨ i.type = .number → g.raw ≠ "") ∧
      (g.raw ≠ "" → (i.location = .path → ∀ name ∈ names e.path, '{' ∉ name.toList) →
        Carries e.path given r g) := by
  obtain ⟨n, hwalk, he⟩ := Option.bind_eq_some_iff.mp hinvoked
  have hn := mem_nodes_of_walk (Tree.arrangement_ofCommands commands) hwalk
  have hwf := wellFormed_of_endpoint hcompile hn he
  obtain ⟨s, hat, hholds, hcomplete⟩ :=
    (accepted_of_parse hparse).exists_scope (over_build _ version) hwalk
  obtain ⟨g, hg, hname, hlocation, hallows, hnumber⟩ :=
    exists_given_of_required hat he hwf hholds hcomplete hcollect hi (Or.inr ⟨hrequired, htype⟩)
  obtain ⟨hgiven, _⟩ := allows_of_collectInputs hcollect
  have hnodup : (given.map Given.name).Nodup := by
    rw [hgiven]
    exact hwf.nodup.sublist (names_filterMap_givenOf _ _)
  refine ⟨g, hg, hname, hlocation, hallows, hnumber, fun hraw hbraces => ?_⟩
  cases hplace : g.location with
  | path =>
      have hclean := Text.Template.openBrace_notMem_groups (hbraces (hlocation ▸ hplace))
      refine Request.carries_path hprepare hnodup hclean (fun f hf hpath => ?_) hg hplace hraw
      exact mem_groups_of_isAt hcompile hn he hclean (hgiven ▸ hf) hpath
  | query => exact Request.carries_query hprepare hnodup hg hplace hraw
  | body => exact Request.carries_body hprepare hnodup hg hplace hraw

/-- A document with a required parameter at every place, and with a path in which the name of one
placeholder ends like the one before it. -/
def demandingDocument : List UInt8 := List.flatMap Text.Utf8.encode
  ["\x7b\"paths\":\x7b\"/api/v1/q\":\x7b\"get\":\x7b\"parameters\":[",
    "\x7b\"name\":\"kind\",\"in\":\"query\",\"required\":true\x7d]\x7d\x7d,",
    "\"/api/v1/b\":\x7b\"put\":\x7b\"requestBody\":\x7b\"content\":\x7b\"application/json\":",
    "\x7b\"schema\":\x7b\"properties\":\x7b\"s\":\x7b\"type\":\"string\"\x7d\x7d,",
    "\"required\":[\"s\"]\x7d\x7d\x7d\x7d\x7d\x7d,",
    "\"/api/v1/p/\x7bid\x7d\":\x7b\"get\":\x7b\x7d\x7d,",
    "\"/api/v1/w/\x7bb\x7d/\x7ba\x7bb\x7d\":\x7b\"get\":\x7b\x7d\x7d\x7d\x7d"]

def demandingCommands : List Command :=
  [{ name := "b", parent := "", short := "", long := "", method := "PUT", path := "/api/v1/b"
     params := [{ name := "s", required := true, location := .body }] },
   { name := "p", parent := "", short := "", long := "", method := "GET"
     path := "/api/v1/p/\x7bid\x7d"
     params := [{ name := "id", required := true, location := .path }] },
   { name := "q", parent := "", short := "", long := "", method := "GET", path := "/api/v1/q"
     params := [{ name := "kind", required := true, location := .query }] },
   { name := "w", parent := "", short := "", long := "", method := "GET"
     path := "/api/v1/w/\x7bb\x7d/\x7ba\x7bb\x7d"
     params := [{ name := "b", required := true, location := .path },
      { name := "a\x7bb", required := true, location := .path }] }]

theorem compile_demandingDocument :
    compile {} demandingDocument = .ok (demandingCommands, [.compiled 4]) := by
  decide +kernel

def demandingTree : Tree := Tree.ofCommands demandingCommands

theorem carries_of_accepted_demanding :
    let e : Endpoint :=
      ⟨"GET", "/api/v1/p/\x7bid\x7d",
        [⟨{ name := "id", required := true, location := .path }, true⟩]⟩
    let i : Input := ⟨{ name := "id", required := true, location := .path }, true⟩
    ∃ g ∈ [(⟨"id", .path, "7"⟩ : Given)], g.name = i.name ∧ g.location = i.location ∧
      i.Allows g.raw ∧
      (i.positional = false → i.type = .integer ∨ i.type = .number → g.raw ≠ "") ∧
      (g.raw ≠ "" → (i.location = .path → ∀ name ∈ names e.path, '{' ∉ name.toList) →
        Carries e.path [⟨"id", .path, "7"⟩] ⟨"GET", "/api/v1/p/7", none⟩ g) :=
  carries_of_accepted compile_demandingDocument
    (by decide +kernel : parse (build demandingTree "1") ["p", "7"] =
      .ok ⟨[], [⟨"p", [("param__id", .text "7")]⟩]⟩)
    (by decide +kernel) rfl rfl (List.mem_singleton_self _) rfl (by decide)

/-- Whether a command line is accepted and sent without the value of a required parameter. -/
def Loses (t : Tree) (words : List String) (name : String) : Prop :=
  ∃ (m : Matches) (e : Endpoint) (i : Input) (given : List Given) (r : Prepared),
    parse (build t "1") words = .ok m ∧ (findNode t m).bind Node.endpoint = some e ∧
    (i ∈ e.inputs ∧ i.name = name ∧ i.required = true ∧ i.type ≠ .boolean) ∧
    collect e m.lastValues = .ok given ∧ Request.prepare e.method e.path given = .ok r ∧
    ∀ g ∈ given, g.name = name → ¬Carries e.path given r g

theorem loses_query : Loses demandingTree ["q", "--kind="] "kind" := by
  refine ⟨⟨[], [⟨"q", [("param__kind", .text "")]⟩]⟩,
    ⟨"GET", "/api/v1/q", [⟨{ name := "kind", required := true, location := .query }, false⟩]⟩,
    ⟨{ name := "kind", required := true, location := .query }, false⟩, [⟨"kind", .query, ""⟩],
    ⟨"GET", "/api/v1/q", none⟩, by decide +kernel, by decide +kernel, by decide, rfl, rfl, ?_⟩
  intro g hg _
  obtain rfl : g = ⟨"kind", .query, ""⟩ := List.mem_singleton.mp hg
  rintro ⟨query, _, hpath⟩
  dsimp only at hpath
  have hmark : '?' ∈ "/api/v1/q".toList := by
    rw [hpath]
    simp
  revert hmark
  decide

theorem loses_body : Loses demandingTree ["b", ""] "s" := by
  refine ⟨⟨[], [⟨"b", [("param__s", .text "")]⟩]⟩,
    ⟨"PUT", "/api/v1/b", [⟨{ name := "s", required := true, location := .body }, true⟩]⟩,
    ⟨{ name := "s", required := true, location := .body }, true⟩, [⟨"s", .body, ""⟩],
    ⟨"PUT", "/api/v1/b", some (.object [])⟩, by decide +kernel, by decide +kernel, by decide, rfl,
    rfl, ?_⟩
  intro g hg _
  obtain rfl : g = ⟨"s", .body, ""⟩ := List.mem_singleton.mp hg
  rintro ⟨members, hmem, hbody⟩
  have hnone : members = [] := by simpa using hbody.symm
  simp [hnone] at hmem

theorem loses_path : Loses demandingTree ["p", ""] "id" := by
  refine ⟨⟨[], [⟨"p", [("param__id", .text "")]⟩]⟩,
    ⟨"GET", "/api/v1/p/\x7bid\x7d",
      [⟨{ name := "id", required := true, location := .path }, true⟩]⟩,
    ⟨{ name := "id", required := true, location := .path }, true⟩, [⟨"id", .path, ""⟩],
    ⟨"GET", "/api/v1/p/", none⟩, by decide +kernel, by decide +kernel, by decide, rfl, rfl, ?_⟩
  intro g hg _
  obtain rfl : g = ⟨"id", .path, ""⟩ := List.mem_singleton.mp hg
  rintro ⟨_, _, _, _, _, _, hfull⟩
  exact hfull rfl

/-- The first value is put in the place of both placeholders. -/
theorem loses_placeholder : Loses demandingTree ["w", "1", "2"] "a\x7bb" := by
  refine ⟨⟨[], [⟨"w", [("param__b", .text "1"), ("param__a\x7bb", .text "2")]⟩]⟩,
    ⟨"GET", "/api/v1/w/\x7bb\x7d/\x7ba\x7bb\x7d",
      [⟨{ name := "b", required := true, location := .path }, true⟩,
        ⟨{ name := "a\x7bb", required := true, location := .path }, true⟩]⟩,
    ⟨{ name := "a\x7bb", required := true, location := .path }, true⟩,
    [⟨"b", .path, "1"⟩, ⟨"a\x7bb", .path, "2"⟩], ⟨"GET", "/api/v1/w/1/\x7ba1", none⟩,
    by decide +kernel, by decide +kernel, by decide, rfl, rfl, ?_⟩
  intro g hg hname
  obtain rfl : g = ⟨"a\x7bb", .path, "2"⟩ := by
    rcases List.mem_cons.mp hg with rfl | hg
    · exact absurd hname (by decide)
    · exact List.mem_singleton.mp hg
  rintro ⟨value, rest, hpath, _, _, hvalue, _⟩
  dsimp only at hpath hvalue
  have htemplate : "/api/v1/w/\x7bb\x7d/\x7ba\x7bb\x7d".toList =
      "/api/v1/w/".toList ++ (group ['b'] ++ ('/' :: (group "a\x7bb".toList ++ []))) := by
    decide +kernel
  -- The second value is a digit that the path does not hold.
  have hdigit : '2' ∈ "/api/v1/w/1/\x7ba1".toList := by
    rw [hpath, htemplate, substitute_append_of_notMem (by decide),
      substitute_group_append (by decide), substitute_cons_of_ne (by decide),
      substitute_group_append (by decide), hvalue]
    simp [Text.percentChars, Text.percentChar, Text.isUnreserved]
  revert hdigit
  decide

theorem loses_demanding :
    compile {} demandingDocument = .ok (demandingCommands, [.compiled 4]) ∧
    Loses demandingTree ["q", "--kind="] "kind" ∧ Loses demandingTree ["b", ""] "s" ∧
    Loses demandingTree ["p", ""] "id" ∧ Loses demandingTree ["w", "1", "2"] "a\x7bb" :=
  ⟨compile_demandingDocument, loses_query, loses_body, loses_path, loses_placeholder⟩

end Surface

end ApiCommands
