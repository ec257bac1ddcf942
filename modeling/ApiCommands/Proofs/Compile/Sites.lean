import ApiCommands.Proofs.Compile.Params
import Mathlib.Data.List.Forall2

namespace ApiCommands

/-!
# Commands and the operations they come from

Every command comes from one operation of the document. Its parameters are told by that operation:
their names are distinct, the placeholders of the whole path come first, and a parameter is left
out exactly where its name is taken, which one notice reports.
-/

open Document (Operation Method PathItem)
open Schema (Components)
open Text.Template (firsts names)

namespace Compile

/-- An operation at the place where a document declares it. -/
structure Site where
  path : String
  method : Method
  operation : Operation

def sitesAt (options : Options) (path : String) (item : PathItem) : List Site :=
  if (relative? options.base path).isNone || options.excluded.contains path then []
  else item.map fun (m, op) => ⟨path, m, op⟩

/-- The operations that become commands, in the order of their commands. -/
def sites (options : Options) (d : Document) : List Site :=
  d.paths.flatMap fun (path, item) => sitesAt options path item

/-- The query parameters that an operation declares, with what it says of their being required. -/
def declaredQueries (op : Operation) : List (String × Bool) :=
  (op.parameters.filter fun x => x.place == "query" && x.name != "").map
    fun x => (x.name, x.required)

/-- The properties of the resolved JSON body, with what the body says of their being required. -/
def bodyMembers (components : Components) (op : Operation) : List (String × Bool) :=
  match op.body with
  | none => []
  | some schema =>
    match Schema.resolve components schema with
    | .error _ => []
    | .ok body => body.properties.map fun (name, _) => (name, body.required.contains name)

/-- The names of the query parameters and members of the body that are left out, each time. -/
def leftOut (components : Components) (s : Site) : List String :=
  repeats (names s.path)
    ((declaredQueries s.operation ++ bodyMembers components s.operation).map Prod.fst)

end Compile

namespace Command

open Compile

def paramsAt (c : Command) (l : Location) : List Param := c.params.filter (·.location == l)

/-- The parameters of a command are those that an operation tells. -/
structure HasParamsOf (c : Command) (components : Components) (op : Operation) : Prop where
  nodup : (c.params.map Param.name).Nodup
  order : c.params = c.paramsAt .path ++ c.paramsAt .query ++ c.paramsAt .body
  path : (c.paramsAt .path).map (fun p => (p.name, p.required)) =
    (names c.path).map fun name => (name, true)
  query : (c.paramsAt .query).map (fun p => (p.name, p.required)) =
    fresh Prod.fst (names c.path) (declaredQueries op)
  body : (c.paramsAt .body).map (fun p => (p.name, p.required)) =
    fresh Prod.fst (names c.path ++ (declaredQueries op).map Prod.fst) (bodyMembers components op)

end Command

namespace Compile

theorem map_queries (components : Components) (op : Operation) :
    (queries components op.parameters).map (fun p => (p.name, p.required)) =
      declaredQueries op := by
  rw [queries, List.map_map]
  rfl

theorem map_offers (components : Components) (op : Operation) :
    (offers components op).map (fun p => (p.name, p.required)) = bodyMembers components op := by
  rw [offers, bodyParams, bodyMembers]
  cases op.body with
  | none => rfl
  | some schema =>
      dsimp only
      cases Schema.resolve components schema with
      | error _ => rfl
      | ok body =>
          simp only [bodyOf, List.map_map]
          rfl

theorem filter_location_of_forall {l : Location} {ps : List Param}
    (h : ∀ p ∈ ps, p.location = l) (l' : Location) :
    ps.filter (·.location == l') = if l' = l then ps else [] := by
  by_cases hl : l' = l
  · rw [if_pos hl]
    exact List.filter_eq_self.mpr fun p hp => by simp [h p hp, hl]
  · rw [if_neg hl]
    exact List.filter_eq_nil_iff.mpr fun p hp => by simp [h p hp, Ne.symm hl]

theorem map_fresh_asked (taken : List String) (ps : List Param) :
    (fresh Param.name taken ps).map (fun p => (p.name, p.required)) =
      fresh Prod.fst taken (ps.map fun p => (p.name, p.required)) := by
  rw [fresh_map]

theorem paramsAt_of_parts {c : Command} {ps qs bs : List Param} (h : c.params = ps ++ qs ++ bs)
    (hps : ∀ p ∈ ps, p.location = .path) (hqs : ∀ p ∈ qs, p.location = .query)
    (hbs : ∀ p ∈ bs, p.location = .body) :
    c.paramsAt .path = ps ∧ c.paramsAt .query = qs ∧ c.paramsAt .body = bs := by
  simp [Command.paramsAt, h, filter_location_of_forall hps, filter_location_of_forall hqs,
    filter_location_of_forall hbs]

theorem params_command (options : Options) (components : Components) (path relative : String)
    (m : Method) (op : Operation) :
    ∃ paths, paths.map place = (names relative).map (fun n => (n, .path, true)) ∧
      (command options components path relative m op).1.params =
        paths ++ fresh Param.name (names relative) (queries components op.parameters) ++
          fresh Param.name
            (names relative ++ (queries components op.parameters).map Param.name)
            (offers components op) := by
  obtain ⟨paths, hpaths, hparams⟩ :=
    (extends_draft components m.name path relative op).parts.split
  refine ⟨paths, hpaths, hparams.trans ?_⟩
  rw [List.nil_append, List.map_nil, List.append_nil, fresh_append, List.append_assoc]

theorem name_mem_names_of_command (options : Options) (components : Components)
    (path relative : String) (m : Method) (op : Operation) {p : Param}
    (hp : p ∈ (command options components path relative m op).1.params)
    (hpath : p.location = .path) : p.name ∈ names relative := by
  obtain ⟨paths, hpaths, hparams⟩ := params_command options components path relative m op
  rw [hparams, List.mem_append, List.mem_append] at hp
  rcases hp with (hp | hp) | hp
  · have hplace := List.mem_map_of_mem (f := place) hp
    rw [hpaths] at hplace
    obtain ⟨n, hn, heq⟩ := List.mem_map.mp hplace
    have hname : n = p.name := congrArg Prod.fst heq
    exact hname ▸ hn
  · simp [location_of_mem_queries (mem_of_mem_fresh hp)] at hpath
  · simp [location_of_mem_offers (mem_of_mem_fresh hp)] at hpath

theorem nodup_params_command (options : Options) (components : Components)
    (path relative : String) (m : Method) (op : Operation) :
    ((command options components path relative m op).1.params.map Param.name).Nodup := by
  have hnames := (extends_draft components m.name path relative op).parts.names_eq
  rw [List.nil_append, List.map_nil, List.append_nil, map_fresh] at hnames
  change ((draft components m.name path relative op).params.map Param.name).Nodup
  rw [hnames]
  refine List.nodup_append.mpr
    ⟨Text.Template.nodup_names _, Text.Template.nodup_firsts _ _, ?_⟩
  rintro name hname other hother rfl
  exact (Text.Template.mem_firsts.mp hother).2 hname

theorem hasParamsOf_command (options : Options) (components : Components) {path relative : String}
    (hnames : names path = names relative) (m : Method) (op : Operation) :
    (command options components path relative m op).1.HasParamsOf components op := by
  obtain ⟨paths, hpaths, hparams⟩ := params_command options components path relative m op
  have hlocation : ∀ p ∈ paths, p.location = .path := by
    intro p hp
    obtain ⟨n, _, hn⟩ := List.mem_map.mp (hpaths ▸ List.mem_map_of_mem (f := place) hp)
    exact congrArg (fun t => t.2.1) hn.symm
  have hasked : paths.map (fun p => (p.name, p.required)) =
      (names relative).map fun n => (n, true) := by
    have h := congrArg (List.map fun t => (t.1, t.2.2)) hpaths
    rwa [List.map_map, List.map_map] at h
  have hdeclared : (queries components op.parameters).map Param.name =
      (declaredQueries op).map Prod.fst := by
    rw [← map_queries components op, List.map_map]
    rfl
  obtain ⟨hpath, hquery, hbody⟩ := paramsAt_of_parts hparams hlocation
    (fun p hp => location_of_mem_queries (mem_of_mem_fresh hp))
    (fun p hp => location_of_mem_offers (mem_of_mem_fresh hp))
  have hcpath : (command options components path relative m op).1.path = path := rfl
  refine
    { nodup := nodup_params_command options components path relative m op
      order := by rw [hpath, hquery, hbody, hparams]
      path := by rw [hpath, hasked, hcpath, hnames]
      query := ?_
      body := ?_ }
  · rw [hquery, map_fresh_asked, map_queries, hcpath, hnames]
  · rw [hbody, map_fresh_asked, map_offers, hcpath, hnames, hdeclared]

/-! ### From operations to the document -/

theorem relative?_eq_some_iff {base path relative : String} :
    relative? base path = some relative ↔ path = base ++ relative := by
  rw [relative?, Option.map_eq_some_iff]
  constructor
  · rintro ⟨rest, hrest, rfl⟩
    exact String.toList_injective (by simpa using Schema.dropMark_eq_some_iff.mp hrest)
  · rintro rfl
    exact ⟨relative.toList, Schema.dropMark_eq_some_iff.mpr (by simp), by simp⟩

theorem names_of_relative? {base path relative : String} (hbase : '{' ∉ base.toList)
    (h : relative? base path = some relative) : names path = names relative := by
  rw [relative?_eq_some_iff.mp h, Text.Template.names_append_of_notMem hbase]

def commandAt (options : Options) (components : Components) (s : Site) : Command × List Notice :=
  command options components s.path ((relative? options.base s.path).getD "") s.method s.operation

theorem ofPath_eq (options : Options) (components : Components) (path : String)
    (item : PathItem) :
    (ofPath options components path item).1 =
        (sitesAt options path item).map (fun s => (commandAt options components s).1) ∧
      duplicates (ofPath options components path item).2 = (sitesAt options path item).flatMap
        fun s => duplicates (commandAt options components s).2 := by
  rw [ofPath, sitesAt]
  cases hrelative : relative? options.base path with
  | none => exact ⟨rfl, rfl⟩
  | some relative =>
      by_cases hexcluded : path ∈ options.excluded
      · simp [hexcluded, duplicates, Notice.isDuplicate]
      · simp [hexcluded, commandAt, hrelative, duplicates, List.filter_flatMap, List.flatMap_map,
          Function.comp_def]

theorem ofDocument_eq (options : Options) (d : Document) :
    (ofDocument options d).1 =
        (sites options d).map (fun s => (commandAt options d.schemas s).1) ∧
      duplicates (ofDocument options d).2 = (sites options d).flatMap
        fun s => duplicates (commandAt options d.schemas s).2 := by
  refine ⟨?_, ?_⟩
  · rw [ofDocument, sites, List.map_flatMap, List.flatMap_map]
    exact List.flatMap_congr fun entry _ => (ofPath_eq options d.schemas entry.1 entry.2).1
  · have hcompiled (n : Nat) : duplicates [Notice.compiled n] = [] := rfl
    rw [ofDocument, duplicates_append, hcompiled, List.append_nil, duplicates, List.filter_flatMap,
      sites, List.flatMap_assoc, List.flatMap_map]
    exact List.flatMap_congr fun entry _ => (ofPath_eq options d.schemas entry.1 entry.2).2

theorem compile_eq_ok_iff {options : Options} {bytes : List UInt8} {commands : List Command}
    {notices : List Notice} :
    compile options bytes = .ok (commands, notices) ↔
      ∃ d, Document.parse bytes = .ok d ∧ ofDocument options d = (commands, notices) := by
  rw [compile]
  cases Document.parse bytes <;> simp

theorem compile_iff_of_parse (options : Options) {bytes bytes' : List UInt8}
    (h : ∀ d, Document.parse bytes = .ok d ↔ Document.parse bytes' = .ok d)
    (commands : List Command) (notices : List Notice) :
    compile options bytes = .ok (commands, notices) ↔
      compile options bytes' = .ok (commands, notices) := by
  simp only [compile_eq_ok_iff, h]

theorem relative?_isSome_of_mem_sites {options : Options} {d : Document} {s : Site}
    (h : s ∈ sites options d) : ∃ relative, relative? options.base s.path = some relative := by
  obtain ⟨⟨path, item⟩, _, hs⟩ := List.mem_flatMap.mp h
  dsimp only [sitesAt] at hs
  split at hs
  case isTrue => simp at hs
  case isFalse hsome =>
    obtain ⟨⟨m, op⟩, _, rfl⟩ := List.mem_map.mp hs
    simp only [Bool.or_eq_true, not_or, Bool.not_eq_true, Option.isNone_eq_false_iff] at hsome
    exact Option.isSome_iff_exists.mp hsome.1

theorem exists_site_of_compile {options : Options} {bytes : List UInt8} {commands : List Command}
    {notices : List Notice} (h : compile options bytes = .ok (commands, notices)) {c : Command}
    (hc : c ∈ commands) : ∃ d, ∃ s ∈ sites options d, c = (commandAt options d.schemas s).1 := by
  obtain ⟨d, _, hmade⟩ := compile_eq_ok_iff.mp h
  have hcommands : commands = (sites options d).map fun s => (commandAt options d.schemas s).1 := by
    rw [← (ofDocument_eq options d).1, hmade]
  rw [hcommands] at hc
  obtain ⟨s, hs, heq⟩ := List.mem_map.mp hc
  exact ⟨d, s, hs, heq.symm⟩

theorem duplicates_commandAt {options : Options} (hbase : '{' ∉ options.base.toList)
    {d : Document} {s : Site} (h : s ∈ sites options d) :
    duplicates (commandAt options d.schemas s).2 =
      (leftOut d.schemas s).map (.duplicateParam s.method.name s.path) := by
  obtain ⟨relative, hrelative⟩ := relative?_isSome_of_mem_sites h
  have hextends := extends_draft d.schemas s.method.name s.path relative s.operation
  have hnames : (queries d.schemas s.operation.parameters ++
      offers d.schemas s.operation).map Param.name =
        (declaredQueries s.operation ++ bodyMembers d.schemas s.operation).map Prod.fst := by
    rw [← map_queries d.schemas, ← map_offers, ← List.map_append, List.map_map]
    rfl
  have hdraft := hextends.duplicates
  rw [hnames, List.map_nil, List.append_nil, ← names_of_relative? hbase hrelative] at hdraft
  rw [commandAt, hrelative]
  exact hdraft

theorem hasParamsOf_commandAt {options : Options} (hbase : '{' ∉ options.base.toList)
    {d : Document} {s : Site} (h : s ∈ sites options d) :
    (commandAt options d.schemas s).1.HasParamsOf d.schemas s.operation := by
  obtain ⟨relative, hrelative⟩ := relative?_isSome_of_mem_sites h
  rw [commandAt, hrelative]
  exact hasParamsOf_command options d.schemas (names_of_relative? hbase hrelative) s.method
    s.operation

/-- A parameter of the path has a placeholder, whatever the base is, unless the name of one holds
an opening brace. -/
theorem name_mem_names_of_commandAt {options : Options} {d : Document} {s : Site}
    (h : s ∈ sites options d)
    (hbraces : ∀ name ∈ Text.Template.groups none s.path.toList, '{' ∉ name) {p : Param}
    (hp : p ∈ (commandAt options d.schemas s).1.params) (hpath : p.location = .path) :
    p.name ∈ names s.path := by
  obtain ⟨relative, hrelative⟩ := relative?_isSome_of_mem_sites h
  rw [commandAt, hrelative] at hp
  have hname := name_mem_names_of_command options d.schemas s.path relative s.method s.operation
    hp hpath
  rw [relative?_eq_some_iff.mp hrelative] at hbraces ⊢
  exact Text.Template.names_subset_append hbraces hname

/-- Compiling a document makes one command of each operation under the base, with the parameters
that the operation tells, and reports every parameter that is left out and nothing else. -/
theorem compile_params {options : Options} (hbase : '{' ∉ options.base.toList)
    {bytes : List UInt8} {commands : List Command} {notices : List Notice}
    (h : compile options bytes = .ok (commands, notices)) :
    ∃ d, Document.parse bytes = .ok d ∧
      List.Forall₂ (fun s c => c.path = s.path ∧ c.method = s.method.name ∧
        c.HasParamsOf d.schemas s.operation) (sites options d) commands ∧
      notices.filter Notice.isDuplicate = (sites options d).flatMap fun s =>
        (leftOut d.schemas s).map (.duplicateParam s.method.name s.path) := by
  obtain ⟨d, hparse, hmade⟩ := compile_eq_ok_iff.mp h
  obtain ⟨hcommands, hnotices⟩ := ofDocument_eq options d
  rw [hmade] at hcommands hnotices
  refine ⟨d, hparse, ?_, ?_⟩
  · change commands = _ at hcommands
    rw [hcommands, List.forall₂_map_right_iff, List.forall₂_same]
    exact fun s hs => ⟨rfl, rfl, hasParamsOf_commandAt hbase hs⟩
  · exact hnotices.trans (List.flatMap_congr fun s hs => duplicates_commandAt hbase hs)

/-- A document with a query parameter of the name of a placeholder and a member of the body of
the name of a query parameter. -/
def clashingDocument : List UInt8 := Text.Utf8.encode
  "\x7b\"paths\":\x7b\"/api/v1/x/\x7bid\x7d\":\x7b\"post\":\x7b\"parameters\":[
    \x7b\"name\":\"id\",\"in\":\"query\"\x7d,\x7b\"name\":\"a\",\"in\":\"query\"\x7d],
    \"requestBody\":\x7b\"content\":\x7b\"application/json\":\x7b\"schema\":
    \x7b\"properties\":\x7b\"a\":\x7b\x7d,\"b\":\x7b\x7d\x7d,\"required\":[\"b\"]\x7d\x7d\x7d\x7d
    \x7d\x7d\x7d\x7d"

def clashingCommand : Command :=
  { name := "x", parent := "", short := "", long := "", method := "POST"
    path := "/api/v1/x/\x7bid\x7d"
    params := [{ name := "id", required := true, location := .path },
      { name := "a", location := .query }, { name := "b", required := true, location := .body }] }

theorem compile_clashingDocument :
    compile {} clashingDocument = .ok ([clashingCommand],
      [.duplicateParam "POST" "/api/v1/x/\x7bid\x7d" "id",
        .duplicateParam "POST" "/api/v1/x/\x7bid\x7d" "a", .compiled 1]) := by
  decide +kernel

theorem compile_params_clashing :
    ∃ d, Document.parse clashingDocument = .ok d ∧
      List.Forall₂ (fun s c => c.path = s.path ∧ c.method = s.method.name ∧
        c.HasParamsOf d.schemas s.operation) (sites {} d) [clashingCommand] ∧
      [Notice.duplicateParam "POST" "/api/v1/x/\x7bid\x7d" "id",
        .duplicateParam "POST" "/api/v1/x/\x7bid\x7d" "a"] =
          (sites {} d).flatMap fun s =>
            (leftOut d.schemas s).map (.duplicateParam s.method.name s.path) :=
  compile_params (by decide) compile_clashingDocument

end Compile

end ApiCommands
