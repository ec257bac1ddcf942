import ApiCommands.Proofs.Compile.Sites
import ApiCommands.Proofs.Request.Path
import ApiCommands.Proofs.Surface.Collected

namespace ApiCommands.Surface

/-!
# Accepted command lines can be sent

A command line that is accepted gives every placeholder of its endpoint a value, since the
placeholders are parameters of the path, these are positional, and a positional argument is
required. So a request can be prepared from the collected values.
-/

open Text.Template (names closeBrace_notMem_of_mem_names)

section Values

variable {s : Scope} {n : Node} {e : Endpoint} {vs : Values}

theorem exists_rawOf_of_positional (hat : s.At n) (he : n.endpoint = some e) (hwf : e.WellFormed)
    (hholds : Holds s vs) (hcomplete : Complete s vs) {i : Input} (hi : i ∈ e.inputs)
    (hpositional : i.positional = true) : ∃ raw, rawOf vs i = some raw := by
  obtain ⟨v, hv, htype⟩ := exists_mem_of_isAsked hat he hwf hholds hcomplete hi (Or.inl hpositional)
  exact ⟨v.raw, rawOf_of_mem hholds.nodup hv htype⟩

end Values

theorem mem_names_path_iff {c : Command} {components : Schema.Components}
    {op : Document.Operation} (h : c.HasParamsOf components op) {name : String} :
    name ∈ names c.path ↔ ∃ i ∈ inputs c.params, i.location = .path ∧ i.name = name := by
  have hnames : (c.paramsAt .path).map Param.name = names c.path := by
    have hfst := congrArg (List.map Prod.fst) h.path
    simpa [Function.comp_def] using hfst
  rw [← hnames, List.mem_map]
  constructor
  · rintro ⟨p, hp, rfl⟩
    obtain ⟨hp, hpath⟩ := List.mem_filter.mp hp
    obtain ⟨i, hi, rfl⟩ := exists_mem_inputs hp
    exact ⟨i, hi, by simpa using hpath, rfl⟩
  · rintro ⟨i, hi, hpath, rfl⟩
    exact ⟨i.toParam, List.mem_filter.mpr ⟨toParam_mem_of_mem_inputs hi, by simp [hpath]⟩, rfl⟩

theorem isMethod_name (m : Document.Method) :
    Request.isMethod (Text.asciiUpper m.name) = true := by
  cases m <;> decide +kernel

theorem exists_prepare_of_covered {c : Command} {components : Schema.Components}
    {op : Document.Operation} (h : c.HasParamsOf components op) {m : Document.Method}
    (hmethod : c.method = m.name) (hbraces : ∀ name ∈ names c.path, '{' ∉ name.toList)
    {vs : Values} (hcovered : ∀ i ∈ inputs c.params, i.positional = true →
      ∃ raw, rawOf vs i = some raw) :
    ∃ r, Request.prepare c.method c.path ((inputs c.params).filterMap (givenOf vs)) = .ok r := by
  rw [Request.exists_prepare_iff (hmethod ▸ isMethod_name m)]
  refine (Request.Plain.of_notMem hbraces ?_).names_fillPath_eq_nil ?_
  · intro g hg hpath
    obtain ⟨i, hi, hgiven⟩ := List.mem_filterMap.mp hg
    obtain ⟨hname, hlocation, _⟩ := givenOf_eq_some_iff.mp hgiven
    have hipath : i.location = .path := by simpa [Given.isAt, ← hlocation] using hpath
    exact closeBrace_notMem_of_mem_names ((mem_names_path_iff h).mpr ⟨i, hi, hipath, hname.symm⟩)
  · intro name hname
    obtain ⟨i, hi, hpath, rfl⟩ := (mem_names_path_iff h).mp hname
    obtain ⟨raw, hraw⟩ := hcovered i hi (positional_of_mem_inputs hi hpath)
    rw [Request.HasPathValue]
    refine ⟨⟨i.name, i.location, raw⟩, List.mem_filterMap.mpr ⟨i, hi, ?_⟩, ?_, rfl⟩
    · rw [givenOf, hraw, Option.map_some]
    · simp [Given.isAt, hpath]

/-- What an accepted command line says can be sent, unless a value is not among the choices of its
input. -/
theorem prepare_of_accepted {bytes : List UInt8} {commands : List Command} {notices : List Notice}
    (hcompile : compile {} bytes = .ok (commands, notices)) {version : String}
    {words : List String} {m : Matches}
    (hparse : parse (build (Tree.ofCommands commands) version) words = .ok m) {e : Endpoint}
    (hinvoked : (findNode (Tree.ofCommands commands) m).bind Node.endpoint = some e)
    (hbraces : ∀ name ∈ names e.path, '{' ∉ name.toList) :
    (∃ i ∈ e.inputs, ∃ raw, ¬i.Allows raw ∧
      collect e m.lastValues = .error (.valueNotAllowed i.name raw i.choices)) ∨
    ∃ given r, collect e m.lastValues = .ok given ∧
      Request.prepare e.method e.path given = .ok r := by
  obtain ⟨n, hwalk, he⟩ := Option.bind_eq_some_iff.mp hinvoked
  have harranged := Tree.arrangement_ofCommands commands
  obtain ⟨s, hat, hholds, hcomplete⟩ :=
    (accepted_of_parse hparse).exists_scope (over_build _ version) hwalk
  obtain ⟨c, hc, rfl⟩ :=
    exists_command_of_endpoint harranged (mem_nodes_of_walk harranged hwalk) he
  obtain ⟨d, site, hsite, hcommand⟩ := Compile.exists_site_of_compile hcompile hc
  have hmethod : c.method = site.method.name := by
    rw [hcommand]
    rfl
  have hparams : c.HasParamsOf d.schemas site.operation := by
    rw [hcommand]
    exact Compile.hasParamsOf_commandAt (by decide) hsite
  have hwf := Endpoint.wellFormed_of_params hparams.nodup c.method c.path
  by_cases hall : ∀ i ∈ inputs c.params, ∀ raw, rawOf m.lastValues i = some raw → i.Allows raw
  · obtain ⟨r, hr⟩ := exists_prepare_of_covered hparams hmethod hbraces fun i hi hpositional =>
      exists_rawOf_of_positional hat he hwf hholds hcomplete hi hpositional
    exact Or.inr ⟨_, r, collectInputs_eq_ok hall, hr⟩
  · obtain ⟨i, hi, raw, _, hnot, herror⟩ := collectInputs_eq_error hall
    exact Or.inl ⟨i, hi, raw, hnot, herror⟩

/-- A document with a placeholder that is declared as a query parameter, too. -/
def placeholderDocument : List UInt8 := Text.Utf8.encode
  "\x7b\"paths\":\x7b\"/api/v1/x/\x7bid\x7d\":\x7b\"get\":\x7b\"parameters\":[
    \x7b\"name\":\"id\",\"in\":\"query\"\x7d]\x7d\x7d\x7d\x7d"

def placeholderCommand : Command :=
  { name := "x", parent := "", short := "", long := "", method := "GET"
    path := "/api/v1/x/\x7bid\x7d"
    params := [{ name := "id", required := true, location := .path }] }

theorem compile_placeholderDocument :
    compile {} placeholderDocument = .ok ([placeholderCommand],
      [.duplicateParam "GET" "/api/v1/x/\x7bid\x7d" "id", .compiled 1]) := by
  decide +kernel

/-- The value of a placeholder may look like a placeholder. -/
theorem prepare_of_accepted_braces :
    let e : Endpoint :=
      ⟨"GET", "/api/v1/x/\x7bid\x7d",
        [⟨{ name := "id", required := true, location := .path }, true⟩]⟩
    let values : Values := [("param__id", .text "\x7bid\x7d")]
    (∃ i ∈ e.inputs, ∃ raw, ¬i.Allows raw ∧
      collect e values = .error (.valueNotAllowed i.name raw i.choices)) ∨
    ∃ given r, collect e values = .ok given ∧ Request.prepare e.method e.path given = .ok r :=
  prepare_of_accepted compile_placeholderDocument
    (by decide +kernel :
      parse (build (Tree.ofCommands [placeholderCommand]) "1") ["x", "\x7bid\x7d"] =
        .ok ⟨[], [⟨"x", [("param__id", .text "\x7bid\x7d")]⟩]⟩)
    (by decide +kernel) (by decide +kernel)

end ApiCommands.Surface
