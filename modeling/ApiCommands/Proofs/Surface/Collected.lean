import ApiCommands.Command.Compile
import ApiCommands.Proofs.Surface.Collect
import ApiCommands.Proofs.Surface.Levels

namespace ApiCommands

/-!
# What is collected

The values of the command that is invoked are all collected, for each of its arguments belongs to
an input or is global. Values that stand before the name of that command belong to the commands
around it.
-/

/-- Whether the argument of an input cannot be left out. -/
def Input.IsAsked (i : Input) : Prop := i.positional = true ∨ i.required = true ∧ i.type ≠ .boolean

namespace Surface

theorem type_flagKind {i : Input} (h : i.positional = false) :
    (flagKind i).1.type = wantedType i := by
  rw [wantedType, h, flagKind]
  cases i.type
  case string => by_cases hchoices : i.choices.isEmpty = true <;> simp [hchoices, ValueKind.type]
  all_goals rfl

theorem wantedType_of_positional {i : Input} (h : i.positional = true) : wantedType i = .text := by
  rw [wantedType, if_pos h]

/-- An argument of an endpoint takes the values that its input wants. -/
theorem exists_input_of_mem_endpointArgs {e : Endpoint} {a : Arg} (h : a ∈ endpointArgs e) :
    ∃ i ∈ e.inputs, a.id = argId i.name ∧ a.kind.type = wantedType i := by
  rcases List.mem_append.mp h with h | h
  · obtain ⟨i, hi, j, rfl⟩ := exists_of_mem_positionalArgs h
    obtain ⟨hi, hpositional⟩ := List.mem_filter.mp hi
    exact ⟨i, hi, rfl, (wantedType_of_positional hpositional).symm⟩
  · obtain ⟨i, hi, long, rfl⟩ := exists_of_mem_flagArgs h
    obtain ⟨hi, hflag⟩ := List.mem_filter.mp hi
    exact ⟨i, hi, rfl, type_flagKind (by simpa using hflag)⟩

section Values

variable {s : Scope} {n : Node} {e : Endpoint} {vs : Values}

/-- A value that is not of a global argument is a value of an input. -/
theorem exists_input_of_mem (hat : s.At n) (he : n.endpoint = some e) (hholds : Holds s vs)
    {id : String} {v : ArgValue} (hv : (id, v) ∈ vs) (hglobal : id ∉ globalArgs.map Arg.id) :
    ∃ i ∈ e.inputs, argId i.name = id ∧ v.type = wantedType i := by
  obtain ⟨a, ha, rfl, text, hread⟩ := hholds.read id v hv
  have hown : a ∈ endpointArgs e := by
    rcases List.mem_append.mp ha with ha | ha
    · rwa [hat.spec, args_ofNode_of_endpoint he] at ha
    · exact (hglobal (List.mem_map_of_mem (hat.inherited a ha))).elim
  obtain ⟨i, hi, hid, htype⟩ := exists_input_of_mem_endpointArgs hown
  exact ⟨i, hi, hid.symm, (ValueKind.type_read hread).trans htype⟩

/-- A value under the id of an input is of the type that the input wants. -/
theorem type_of_mem (hat : s.At n) (he : n.endpoint = some e)
    (hnames : (e.inputs.map fun i => i.name).Nodup) (hholds : Holds s vs) {i : Input}
    (hi : i ∈ e.inputs) {v : ArgValue} (hv : (argId i.name, v) ∈ vs) : v.type = wantedType i := by
  have hglobal : argId i.name ∉ globalArgs.map Arg.id := by
    intro hmem
    obtain ⟨b, hb, heq⟩ := List.mem_map.mp hmem
    exact argId_ne_of_mem_globalArgs hb i.name heq
  -- The value is of some input, and ids tell inputs apart.
  obtain ⟨j, hj, hname, htype⟩ := exists_input_of_mem hat he hholds hv hglobal
  obtain rfl : j = i := List.inj_on_of_nodup_map hnames hj hi (argId_injective hname)
  exact htype

theorem rawOf_of_mem (hnodup : (vs.map Prod.fst).Nodup) {i : Input} {v : ArgValue}
    (hv : (argId i.name, v) ∈ vs) (htype : v.type = wantedType i) : rawOf vs i = some v.raw := by
  rw [rawOf, lookup_of_mem hnodup hv, Option.bind_some, ArgValue.rawAs, if_pos htype]

theorem exists_required_of_isAsked {i : Input} (hi : i ∈ e.inputs) (hasked : i.IsAsked) :
    ∃ a ∈ endpointArgs e, a.id = argId i.name ∧ a.required = true := by
  by_cases hpositional : i.positional = true
  · have hmem : i ∈ e.positionals := List.mem_filter.mpr ⟨hi, hpositional⟩
    obtain ⟨j, hj⟩ := exists_mem_positionalArgs hmem 1
    exact ⟨_, List.mem_append_left _ hj, rfl, rfl⟩
  · have hmem : i ∈ e.flags := List.mem_filter.mpr ⟨hi, by simpa using hpositional⟩
    obtain ⟨hrequired, htype⟩ := hasked.resolve_left hpositional
    obtain ⟨_, hown⟩ := exists_mem_flagArgs hmem (ownNames e)
    exact ⟨_, List.mem_append_right _ hown, rfl, by simp [flagArg, hrequired, htype]⟩

/-- What cannot be left out has a value. -/
theorem exists_mem_of_isAsked (hat : s.At n) (he : n.endpoint = some e) (hwf : e.WellFormed)
    (hholds : Holds s vs) (hcomplete : Complete s vs) {i : Input} (hi : i ∈ e.inputs)
    (hasked : i.IsAsked) : ∃ v, (argId i.name, v) ∈ vs ∧ v.type = wantedType i := by
  obtain ⟨a, ha, hid, hrequired⟩ := exists_required_of_isAsked hi hasked
  have hgiven := hcomplete.2 a (mem_args_of_mem_endpointArgs hat he ha) hrequired
  obtain ⟨⟨id, v⟩, hv, heq⟩ := List.any_eq_true.mp hgiven
  obtain rfl : id = argId i.name := (eq_of_beq heq).trans hid
  exact ⟨v, hv, type_of_mem hat he hwf.nodup hholds hi hv⟩

end Values

/-- Either a value is refused, or all values but those of global arguments are collected. -/
def Collects (e : Endpoint) (values typed : Values) : Prop :=
  (∃ i ∈ e.inputs, ∃ raw, rawOf values i = some raw ∧ ¬i.Allows raw ∧
    collect e values = .error (.valueNotAllowed i.name raw i.choices)) ∨
  ∃ given, collect e values = .ok given ∧
    ∀ id v, (id, v) ∈ typed → id ∉ globalArgs.map Arg.id →
      ∃ g ∈ given, argId g.name = id ∧ g.raw = v.raw

theorem collects_of_holds {s : Scope} {n : Node} {e : Endpoint} {vs : Values} (hat : s.At n)
    (he : n.endpoint = some e) (hholds : Holds s vs) : Collects e vs vs := by
  by_cases hall : ∀ i ∈ e.inputs, ∀ raw, rawOf vs i = some raw → i.Allows raw
  · refine Or.inr ⟨_, collectInputs_eq_ok hall, ?_⟩
    intro id v hv hglobal
    obtain ⟨i, hi, rfl, htype⟩ := exists_input_of_mem hat he hholds hv hglobal
    have hraw := rawOf_of_mem hholds.nodup hv htype
    have hgiven : givenOf vs i = some ⟨i.name, i.location, v.raw⟩ := by
      rw [givenOf, hraw, Option.map_some]
    exact ⟨_, List.mem_filterMap.mpr ⟨i, hi, hgiven⟩, rfl, rfl⟩
  · exact Or.inl (collectInputs_eq_error hall)

/-- The words after the name of the invoked command are read as values, none of them is passed
over, and all values are collected unless one of them is refused. -/
theorem collects_of_accepted {t : Tree} {version : String} {words : List String} {m : Matches}
    (hparse : parse (build t version) words = .ok m) {n : Node} (hnode : findNode t m = some n)
    {e : Endpoint} (he : n.endpoint = some e) :
    ∃ (s : Scope) (outer own : List String), s.At n ∧ words = outer ++ n.name :: own ∧
      Gives s own m.lastValues ∧ Collects e m.lastValues m.lastValues := by
  obtain ⟨s, outer, own, hat, hwords, hgives, _⟩ :=
    (accepted_of_parse hparse).exists_level (over_build t version) hnode
  exact ⟨s, outer, own, hat, hwords, hgives, collects_of_holds hat he hgives.holds⟩

/-- A document in which one command is the parent of another. -/
def nestedDocument : List UInt8 := List.flatMap Text.Utf8.encode
  ["\x7b\"paths\":\x7b\"/api/v1/a\":\x7b\"get\":\x7b\"parameters\":[",
    "\x7b\"name\":\"v\",\"in\":\"query\"\x7d]\x7d\x7d,\"/api/v1/a/b\":\x7b\"get\":\x7b\x7d\x7d\x7d\x7d"]

def nestedParent : Command :=
  { name := "a", parent := "", short := "", long := "", method := "GET", path := "/api/v1/a"
    params := [{ name := "v", location := .query }] }

def nestedChild : Command :=
  { name := "b", parent := "a", short := "", long := "", method := "GET", path := "/api/v1/a/b"
    params := [] }

theorem compile_nestedDocument :
    compile {} nestedDocument = .ok ([nestedParent, nestedChild], [.compiled 2]) := by
  decide +kernel

def nestedTree : Tree := Tree.ofCommands [nestedParent, nestedChild]

theorem collects_of_accepted_nested :
    ∃ (s : Scope) (outer own : List String),
      s.At { Node.ofCommand "a" nestedParent with children := [Node.ofCommand "b" nestedChild] } ∧
      ["a", "--v=1"] = outer ++ "a" :: own ∧ Gives s own [("param__v", .text "1")] ∧
      Collects ⟨"GET", "/api/v1/a", inputs nestedParent.params⟩ [("param__v", .text "1")]
        [("param__v", .text "1")] :=
  collects_of_accepted
    (by decide +kernel : parse (build nestedTree "1") ["a", "--v=1"] =
      .ok ⟨[], [⟨"a", [("param__v", .text "1")]⟩]⟩)
    rfl rfl

/-- A value before the name of a child is accepted, and nothing is made of it. -/
theorem not_collects_nested :
    compile {} nestedDocument = .ok ([nestedParent, nestedChild], [.compiled 2]) ∧
    ∃ (m : Matches) (n : Node) (e : Endpoint),
      parse (build nestedTree "1") ["a", "--v=1", "b"] = .ok m ∧
      findNode nestedTree m = some n ∧ n.endpoint = some e ∧
      ¬Collects e m.lastValues (m.values ++ m.steps.flatMap Step.values) := by
  refine ⟨compile_nestedDocument, ⟨[], [⟨"a", [("param__v", .text "1")]⟩, ⟨"b", []⟩]⟩,
    Node.ofCommand "b" nestedChild, ⟨"GET", "/api/v1/a/b", []⟩, by decide +kernel, rfl, rfl, ?_⟩
  rintro (⟨i, hi, _⟩ | ⟨given, hcollect, hall⟩)
  · simp at hi
  · have hnone : given = [] := by
      cases hcollect
      rfl
    obtain ⟨g, hg, _⟩ := hall "param__v" (.text "1") (by simp) (by decide +kernel)
    simp [hnone] at hg

end Surface

end ApiCommands
