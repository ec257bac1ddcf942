import ApiCommands.Proofs.Surface.Named
import ApiCommands.Proofs.Surface.Reading

namespace ApiCommands

/-!
# Delivered values

A command line that is written for a node and assigned values leads to that node and says just
those values, in whatever order the flags come.
-/

namespace Surface

/-- Words lead to a node and say just the assigned values. -/
def Delivers (t : Tree) (version : String) (n : Node) (e : Endpoint)
    (value : String → Option ArgValue) (words : List String) : Prop :=
  ∃ m, parse (build t version) words = .ok m ∧ findNode t m = some n ∧
    collect e m.lastValues = .ok (assigned e value)

variable {s : Scope} {n : Node} {e : Endpoint} {value : String → Option ArgValue}

theorem finish_start (h : s.spec.subcommandWaives = true ∨ ∀ a ∈ s.args, a.required = false) :
    finish s {} true = .ok [] := by
  have hmissing : (!(true && s.spec.subcommandWaives) &&
      s.args.any fun a => a.required && !isGiven [] a) = false := by
    rcases h with hwaives | hoptional
    · simp [hwaives]
    · have hnone : s.args.any (fun a => a.required && !isGiven [] a) = false :=
        List.any_eq_false.mpr fun a ha => by simp [hoptional a ha]
      rw [hnone, Bool.and_false]
  have hsettle : ({} : Progress).settle = .ok {} := rfl
  rw [finish_of_settle hsettle, hmissing]
  rfl

theorem finish_start_of_at (hat : s.At n) (hne : n.children ≠ []) : finish s {} true = .ok [] := by
  refine finish_start ?_
  cases hendpoint : n.endpoint with
  | some e => exact Or.inl (by simp [hat.spec, subcommandWaives_ofNode, hendpoint, hne])
  | none =>
      refine Or.inr fun a ha => ?_
      rcases List.mem_append.mp ha with ha | ha
      · simp [hat.spec, args_ofNode, hendpoint] at ha
      · exact required_of_mem_globalArgs (hat.inherited a ha)

theorem parseLevel_name {ns : List Node} (hover : s.Over ns) (hn : n ∈ ns)
    (hfind : Tree.find? n.name ns = some n) (hhelp : Scope.helpName ∉ ns.map Node.name)
    (hnamed : (s.enter (ofNode n)).WellNamed) (hfinish : finish s {} true = .ok [])
    {words : List String} {below : Matches}
    (hbelow : parseLevel (s.enter (ofNode n)) {} words = .ok below) :
    parseLevel s {} (n.name :: words) =
      .ok ⟨[], ⟨n.name, below.values⟩ :: below.steps⟩ := by
  have hname : n.name ≠ Scope.helpName := fun heq => hhelp (heq ▸ List.mem_map_of_mem hn)
  have hmove : move s {} n.name = .enter (ofNode n) := by
    simp [move, Progress.waiting, subcommandWord, hname, hover.subcommand n.name n hfind,
      entered_eq_enter_iff, hnamed]
  rw [parseLevel, hmove]
  refine Except.bind_eq_ok_iff.mpr ⟨below, hbelow, ?_⟩
  refine Except.bind_eq_ok_iff.mpr ⟨[], hfinish, ?_⟩
  rw [name_ofNode]

/-- The names of a node lead to its level, and what is read there is the outcome. -/
theorem exists_matches_of_level {cs : List Command} {t : Tree}
    (harranged : Tree.Arrangement cs t)
    (hwf : ∀ n ∈ Tree.nodes t, ∀ e, n.endpoint = some e → e.WellFormed)
    {names : List String} (hpath : t.LeadsTo names n) (hnamed : t.WellNamedAlong names)
    (version : String) {words : List String} {vs : Values}
    (hwords : parseLevel (level n) {} words = .ok ⟨vs, []⟩) :
    ∃ m, parse (build t version) (names ++ words) = .ok m ∧ findNode t m = some n ∧
      m.lastValues = vs := by
  have hover := over_build t version
  have hroot := (wellNamed_build_iff harranged.nodup version).mpr hnamed.help
  have hfinish : finish ⟨build t version, []⟩ {} true = .ok [] :=
    finish_start (Or.inr fun a ha =>
      required_of_mem_globalArgs (by simpa [Scope.args, build] using ha))
  have hlast :=
    (wellNamed_level_iff_of_mem harranged hwf hpath.mem_nodes).mpr (hnamed.of_leadsTo hpath)
  cases hpath with
  | top hn =>
      have hfind := harranged.find n hn
      have hread := parseLevel_name hover hn hfind hnamed.help hlast hfinish hwords
      exact ⟨_, parse_eq_ok_iff.mpr ⟨hroot, hread⟩, hfind, rfl⟩
  | @child p _ hp hn =>
      have hfind := harranged.find p hp
      have hchild := harranged.findChild p hp n hn
      have htop : t.LeadsTo [p.name] p := .top hp
      have hp' : p.WellNamed := hnamed.nodes _ _ htop ⟨[n.name], rfl⟩
      have hfirst := (wellNamed_level_iff_of_mem harranged hwf htop.mem_nodes).mpr hp'
      have hat := at_level p
      have hfinish' := finish_start_of_at hat (List.ne_nil_of_mem hn)
      rw [← enter_level p] at hlast hwords
      have hbelow := parseLevel_name hat.over hn hchild hp'.help hlast hfinish' hwords
      have hread := parseLevel_name hover hp hfind hnamed.help hfirst hfinish hbelow
      refine ⟨_, parse_eq_ok_iff.mpr ⟨hroot, hread⟩, ?_, rfl⟩
      have hwalk := @walk_cons_of_find? t ⟨p.name, []⟩ p hfind [⟨n.name, vs⟩]
      rw [if_neg (List.cons_ne_nil _ _)] at hwalk
      exact hwalk.trans hchild

theorem complete_entries (hat : s.At n) (he : n.endpoint = some e) {text : String → String}
    (hspelled : Spelled e text value) {is : List Input} (hflags : ∀ i ∈ e.flags, i ∈ is)
    (hpositionals : ∀ i ∈ e.positionals, i ∈ is) :
    Complete s (entries value is) := by
  have hgiven {i : Input} (hi : i ∈ is) (hvalue : (value i.name).isSome = true) :
      argId i.name ∈ (entries value is).map Prod.fst := by
    obtain ⟨v, hv⟩ := Option.isSome_iff_exists.mp hvalue
    exact List.mem_map_of_mem (mem_entries.mpr ⟨i, hi, hv, rfl⟩)
  apply complete_of_given hat he
  · intro i hi
    exact hgiven (hpositionals i hi) (hspelled.positional i hi)
  · intro i hi hrequired htype
    exact hgiven (hflags i hi) (hspelled.required i hi hrequired htype)

theorem nodup_ids_order (hwf : e.WellFormed) {order : List Input} (horder : order.Perm e.flags) :
    ((order ++ e.positionals).map fun i => argId i.name).Nodup := by
  have hperm : (order ++ e.positionals).Perm e.inputs :=
    hwf.order ▸ (horder.append_right e.positionals).trans List.perm_append_comm
  exact (hperm.map fun i : Input => argId i.name).nodup_iff.mpr (nodup_ids_inputs hwf.nodup)

theorem parseLevel_spelled (hat : s.At n) (he : n.endpoint = some e) (hwf : e.WellFormed)
    {text : String → String} (hspelled : Spelled e text value) (hclear : Clear n e text value)
    {order : List Input} (horder : order.Perm e.flags) :
    parseLevel s {} (spelledWords e text value order ++
        "--" :: positionalWords value e.positionals) =
      .ok ⟨entries value (order ++ e.positionals), []⟩ := by
  have hnodup := nodup_ids_order hwf horder
  rw [List.map_append, List.nodup_append] at hnodup
  obtain ⟨hflags, hpositionals, hdisjoint⟩ := hnodup
  have hcomplete : Complete s (entries value (order ++ e.positionals)) :=
    complete_entries hat he hspelled
      (fun i hi => List.mem_append_left _ (horder.mem_iff.mpr hi))
      (fun i hi => List.mem_append_right _ hi)
  have hhelp : s.spec.helpWhenEmpty = false := by
    rw [hat.spec, helpWhenEmpty_ofNode, he]
    rfl
  rw [parseLevel_spelledWords hat he hwf hspelled hclear _ (fun i hi => horder.mem_iff.mp hi)
    hflags rfl rfl (by simp), List.nil_append,
    parseLevel_cons_of_goOn (move_dashes hat rfl rfl (hclear.child _ List.mem_cons_self)),
    entries_append]
  have hsplit : e.positionals = [] ++ e.positionals := rfl
  have htexts : ∀ i ∈ e.positionals, ∃ text, value i.name = some (.text text) := by
    intro i hi
    obtain ⟨hinput, hpositional⟩ := List.mem_filter.mp hi
    obtain ⟨v, hvalue⟩ := Option.isSome_iff_exists.mp (hspelled.positional i hi)
    have htype := (hspelled.spells i hinput v hvalue).type
    exact ⟨v.raw, text_of_positional htype hpositional ▸ hvalue⟩
  refine parseLevel_positionalWords hat he hwf hsplit htexts hpositionals
    (fun word _ => isPlaced_of_trailing s word) rfl rfl rfl (fun i hi hmem => ?_) hhelp
    (entries_append value order e.positionals ▸ hcomplete)
  have hid := (ids_entries_sublist value order).subset hmem
  exact hdisjoint _ hid _ (List.mem_map_of_mem hi) rfl

theorem rawOf_entries {is : List Input} (hnodup : (is.map fun i => argId i.name).Nodup)
    {i : Input} (hi : i ∈ is) (htype : ∀ v, value i.name = some v → v.type = wantedType i) :
    rawOf (entries value is) i = (value i.name).map ArgValue.raw := by
  rw [rawOf, lookup_entries hnodup hi]
  cases hvalue : value i.name with
  | none => rfl
  | some v => simp [ArgValue.rawAs, htype v hvalue]

/-- A command line of texts that spell values leads to its node and gives just these values. -/
theorem exists_matches_of_spelled {options : Compile.Options} {bytes : List UInt8}
    {commands : List Command} {notices : List Notice}
    (hcompile : compile options bytes = .ok (commands, notices)) (version : String)
    {names : List String} (hpath : (Tree.ofCommands commands).LeadsTo names n)
    (hnamed : (Tree.ofCommands commands).WellNamedAlong names) (he : n.endpoint = some e)
    {text : String → String} (hspelled : Spelled e text value) (hclear : Clear n e text value)
    {order : List Input} (horder : order.Perm e.flags) :
    ∃ m, parse (build (Tree.ofCommands commands) version)
        (spelledLine names e text value order) = .ok m ∧
      findNode (Tree.ofCommands commands) m = some n ∧
      ∀ i ∈ e.inputs, rawOf m.lastValues i = (value i.name).map ArgValue.raw := by
  have hwf := wellFormed_of_endpoint hcompile hpath.mem_nodes he
  obtain ⟨m, hparse, hfind, hlast⟩ := exists_matches_of_level
    (Tree.arrangement_ofCommands commands) (fun _ hn _ => wellFormed_of_endpoint hcompile hn) hpath
    hnamed version (parseLevel_spelled (at_level n) he hwf hspelled hclear horder)
  refine ⟨m, hparse, hfind, fun i hi => ?_⟩
  rw [hlast]
  refine rawOf_entries (nodup_ids_order hwf horder) ?_ fun v hv => (hspelled.spells i hi v hv).type
  rw [← hwf.order] at hi
  rcases List.mem_append.mp hi with hi | hi
  · exact List.mem_append_right _ hi
  · exact List.mem_append_left _ (horder.mem_iff.mpr hi)

theorem filterMap_givenOf {vs : Values}
    (hraw : ∀ i ∈ e.inputs, rawOf vs i = (value i.name).map ArgValue.raw) :
    e.inputs.filterMap (givenOf vs) = assigned e value := by
  refine List.filterMap_congr fun i hi => ?_
  rw [givenOf, hraw i hi, Option.map_map]
  rfl

theorem collect_assigned (hassigns : Assigns e value) {vs : Values}
    (hraw : ∀ i ∈ e.inputs, rawOf vs i = (value i.name).map ArgValue.raw) :
    collect e vs = .ok (assigned e value) := by
  have hallows : ∀ i ∈ e.inputs, ∀ raw, rawOf vs i = some raw → i.Allows raw := by
    intro i hi raw h
    obtain ⟨v, hv, rfl⟩ := Option.map_eq_some_iff.mp (hraw i hi ▸ h)
    exact (hassigns.suits i hi v hv).allows
  rw [collect, collectInputs_eq_ok hallows, filterMap_givenOf hraw]

/-- A command line that is written for assigned values delivers them, unless one of its words is
read in another way. -/
theorem delivers_commandLine {options : Compile.Options} {bytes : List UInt8}
    {commands : List Command} {notices : List Notice}
    (hcompile : compile options bytes = .ok (commands, notices)) (version : String)
    {names : List String} (hpath : (Tree.ofCommands commands).LeadsTo names n)
    (hnamed : (Tree.ofCommands commands).WellNamedAlong names) (he : n.endpoint = some e)
    (hassigns : Assigns e value) (hclear : Unambiguous n e value) {order : List Input}
    (horder : order.Perm e.flags) :
    Delivers (Tree.ofCommands commands) version n e value
      (commandLine names e value order) := by
  obtain ⟨m, hparse, hfind, hraw⟩ := exists_matches_of_spelled hcompile version hpath hnamed he
    hassigns.spelled hclear.clear horder
  rw [commandLine, flagWords_eq_spelledWords]
  exact ⟨m, hparse, hfind, collect_assigned hassigns hraw⟩

/-- A document with a placeholder, a flag of the name of a global one, and a whole number. -/
def lookupDocument : List UInt8 := Text.Utf8.encode
  "\x7b\"paths\":\x7b\"/api/v1/x/\x7bid\x7d\":\x7b\"get\":\x7b\"parameters\":[
    \x7b\"name\":\"output\",\"in\":\"query\"\x7d,
    \x7b\"name\":\"n\",\"in\":\"query\",\"schema\":
    \x7b\"type\":\"integer\"\x7d\x7d]\x7d\x7d\x7d\x7d"

def lookupCommand : Command :=
  { name := "x", parent := "", short := "", long := "", method := "GET"
    path := "/api/v1/x/\x7bid\x7d"
    params := [{ name := "id", required := true, location := .path },
      { name := "output", location := .query },
      { name := "n", type := .integer, location := .query }] }

theorem compile_lookupDocument :
    compile {} lookupDocument = .ok ([lookupCommand], [.compiled 1]) := by
  decide +kernel

def lookupEndpoint : Endpoint :=
  ⟨"GET", "/api/v1/x/\x7bid\x7d",
    [⟨{ name := "id", required := true, location := .path }, true⟩,
      ⟨{ name := "output", location := .query }, false⟩,
      ⟨{ name := "n", type := .integer, location := .query }, false⟩]⟩

def lookupValue (name : String) : Option ArgValue :=
  List.lookup name [("id", .text "--"), ("output", .text "-a=b"), ("n", .int64 (-5))]

theorem assigns_lookupValue : Assigns lookupEndpoint lookupValue where
  suits := by
    intro i hi v hv
    simp only [lookupEndpoint, List.mem_cons, List.not_mem_nil, or_false] at hi
    rcases hi with rfl | rfl | rfl <;> cases hv <;>
      exact ⟨by decide, by decide, by rintro k ⟨⟩ <;> exact ⟨by decide, by decide⟩,
        fun hne => (hne rfl).elim⟩
  positional := by decide +kernel
  required := by decide +kernel

theorem delivers_commandLine_dashes :
    ∃ n, Tree.LeadsTo (Tree.ofCommands [lookupCommand]) ["x"] n ∧
      Delivers (Tree.ofCommands [lookupCommand]) "1" n lookupEndpoint lookupValue
        ["x", "--n=-5", "--output-param=-a=b", "--", "--"] := by
  have hfound : (Tree.find? "x" (Tree.ofCommands [lookupCommand])).map
      (fun n => (n.endpoint, n.children.map Node.name)) = some (some lookupEndpoint, []) := by
    decide +kernel
  obtain ⟨n, hfind, hn⟩ := Option.map_eq_some_iff.mp hfound
  obtain ⟨he, hchildren⟩ := Prod.mk.inj hn
  have hpath := Tree.leadsTo_of_find? hfind
  have hnamed := Tree.wellNamedAlong_of_forall (t := Tree.ofCommands [lookupCommand])
    (by decide +kernel) (by decide +kernel) ["x"]
  have hclear : Unambiguous n lookupEndpoint lookupValue :=
    { long := by decide +kernel
      switch := by decide +kernel
      child := by simp [hchildren] }
  have hwords : commandLine ["x"] lookupEndpoint lookupValue lookupEndpoint.flags.reverse =
      ["x", "--n=-5", "--output-param=-a=b", "--", "--"] := by
    decide +kernel
  refine ⟨n, hpath, ?_⟩
  rw [← hwords]
  exact delivers_commandLine compile_lookupDocument "1" hpath hnamed he assigns_lookupValue hclear
    (List.reverse_perm _)

/-! ### Where a command line is read in another way -/

def Undelivered (t : Tree) (names : List String) (value : String → Option ArgValue) : Prop :=
  ∃ n e, Tree.LeadsTo t names n ∧ n.endpoint = some e ∧ Assigns e value ∧
    ¬Delivers t "1" n e value (commandLine names e value e.flags)

theorem not_delivers {t : Tree} {version : String} {words : List String}
    (he : n.endpoint = some e)
    (h : ((parse (build t version) words).toOption.bind fun m =>
      (findNode t m).bind Node.endpoint) ≠ some e) : ¬Delivers t version n e value words := by
  rintro ⟨m, hparse, hfind, _⟩
  refine h ?_
  rw [hparse]
  exact (congrArg (Option.bind · Node.endpoint) hfind).trans he

theorem undelivered_of_find? {t : Tree} {name : String}
    (hfind : (Tree.find? name t).bind Node.endpoint = some e) (hassigns : Assigns e value)
    (h : ((parse (build t "1") (commandLine [name] e value e.flags)).toOption.bind fun m =>
      (findNode t m).bind Node.endpoint) ≠ some e) : Undelivered t [name] value := by
  obtain ⟨n, hn, he⟩ := Option.bind_eq_some_iff.mp hfind
  exact ⟨n, e, Tree.leadsTo_of_find? hn, he, hassigns, not_delivers he h⟩

/-- A document with a flag with an equals sign in its name, a switch without a name, and a child
with the name of a flag's word. -/
def unluckyDocument : List UInt8 := Text.Utf8.encode
  "\x7b\"paths\":\x7b\"/api/v1/x\":\x7b\"post\":\x7b
    \"parameters\":[\x7b\"name\":\"a=b\",\"in\":\"query\"\x7d,
    \x7b\"name\":\"v\",\"in\":\"query\"\x7d],
    \"requestBody\":\x7b\"content\":\x7b\"application/json\":\x7b\"schema\":
    \x7b\"properties\":\x7b\"\":\x7b\"type\":\"boolean\"\x7d\x7d\x7d\x7d\x7d\x7d\x7d\x7d,
    \"/api/v1/x/--v=1\":\x7b\"get\":\x7b\x7d\x7d\x7d\x7d"

def unluckyCommands : List Command :=
  [{ name := "x", parent := "", short := "", long := "", method := "POST", path := "/api/v1/x"
     params := [{ name := "a=b", location := .query }, { name := "v", location := .query },
       { name := "", type := .boolean, location := .body }] },
   { name := "--v=1", parent := "x", short := "", long := "", method := "GET"
     path := "/api/v1/x/--v=1", params := [] }]

def unluckyEndpoint : Endpoint :=
  ⟨"POST", "/api/v1/x",
    [⟨{ name := "a=b", location := .query }, false⟩, ⟨{ name := "v", location := .query }, false⟩,
      ⟨{ name := "", type := .boolean, location := .body }, false⟩]⟩

theorem assigns_unlucky {name : String} {v : ArgValue}
    (h : (name, v) ∈ [("a=b", .text "1"), ("v", .text "1"), ("", ArgValue.on)]) :
    Assigns unluckyEndpoint fun other => if other = name then some v else none where
  suits := by
    intro i hi w hw
    simp only [unluckyEndpoint, List.mem_cons, List.not_mem_nil, or_false] at hi
    simp only [List.mem_cons, List.not_mem_nil, or_false, Prod.mk.injEq] at h
    obtain ⟨hname, rfl⟩ : i.name = name ∧ v = w := by simpa using hw
    rcases hi with rfl | rfl | rfl <;> rcases h with ⟨rfl, rfl⟩ | ⟨rfl, rfl⟩ | ⟨rfl, rfl⟩ <;>
      first
      | exact absurd hname (by decide)
      | exact ⟨by decide, by decide, by rintro k ⟨⟩, fun hne => (hne rfl).elim⟩
  positional := by simp [unluckyEndpoint, Endpoint.positionals]
  required := by simp [unluckyEndpoint, Endpoint.flags]

theorem assigns_none (hpositional : e.positionals = [])
    (hrequired : ∀ i ∈ e.flags, i.required = false) : Assigns e fun _ => none where
  suits := by simp
  positional := by simp [hpositional]
  required := fun i hi h => by simp [hrequired i hi] at h

/-- Each of the ways in which a word can be taken for another one, and the two in which the names of
a command do not go together. -/
theorem undelivered_unlucky :
    (compile {} unluckyDocument = .ok (unluckyCommands, [.compiled 2]) ∧
      Undelivered (Tree.ofCommands unluckyCommands) ["x"]
        (fun name => if name = "a=b" then some (.text "1") else none) ∧
      Undelivered (Tree.ofCommands unluckyCommands) ["x"]
        (fun name => if name = "" then some .on else none) ∧
      Undelivered (Tree.ofCommands unluckyCommands) ["x"]
        (fun name => if name = "v" then some (.text "1") else none)) ∧
    (compile {} helpDocument = .ok (helpCommands, [.compiled 2]) ∧
      Undelivered (Tree.ofCommands helpCommands) ["help"] (fun _ => none) ∧
      Undelivered (Tree.ofCommands helpCommands) ["x"] (fun _ => none)) ∧
    (compile {} dashDocument = .ok ([dashCommand], [.compiled 1]) ∧
      Undelivered (Tree.ofCommands [dashCommand]) ["x"] (fun _ => none)) := by
  refine ⟨⟨by decide +kernel, ?_, ?_, ?_⟩, ⟨compile_helpDocument, ?_, ?_⟩,
    ⟨compile_dashDocument, ?_⟩⟩
  · exact undelivered_of_find? (e := unluckyEndpoint) (by decide +kernel)
      (assigns_unlucky (by simp)) (by decide +kernel)
  · exact undelivered_of_find? (e := unluckyEndpoint) (by decide +kernel)
      (assigns_unlucky (by simp)) (by decide +kernel)
  · exact undelivered_of_find? (e := unluckyEndpoint) (by decide +kernel)
      (assigns_unlucky (by simp)) (by decide +kernel)
  · exact undelivered_of_find? (e := ⟨"GET", "/api/v1/help", []⟩) (by decide +kernel)
      (assigns_none rfl (by decide)) (by decide +kernel)
  · exact undelivered_of_find? (e := ⟨"GET", "/api/v1/x", []⟩) (by decide +kernel)
      (assigns_none rfl (by decide)) (by decide +kernel)
  · exact undelivered_of_find?
      (e := ⟨"GET", "/api/v1/x", [⟨{ name := "-q", location := .query }, false⟩]⟩)
      (by decide +kernel) (assigns_none rfl (by decide)) (by decide +kernel)

end Surface

end ApiCommands
