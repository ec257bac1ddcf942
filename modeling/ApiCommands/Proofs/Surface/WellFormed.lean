import ApiCommands.Proofs.Compile.Sites
import ApiCommands.Proofs.Surface.Levels

namespace ApiCommands.Surface

/-!
# Well-formed command lines

The command line of a compiled document has distinct names on every level, and the built-in
commands just where no node takes their place. The command of an endpoint has one argument for
every input: the positional ones are numbered without gaps, and every flag has a long name of its
own, which is the name of its input unless a global flag has that name.
-/

/-- A flag for an input. Only the name of a global flag is not kept, and only a switch is never
required. -/
structure IsFlagOf (i : Input) (a : Arg) : Prop where
  id : a.id = argId i.name
  long : ∃ long, a.long = some long ∧ long ∉ reservedNames ∧
    (i.name ∉ reservedNames → long = i.name)
  required : a.required = true ↔ i.required = true ∧ i.type ≠ .boolean

theorem isFlagOf_flagArg (taken : List String) (i : Input) :
    IsFlagOf i (flagArg (longName taken i.name).1 i) where
  id := rfl
  long := by
    refine ⟨_, rfl, longName_notMem_reservedNames taken i.name, fun hown => ?_⟩
    rw [longName_of_notMem hown]
  required := by simp [flagArg]

/-- The names that are taken change from flag to flag; what holds of each flag does not. -/
theorem forall₂_flagArgs (taken : List String) (is : List Input) :
    List.Forall₂ IsFlagOf is (flagArgs taken is) := by
  induction is generalizing taken with
  | nil => exact .nil
  | cons i is ih => exact .cons (isFlagOf_flagArg taken i) (ih (longName taken i.name).2)

theorem filter_not_isPositional_endpointArgs (e : Endpoint) :
    (endpointArgs e).filter (fun a => !Spec.isPositional a) = flagArgs (ownNames e) e.flags := by
  have hpositional : (positionalArgs 1 e.positionals).filter (fun a => !Spec.isPositional a) =
      [] := by
    refine List.filter_eq_nil_iff.mpr fun a ha => ?_
    obtain ⟨i, _, k, rfl⟩ := exists_of_mem_positionalArgs ha
    simp [Spec.isPositional, positionalArg]
  have hflags : (flagArgs (ownNames e) e.flags).filter (fun a => !Spec.isPositional a) =
      flagArgs (ownNames e) e.flags := by
    refine List.filter_eq_self.mpr fun a ha => ?_
    obtain ⟨i, _, long, rfl⟩ := exists_of_mem_flagArgs ha
    rfl
  rw [endpointArgs, List.filter_append, hpositional, hflags, List.nil_append]

/-- Arguments that fit an endpoint, one for every input. -/
structure Fits (e : Endpoint) (args : List Arg) : Prop where
  ids : args.map Arg.id = e.inputs.map fun i => argId i.name
  nodup : (args.map Arg.id).Nodup
  notGlobal : ∀ a ∈ args, ∀ g ∈ globalArgs, a.id ≠ g.id
  positionals : (args.filter Spec.isPositional).map (fun a => (a.id, a.index, a.required)) =
    (e.positionals.zipIdx 1).map fun entry => (argId entry.1.name, some entry.2, true)
  flags : List.Forall₂ IsFlagOf e.flags (args.filter fun a => !Spec.isPositional a)
  longs : (args.filterMap Arg.long).Nodup

theorem map_positionalArgs (k : Nat) (is : List Input) :
    (positionalArgs k is).map (fun a => (a.id, a.index, a.required)) =
      (is.zipIdx k).map fun entry => (argId entry.1.name, some entry.2, true) := by
  induction is generalizing k with
  | nil => rfl
  | cons i is ih =>
      rw [positionalArgs, List.map_cons, ih, List.zipIdx_cons, List.map_cons]
      rfl

theorem filterMap_long_positionalArgs (k : Nat) (is : List Input) :
    (positionalArgs k is).filterMap Arg.long = [] := by
  refine List.filterMap_eq_nil_iff.mpr fun a ha => ?_
  obtain ⟨i, _, j, rfl⟩ := exists_of_mem_positionalArgs ha
  rfl

theorem nodup_filterMap_long {args : List Arg} (h : (args.map Arg.long).Nodup) :
    (args.filterMap Arg.long).Nodup := by
  have hsame : ∀ a b : Option String, ∀ long, long ∈ id a → long ∈ id b → a = b := by
    intro a b long ha hb
    exact (Option.mem_def.mp ha).trans (Option.mem_def.mp hb).symm
  have hlongs := h.filterMap hsame
  rwa [List.filterMap_map] at hlongs

theorem fits_endpointArgs {e : Endpoint} (h : e.WellFormed) : Fits e (endpointArgs e) where
  ids := by rw [map_id_endpointArgs, h.order]
  nodup := nodup_ids_endpointArgs h.nodup
  notGlobal := by
    intro a ha g hg heq
    obtain ⟨i, _, hi⟩ : ∃ i ∈ e.positionals ++ e.flags, argId i.name = a.id :=
      List.mem_map.mp (map_id_endpointArgs e ▸ List.mem_map_of_mem ha)
    exact argId_ne_of_mem_globalArgs hg i.name (heq.symm.trans hi.symm)
  positionals := by
    rw [filter_isPositional_endpointArgs]
    exact map_positionalArgs 1 e.positionals
  flags := by
    rw [filter_not_isPositional_endpointArgs]
    exact forall₂_flagArgs (ownNames e) e.flags
  longs := by
    rw [endpointArgs, List.filterMap_append, filterMap_long_positionalArgs, List.nil_append]
    exact nodup_filterMap_long (nodup_longs_endpoint h)

theorem ofNodes_eq_map (ns : List Node) : ofNodes ns = ns.map ofNode := by
  induction ns with
  | nil => rfl
  | cons n ns ih => rw [ofNodes, ih, List.map_cons]

theorem map_name_ofNodes (ns : List Node) : (ofNodes ns).map Spec.name = ns.map Node.name := by
  rw [ofNodes_eq_map, List.map_map]
  exact List.map_congr_left fun n _ => name_ofNode n

def builtIns : List Spec := [treeSpec, completionSpec]

/-- The built-in commands whose names are free in a tree. -/
def freeBuiltIns (t : Tree) : List Spec := builtIns.filter fun b => b.name ∉ t.map Node.name

theorem unlessNode_eq (t : Tree) (c : Spec) :
    unlessNode t c = [c].filter fun b => b.name ∉ t.map Node.name := by
  have hfind : (Tree.find? c.name t).isNone = true ↔ c.name ∉ t.map Node.name := by
    simp [Tree.find?]
  by_cases h : c.name ∈ t.map Node.name
  · rw [unlessNode, if_neg (fun hnone => hfind.mp hnone h), List.filter_cons_of_neg (by simpa using h)]
    rfl
  · rw [unlessNode, if_pos (hfind.mpr h), List.filter_cons_of_pos (by simpa using h)]
    rfl

theorem subcommands_build (t : Tree) (version : String) :
    (build t version).subcommands = t.map ofNode ++ freeBuiltIns t := by
  have hbuiltIns : freeBuiltIns t = unlessNode t treeSpec ++ unlessNode t completionSpec := by
    rw [unlessNode_eq, unlessNode_eq, ← List.filter_append]
    rfl
  rw [hbuiltIns, ← ofNodes_eq_map, ← List.append_assoc]
  rfl

/-- A built-in command is there only where no node has its name. -/
theorem nodup_names_build {t : Tree} (h : (t.map Node.name).Nodup) (version : String) :
    ((build t version).subcommands.map Spec.name).Nodup := by
  rw [subcommands_build, List.map_append, ← ofNodes_eq_map, map_name_ofNodes]
  apply List.nodup_append.mpr
  refine ⟨h, ?_, ?_⟩
  · have hbuiltIns : (builtIns.map Spec.name).Nodup := by decide
    exact hbuiltIns.sublist (List.filter_sublist.map _)
  · rintro name hname other hother rfl
    obtain ⟨b, hb, rfl⟩ := List.mem_map.mp hother
    have hfree := (List.mem_filter.mp hb).2
    exact of_decide_eq_true hfree hname

/-- The command of a node: its subcommands are those of its children, and its arguments fit the
endpoint, whose inputs come from a command. -/
structure Serves (commands : List Command) (n : Node) (c : Spec) : Prop where
  name : c.name = n.name
  subcommands : c.subcommands = n.children.map ofNode
  siblings : (c.subcommands.map Spec.name).Nodup
  grouping : n.endpoint = none → c.subcommands ≠ []
  endpoint : ∀ e, n.endpoint = some e → Fits e c.args ∧
    ∃ d ∈ commands, e.inputs = inputs d.params ∧
      e.positionals.map Input.toParam = Param.positionals d.params ∧
      e.flags.map Input.toParam = Param.flags d.params

structure WellFormed (commands : List Command) (t : Tree) (c : Spec) : Prop where
  subcommands : c.subcommands = t.map ofNode ++ freeBuiltIns t
  siblings : (c.subcommands.map Spec.name).Nodup
  nodes : ∀ n ∈ Tree.nodes t, Serves commands n (ofNode n)

theorem exists_site_of_endpoint {options : Compile.Options} {bytes : List UInt8}
    {commands : List Command} {notices : List Notice}
    (hcompile : compile options bytes = .ok (commands, notices)) {n : Node}
    (hn : n ∈ Tree.nodes (Tree.ofCommands commands)) {e : Endpoint} (he : n.endpoint = some e) :
    ∃ d, ∃ site ∈ Compile.sites options d, ∃ c ∈ commands,
      c = (Compile.commandAt options d.schemas site).1 ∧
        e = ⟨c.method, c.path, inputs c.params⟩ := by
  obtain ⟨c, hc, rfl⟩ := exists_command_of_endpoint (Tree.arrangement_ofCommands commands) hn he
  obtain ⟨d, site, hsite, hcommand⟩ := Compile.exists_site_of_compile hcompile hc
  exact ⟨d, site, hsite, c, hc, hcommand, rfl⟩

theorem wellFormed_of_endpoint {options : Compile.Options} {bytes : List UInt8}
    {commands : List Command} {notices : List Notice}
    (hcompile : compile options bytes = .ok (commands, notices)) {n : Node}
    (hn : n ∈ Tree.nodes (Tree.ofCommands commands)) {e : Endpoint} (he : n.endpoint = some e) :
    e.WellFormed := by
  obtain ⟨d, site, _, c, _, rfl, rfl⟩ := exists_site_of_endpoint hcompile hn he
  exact Endpoint.wellFormed_of_params (Compile.nodup_params_command ..) _ _

theorem serves_ofNode {options : Compile.Options} {bytes : List UInt8} {commands : List Command}
    {notices : List Notice} (hcompile : compile options bytes = .ok (commands, notices)) {n : Node}
    (hn : n ∈ Tree.nodes (Tree.ofCommands commands)) : Serves commands n (ofNode n) where
  name := name_ofNode n
  subcommands := by rw [subcommands_ofNode, ofNodes_eq_map]
  siblings := by
    rw [subcommands_ofNode, map_name_ofNodes]
    exact (Tree.arrangement_ofCommands commands).nodup_children hn
  grouping := by
    intro hnone hempty
    have hgrouping : n.isGrouping = true := by rw [Node.isGrouping, hnone, Option.isNone_none]
    have hchildren := (Tree.arrangement_ofCommands commands).children_ne_nil hn hgrouping
    rw [subcommands_ofNode, ofNodes_eq_map, List.map_eq_nil_iff] at hempty
    exact hchildren hempty
  endpoint := by
    intro e he
    have hwf := wellFormed_of_endpoint hcompile hn he
    obtain ⟨_, _, _, c, hc, _, rfl⟩ := exists_site_of_endpoint hcompile hn he
    refine ⟨args_ofNode_of_endpoint he ▸ fits_endpointArgs hwf, c, hc, rfl, ?_, ?_⟩
    · rw [positionals_eq_of_inputs rfl, List.map_map]
      exact List.map_id _
    · rw [flags_eq_of_inputs rfl, List.map_map]
      exact List.map_id _

/-- The command line of a compiled document is well formed, whatever the version is. -/
theorem wellFormed_build {options : Compile.Options} {bytes : List UInt8}
    {commands : List Command} {notices : List Notice}
    (hcompile : compile options bytes = .ok (commands, notices)) (version : String) :
    WellFormed commands (Tree.ofCommands commands)
      (build (Tree.ofCommands commands) version) where
  subcommands := subcommands_build _ version
  siblings := nodup_names_build (Tree.arrangement_ofCommands commands).nodup version
  nodes := fun _ hn => serves_ofNode hcompile hn

/-- A document in whose parameters the names of global flags and the names that flags take instead
meet, and whose nodes take the place of a built-in command and group another node. -/
def crowdedDocument : List UInt8 := List.flatMap Text.Utf8.encode
  ["\x7b\"paths\":\x7b\"/api/v1/tree/\x7bid\x7d\":\x7b\"get\":\x7b\"parameters\":[",
    "\x7b\"name\":\"output-param\",\"in\":\"query\"\x7d,\x7b\"name\":\"output\",\"in\":\"query\",",
    "\"required\":true\x7d,\x7b\"name\":\"output-param-2\",\"in\":\"query\",\"required\":true,",
    "\"schema\":\x7b\"type\":\"boolean\"\x7d\x7d]\x7d\x7d,\"/api/v1/a/b\":\x7b\"post\":\x7b\x7d\x7d\x7d\x7d"]

def crowdedCommands : List Command :=
  [{ name := "b", parent := "a", short := "", long := "", method := "POST"
     path := "/api/v1/a/b", params := [] },
   { name := "tree", parent := "", short := "", long := "", method := "GET"
     path := "/api/v1/tree/\x7bid\x7d"
     params := [{ name := "id", required := true, location := .path },
      { name := "output-param", location := .query },
      { name := "output", required := true, location := .query },
      { name := "output-param-2", type := .boolean, required := true, location := .query }] }]

theorem compile_crowdedDocument :
    compile {} crowdedDocument = .ok (crowdedCommands, [.compiled 2]) := by
  decide +kernel

theorem wellFormed_build_crowded :
    WellFormed crowdedCommands (Tree.ofCommands crowdedCommands)
      (build (Tree.ofCommands crowdedCommands) "1") :=
  wellFormed_build compile_crowdedDocument "1"

end ApiCommands.Surface
