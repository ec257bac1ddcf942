import ApiCommands.Proofs.Surface.WellFormed

namespace ApiCommands

/-!
# Names that go together

Before a level is read, the names of its command are looked at. In the command line of a compiled
document they go together, but for a command that has the name of the help command beside it, and
for a flag whose name begins with a dash. So words lead to a node only where there is none of these
on the way.
-/

inductive Tree.LeadsTo (t : Tree) : List String → Node → Prop where
  | top {n : Node} (hn : n ∈ t) : LeadsTo t [n.name] n
  | child {p n : Node} (hp : p ∈ t) (hn : n ∈ p.children) : LeadsTo t [p.name, n.name] n

def Node.flags (n : Node) : List Input := (n.endpoint.map Endpoint.flags).getD []

/-- The children of a node leave the help command its name, and no flag begins with a dash. -/
structure Node.WellNamed (n : Node) : Prop where
  help : Surface.Scope.helpName ∉ n.children.map Node.name
  dash : ∀ i ∈ n.flags, i.name.toList.head? ≠ some '-'

instance (n : Node) : Decidable n.WellNamed :=
  decidable_of_iff
    (Surface.Scope.helpName ∉ n.children.map Node.name ∧
      ∀ i ∈ n.flags, i.name.toList.head? ≠ some '-')
    ⟨fun ⟨help, dash⟩ => ⟨help, dash⟩, fun h => ⟨h.help, h.dash⟩⟩

namespace Tree

/-- The top level of a tree leaves the help command its name, and all nodes that names come by, the
last one with them, are well named. -/
structure WellNamedAlong (t : Tree) (names : List String) : Prop where
  help : Surface.Scope.helpName ∉ t.map Node.name
  nodes : ∀ ns n, LeadsTo t ns n → ns <+: names → n.WellNamed

variable {t : Tree} {names : List String} {n : Node}

theorem LeadsTo.mem_nodes (h : LeadsTo t names n) : n ∈ nodes t := by
  cases h with
  | top hn => exact List.mem_flatMap.mpr ⟨n, hn, List.mem_cons_self⟩
  | @child p _ hp hn => exact List.mem_flatMap.mpr ⟨p, hp, List.mem_cons_of_mem p hn⟩

theorem leadsTo_of_find? {name : String} (h : find? name t = some n) : LeadsTo t [name] n := by
  have hname : n.name = name := by simpa using List.find?_some h
  exact hname ▸ .top (List.mem_of_find?_eq_some h)

theorem wellNamedAlong_of_forall (hhelp : Surface.Scope.helpName ∉ t.map Node.name)
    (h : ∀ n ∈ nodes t, n.WellNamed) (names : List String) : t.WellNamedAlong names where
  help := hhelp
  nodes := fun _ n hpath _ => h n hpath.mem_nodes

theorem WellNamedAlong.of_leadsTo (h : t.WellNamedAlong names) (hpath : LeadsTo t names n) :
    n.WellNamed :=
  h.nodes names n hpath (List.prefix_refl names)

section Arrangement

variable {cs : List Command} (harranged : Arrangement cs t)
include harranged

theorem wellNamedAlong_top (hhelp : Surface.Scope.helpName ∉ t.map Node.name) (hn : n ∈ t)
    (hnamed : n.WellNamed) : t.WellNamedAlong [n.name] where
  help := hhelp
  nodes := by
    intro ns k hpath hprefix
    cases hpath with
    | top hk =>
        have hname : k.name = n.name := by simpa using hprefix
        rwa [List.inj_on_of_nodup_map harranged.nodup hk hn hname]
    | child => simp at hprefix

theorem wellNamedAlong_child {p : Node} (hhelp : Surface.Scope.helpName ∉ t.map Node.name)
    (hp : p ∈ t) (hn : n ∈ p.children) (hnamed : p.WellNamed) (hnamed' : n.WellNamed) :
    t.WellNamedAlong [p.name, n.name] where
  help := hhelp
  nodes := by
    intro ns k hpath hprefix
    cases hpath with
    | top hk =>
        have hname : k.name = p.name := by simpa using hprefix
        rwa [List.inj_on_of_nodup_map harranged.nodup hk hp hname]
    | @child q _ hq hk =>
        obtain ⟨hname, hname'⟩ : q.name = p.name ∧ k.name = n.name := by simpa using hprefix
        obtain rfl := List.inj_on_of_nodup_map harranged.nodup hq hp hname
        have hnodup := harranged.nodup_children (List.mem_flatMap.mpr ⟨q, hq, List.mem_cons_self⟩)
        rwa [List.inj_on_of_nodup_map hnodup hk hn hname']

end Arrangement

end Tree

namespace Surface

theorem nodup_subcommandNames_iff {s : Scope} (h : (s.spec.subcommands.map Spec.name).Nodup) :
    s.subcommandNames.Nodup ↔ Scope.helpName ∉ s.spec.subcommands.map Spec.name := by
  by_cases hnone : s.spec.subcommands = []
  · simp [Scope.subcommandNames, Scope.hasSubcommands, hnone]
  · have hsome : s.hasSubcommands = true := by simp [Scope.hasSubcommands, hnone]
    rw [Scope.subcommandNames, if_pos hsome, ← List.concat_eq_append, List.nodup_concat]
    exact and_iff_left h

theorem wellNamed_build_iff {t : Tree} (h : (t.map Node.name).Nodup) (version : String) :
    Scope.WellNamed ⟨build t version, []⟩ ↔ Scope.helpName ∉ t.map Node.name := by
  have hnames : Scope.helpName ∉ (build t version).subcommands.map Spec.name ↔
      Scope.helpName ∉ t.map Node.name := by
    have hbuiltIns : Scope.helpName ∉ (freeBuiltIns t).map Spec.name := by
      have hall : ∀ b ∈ builtIns, b.name ≠ Scope.helpName := by decide
      rintro hmem
      obtain ⟨b, hb, heq⟩ := List.mem_map.mp hmem
      exact hall b (List.mem_of_mem_filter hb) heq
    rw [subcommands_build, List.map_append, List.mem_append, ← ofNodes_eq_map, map_name_ofNodes]
    simp [hbuiltIns]
  have hsubcommands := nodup_subcommandNames_iff (s := ⟨build t version, []⟩)
    (nodup_names_build h version)
  have hlongs : Scope.longs ⟨build t version, []⟩ =
      globalArgs.filterMap Arg.long ++ ["help", "version"] := rfl
  constructor
  · exact fun hnamed => hnames.mp (hsubcommands.mp hnamed.subcommands)
  · exact fun hhelp =>
      { ids := (by decide : (globalArgs.map Arg.id).Nodup)
        longs := hlongs ▸ (by decide)
        dashes := hlongs ▸ (by decide)
        places := (by decide : (globalArgs.filterMap Arg.index).Nodup)
        subcommands := hsubcommands.mpr (hnames.mpr hhelp) }

/-- The level at which the words for a node are read. -/
def level (n : Node) : Scope := ⟨ofNode n, globalArgs⟩

theorem at_level (n : Node) : (level n).At n := ⟨rfl, fun _ ha => ha⟩

theorem enter_build (t : Tree) (version : String) (n : Node) :
    Scope.enter ⟨build t version, []⟩ (ofNode n) = level n := rfl

theorem enter_level (p n : Node) : (level p).enter (ofNode n) = level n := by
  have hown : (ofNode p).args.filter (·.global) = [] :=
    List.filter_eq_nil_iff.mpr fun a ha => by simp [global_of_mem_args_ofNode ha]
  have hglobal : globalArgs.filter (·.global) = globalArgs := rfl
  rw [Scope.enter, Scope.args, level, List.filter_append, hown, hglobal]
  rfl

section Longs

variable {n : Node}

theorem longs_level (n : Node) : (level n).longs =
    (ofNode n).args.filterMap Arg.long ++ (globalArgs.filterMap Arg.long ++ ["help"]) := by
  have hbuiltIn : (level n).builtInLongs = ["help"] := by
    cases n
    rfl
  rw [Scope.longs, hbuiltIn, Scope.args, level, List.filterMap_append, List.append_assoc]

theorem exists_flag_of_mem_longs {long : String}
    (h : long ∈ (ofNode n).args.filterMap Arg.long) :
    ∃ i ∈ n.flags, ∃ taken, long = (longName taken i.name).1 := by
  obtain ⟨a, ha, hlong⟩ := List.mem_filterMap.mp h
  cases he : n.endpoint with
  | none => simp [args_ofNode, he] at ha
  | some e =>
      rw [args_ofNode_of_endpoint he] at ha
      rcases List.mem_append.mp ha with ha | ha
      · obtain ⟨i, _, k, rfl⟩ := exists_of_mem_positionalArgs ha
        cases hlong
      · obtain ⟨i, hi, taken, rfl⟩ := exists_longName_of_mem_flagArgs ha
        cases hlong
        exact ⟨i, by simpa [Node.flags, he] using hi, taken, rfl⟩

theorem exists_mem_longs_of_flag {i : Input} (h : i ∈ n.flags) :
    ∃ taken, (longName taken i.name).1 ∈ (ofNode n).args.filterMap Arg.long := by
  cases he : n.endpoint with
  | none => simp [Node.flags, he] at h
  | some e =>
      obtain ⟨taken, hmem⟩ := exists_mem_flagArgs (by simpa [Node.flags, he] using h) (ownNames e)
      rw [args_ofNode_of_endpoint he]
      exact ⟨taken, List.mem_filterMap.mpr ⟨_, List.mem_append_right _ hmem, rfl⟩⟩

end Longs

theorem filterMap_index_positionalArgs (k : Nat) (is : List Input) :
    (positionalArgs k is).filterMap Arg.index = List.range' k is.length := by
  induction is generalizing k with
  | nil => rfl
  | cons i is ih =>
      rw [positionalArgs, List.filterMap_cons, ih, List.length_cons, List.range'_succ]
      rfl

theorem nodup_places_endpointArgs (e : Endpoint) :
    ((endpointArgs e).filterMap Arg.index).Nodup := by
  have hflags : (flagArgs (ownNames e) e.flags).filterMap Arg.index = [] := by
    refine List.filterMap_eq_nil_iff.mpr fun a ha => ?_
    obtain ⟨i, _, long, rfl⟩ := exists_of_mem_flagArgs ha
    rfl
  rw [endpointArgs, List.filterMap_append, filterMap_index_positionalArgs, hflags, List.append_nil]
  exact List.nodup_range'

theorem forall_args_ofNode {n : Node} (hwf : ∀ e, n.endpoint = some e → e.WellFormed)
    (P : List Arg → Prop) (hnone : P []) (hsome : ∀ e, e.WellFormed → P (endpointArgs e)) :
    P (ofNode n).args := by
  cases he : n.endpoint with
  | none => simpa [args_ofNode, he] using hnone
  | some e => exact args_ofNode_of_endpoint he ▸ hsome e (hwf e he)

/-- The names at the level of a node go together just where the node is well named. -/
theorem wellNamed_level_iff {n : Node} (hnodup : (n.children.map Node.name).Nodup)
    (hwf : ∀ e, n.endpoint = some e → e.WellFormed) : (level n).WellNamed ↔ n.WellNamed := by
  have hnames : (level n).spec.subcommands.map Spec.name = n.children.map Node.name := by
    rw [level, subcommands_ofNode, map_name_ofNodes]
  have hsubcommands := nodup_subcommandNames_iff (hnames ▸ hnodup)
  rw [hnames] at hsubcommands
  have houter : ∀ long ∈ globalArgs.filterMap Arg.long ++ ["help"],
      long ∈ reservedNames ∧ long.toList.head? ≠ some '-' := by decide
  constructor
  · refine fun h => ⟨hsubcommands.mp h.subcommands, fun i hi hdash => ?_⟩
    obtain ⟨taken, hmem⟩ := exists_mem_longs_of_flag hi
    refine h.dashes _ ?_ ((head?_longName taken i.name).trans hdash)
    exact longs_level n ▸ List.mem_append_left _ hmem
  · intro h
    refine ⟨?_, ?_, ?_, ?_, hsubcommands.mpr h.help⟩
    · exact forall_args_ofNode hwf (fun args => (args.map Arg.id).Nodup) List.nodup_nil
        fun e he => nodup_ids_endpointArgs he.nodup
    · rw [longs_level, List.nodup_append]
      refine ⟨?_, by decide, ?_⟩
      · exact forall_args_ofNode hwf (fun args => (args.filterMap Arg.long).Nodup) List.nodup_nil
          fun e he => (fits_endpointArgs he).longs
      · rintro long hlong _ houtside rfl
        obtain ⟨i, _, taken, rfl⟩ := exists_flag_of_mem_longs hlong
        exact longName_notMem_reservedNames taken i.name (houter _ houtside).1
    · intro long hlong
      rcases List.mem_append.mp (longs_level n ▸ hlong) with hlong | hlong
      · obtain ⟨i, hi, taken, rfl⟩ := exists_flag_of_mem_longs hlong
        rw [head?_longName]
        exact h.dash i hi
      · exact (houter long hlong).2
    · exact forall_args_ofNode hwf (fun args => (args.filterMap Arg.index).Nodup) List.nodup_nil
        fun e _ => nodup_places_endpointArgs e

theorem wellNamed_level_iff_of_mem {cs : List Command} {t : Tree}
    (harranged : Tree.Arrangement cs t)
    (hwf : ∀ n ∈ Tree.nodes t, ∀ e, n.endpoint = some e → e.WellFormed) {n : Node}
    (hn : n ∈ Tree.nodes t) : (level n).WellNamed ↔ n.WellNamed :=
  wellNamed_level_iff (harranged.nodup_children hn) (hwf n hn)

/-- The first subcommand of an accepted command line opens a level whose names go together, and the
words after it are accepted there. -/
theorem Accepted.enters {s : Scope} {words : List String} {m : Matches} (h : Accepted s words m)
    {ns : List Node} (hover : s.Over ns) (hlevel : ∀ k, s.enter (ofNode k) = level k) {step : Step}
    {steps : List Step} (hsteps : m.steps = step :: steps) {k : Node}
    (hfind : Tree.find? step.command ns = some k) :
    (level k).WellNamed ∧
      ∃ rest below, Accepted (level k) rest below ∧ below.steps = steps := by
  cases h with
  | last => cases hsteps
  | @enter _ ws rest vs sub below _ hsub hnamed hbelow =>
      obtain ⟨rfl, rfl⟩ := List.cons.inj hsteps
      obtain rfl : sub = ofNode k := by simpa using hsub.symm.trans (hover.subcommand sub.name k hfind)
      rw [hlevel] at hnamed hbelow
      exact ⟨hnamed, rest, below, hbelow, rfl⟩

/-- Accepted words come to their node along well named nodes only. -/
theorem wellNamedAlong_of_parse {cs : List Command} {t : Tree}
    (harranged : Tree.Arrangement cs t)
    (hwf : ∀ n ∈ Tree.nodes t, ∀ e, n.endpoint = some e → e.WellFormed) {version : String}
    {words : List String} {m : Matches} (hparse : parse (build t version) words = .ok m) {n : Node}
    (hnode : findNode t m = some n) :
    ∃ names, t.LeadsTo names n ∧ t.WellNamedAlong names := by
  have hhelp := (wellNamed_build_iff harranged.nodup version).mp (parse_eq_ok_iff.mp hparse).1
  have hover := over_build t version
  have haccepted := accepted_of_parse hparse
  rcases steps_of_walk harranged hnode with ⟨hn, _, hsteps⟩ | ⟨p, hp, hn, _, _, hsteps⟩
  · obtain ⟨hnamed, _⟩ := haccepted.enters hover (enter_build t version) hsteps (harranged.find n hn)
    have hpath : t.LeadsTo [n.name] n := .top hn
    have hnode' := (wellNamed_level_iff_of_mem harranged hwf hpath.mem_nodes).mp hnamed
    exact ⟨_, hpath, Tree.wellNamedAlong_top harranged hhelp hn hnode'⟩
  · obtain ⟨hnamed, _, _, hbelow, hrest⟩ :=
      haccepted.enters hover (enter_build t version) hsteps (harranged.find p hp)
    obtain ⟨hnamed', _⟩ :=
      hbelow.enters (at_level p).over (enter_level p) hrest (harranged.findChild p hp n hn)
    have hpath : t.LeadsTo [p.name, n.name] n := .child hp hn
    have hp' : p ∈ Tree.nodes t := List.mem_flatMap.mpr ⟨p, hp, List.mem_cons_self⟩
    have houter := (wellNamed_level_iff_of_mem harranged hwf hp').mp hnamed
    have hinner := (wellNamed_level_iff_of_mem harranged hwf hpath.mem_nodes).mp hnamed'
    exact ⟨_, hpath, Tree.wellNamedAlong_child harranged hhelp hp hn houter hinner⟩

/-- A document with a command of the name of the help command. -/
def helpDocument : List UInt8 := Text.Utf8.encode
  "\x7b\"paths\":\x7b\"/api/v1/help\":\x7b\"get\":\x7b\x7d\x7d,
    \"/api/v1/x\":\x7b\"get\":\x7b\x7d\x7d\x7d\x7d"

def helpCommands : List Command :=
  [{ name := "help", parent := "", short := "", long := "", method := "GET"
     path := "/api/v1/help", params := [] },
   { name := "x", parent := "", short := "", long := "", method := "GET", path := "/api/v1/x"
     params := [] }]

theorem compile_helpDocument : compile {} helpDocument = .ok (helpCommands, [.compiled 2]) := by
  decide +kernel

/-- A document with a flag whose name begins with a dash. -/
def dashDocument : List UInt8 := Text.Utf8.encode
  "\x7b\"paths\":\x7b\"/api/v1/x\":\x7b\"get\":\x7b\"parameters\":[
    \x7b\"name\":\"-q\",\"in\":\"query\"\x7d]\x7d\x7d\x7d\x7d"

def dashCommand : Command :=
  { name := "x", parent := "", short := "", long := "", method := "GET", path := "/api/v1/x"
    params := [{ name := "-q", location := .query }] }

theorem compile_dashDocument : compile {} dashDocument = .ok ([dashCommand], [.compiled 1]) := by
  decide +kernel

end Surface

end ApiCommands
