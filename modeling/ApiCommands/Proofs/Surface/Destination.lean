import ApiCommands.Proofs.Surface.WellFormed

namespace ApiCommands.Surface

/-!
# Where accepted command lines lead

The subcommands of an accepted command line lead to a node that has an endpoint, or else name a
built-in command that no node has the name of. A node that only groups is never the end, since its
level requires a subcommand.
-/

/-- What a command line can ask for. -/
inductive Target where
  | request (e : Endpoint)
  | tree
  | completion (shell : Shell)
deriving DecidableEq, Repr

/-- What the subcommands of a command line lead to. The names are those of the nodes, one by one,
and a built-in command comes to its turn only where the tree has no node of its name. -/
inductive Leads (t : Tree) (m : Matches) : Target → Prop where
  | top {n : Node} {e : Endpoint} {vs : Values} (hn : n ∈ t) (hsteps : m.steps = [⟨n.name, vs⟩])
      (hfind : findNode t m = some n) (he : n.endpoint = some e) : Leads t m (.request e)
  | child {p n : Node} {e : Endpoint} {vs ws : Values} (hp : p ∈ t) (hn : n ∈ p.children)
      (hsteps : m.steps = [⟨p.name, vs⟩, ⟨n.name, ws⟩]) (hfind : findNode t m = some n)
      (he : n.endpoint = some e) : Leads t m (.request e)
  | tree {vs : Values} (hfree : Tree.find? treeCommand t = none)
      (hsteps : m.steps = [⟨treeCommand, vs⟩]) (hnone : findNode t m = none)
      (hshell : shell? m = none) : Leads t m .tree
  | completion {vs : Values} {shell : Shell} (hfree : Tree.find? completionCommand t = none)
      (hsteps : m.steps = [⟨completionCommand, vs⟩]) (hnone : findNode t m = none)
      (hshell : shell? m = some shell) : Leads t m (.completion shell)

/-- A subcommand of the program is the one of a node, or a built-in command whose name is free. -/
theorem subcommand?_build_eq_some {t : Tree} {version : String} {name : String} {sub : Spec}
    (h : (build t version).subcommand? name = some sub) :
    (∃ p, Tree.find? name t = some p ∧ sub = ofNode p) ∨
      Tree.find? name t = none ∧ (sub = treeSpec ∨ sub = completionSpec) := by
  cases hfind : Tree.find? name t with
  | some p =>
      rw [subcommand?_build hfind] at h
      cases h
      exact Or.inl ⟨p, rfl, rfl⟩
  | none =>
      refine Or.inr ⟨rfl, ?_⟩
      have hname : sub.name = name := by simpa using List.find?_some h
      have hmem := List.mem_of_find?_eq_some h
      rw [subcommands_build] at hmem
      rcases List.mem_append.mp hmem with hnode | hbuiltIn
      · obtain ⟨p, hp, rfl⟩ := List.mem_map.mp hnode
        rw [name_ofNode] at hname
        exact (List.find?_eq_none.mp hfind p hp (by simpa using hname)).elim
      · simpa [builtIns] using (List.mem_filter.mp hbuiltIn).1

/-- A command line that is accepted at the level of a node ends at a node with an endpoint. -/
theorem Accepted.exists_endpoint {s : Scope} {words : List String} {m : Matches}
    (h : Accepted s words m) {n : Node} (hat : s.At n) :
    ∃ k e, (if m.steps = [] then some n else walk n.children m.steps) = some k ∧
      k.endpoint = some e := by
  induction h generalizing n with
  | last _ hcomplete =>
      have hends := hcomplete.1
      rw [hat.spec, subcommandRequired_ofNode, Option.isNone_eq_false_iff] at hends
      obtain ⟨e, he⟩ := Option.isSome_iff_exists.mp hends
      exact ⟨n, e, rfl, he⟩
  | @enter s ws rest vs sub below _ hsub _ _ ih =>
      rw [hat.spec, subcommand?_ofNode] at hsub
      obtain ⟨k, hfind, hspec⟩ := Option.map_eq_some_iff.mp hsub
      subst hspec
      obtain ⟨l, e, hwalk, he⟩ := ih (hat.over.enter k)
      refine ⟨l, e, ?_, he⟩
      rw [if_neg (List.cons_ne_nil _ _), walk_cons_of_find? hfind, hwalk]

theorem read_oneOf_eq_ok_iff {choices : List String} {text : String} {v : ArgValue} :
    (ValueKind.oneOf choices).read text = .ok v ↔ text ∈ choices ∧ v = .text text := by
  by_cases h : text ∈ choices <;> simp [ValueKind.read, h, eq_comm]

theorem Accepted.steps_eq_nil {s : Scope} {words : List String} {m : Matches}
    (h : Accepted s words m) (hnone : s.spec.subcommands = []) : m.steps = [] := by
  cases h with
  | last => rfl
  | enter _ hsub => simp [Spec.subcommand?, hnone] at hsub

theorem Accepted.complete {s : Scope} {words : List String} {m : Matches}
    (h : Accepted s words m) (hnil : m.steps = []) : Complete s m.values := by
  cases h with
  | last _ hcomplete => exact hcomplete
  | enter => simp at hnil

theorem isSome_ofName? : ∀ name ∈ shellNames, (Shell.ofName? name).isSome = true := by decide

/-- At a level with global arguments around it, the completion command takes no value that names no
shell. -/
theorem exists_shell {s : Scope} {vs : Values} (hspec : s.spec = completionSpec)
    (hinherited : ∀ a ∈ s.inherited, a ∈ globalArgs) (hholds : Holds s vs)
    (hcomplete : Complete s vs) :
    ∃ name shell, vs.lookup shellArg.id = some (.text name) ∧ Shell.ofName? name = some shell := by
  have hshell : shellArg ∈ s.args := List.mem_append_left _ (by simp [hspec, completionSpec])
  obtain ⟨⟨id, v⟩, hmem, hid⟩ := List.any_eq_true.mp (hcomplete.2 shellArg hshell rfl)
  obtain rfl : id = shellArg.id := by simpa using hid
  obtain ⟨a, ha, haid, text, hread⟩ := hholds.read _ v hmem
  have hglobals : ∀ b ∈ globalArgs, b.id ≠ shellArg.id := by decide
  obtain rfl : a = shellArg := by
    rcases List.mem_append.mp ha with ha | ha
    · simpa [hspec, completionSpec] using ha
    · exact (hglobals a (hinherited a ha) haid).elim
  obtain ⟨hchoice, rfl⟩ := read_oneOf_eq_ok_iff.mp hread
  obtain ⟨shell, hname⟩ := Option.isSome_iff_exists.mp (isSome_ofName? text hchoice)
  exact ⟨text, shell, lookup_of_mem hholds.nodup hmem, hname⟩

theorem exists_shell?_of_completion {t : Tree} {version : String} {words : List String}
    {below : Matches}
    (h : Accepted (Scope.enter ⟨build t version, []⟩ completionSpec) words below) (vs : Values) :
    ∃ shell, shell? ⟨vs, [⟨completionCommand, below.values⟩]⟩ = some shell := by
  have hinherited : ∀ a ∈ (Scope.enter ⟨build t version, []⟩ completionSpec).inherited,
      a ∈ globalArgs := fun a ha => by
    simpa [Scope.args, build] using (List.mem_filter.mp ha).1
  obtain ⟨name, shell, hlookup, hshell⟩ :=
    exists_shell rfl hinherited h.holds (h.complete (h.steps_eq_nil rfl))
  refine ⟨shell, ?_⟩
  rw [shell?]
  dsimp only
  rw [if_pos rfl, hlookup]
  exact hshell

/-- Every accepted command line leads to what it can ask for. -/
theorem Accepted.exists_leads {cs : List Command} {t : Tree} (harranged : Tree.Arrangement cs t)
    {version : String} {words : List String} {m : Matches}
    (h : Accepted ⟨build t version, []⟩ words m) : ∃ target, Leads t m target := by
  cases h with
  | last _ hcomplete => cases hcomplete.1
  | @enter _ ws rest vs sub below _ hsub _ hbelow =>
      rcases subcommand?_build_eq_some hsub with ⟨p, hfind, rfl⟩ | ⟨hfree, rfl | rfl⟩
      · obtain ⟨n, e, hwalk, he⟩ := hbelow.exists_endpoint ((over_build t version).enter p)
        have hnode : findNode t ⟨vs, ⟨(ofNode p).name, below.values⟩ :: below.steps⟩ = some n := by
          rw [findNode, walk_cons_of_find? hfind, hwalk]
        refine ⟨.request e, ?_⟩
        rcases steps_of_walk harranged hnode with ⟨hn, _, hsteps⟩ | ⟨q, hq, hn, _, _, hsteps⟩
        · exact .top hn hsteps hnode he
        · exact .child hq hn hsteps hnode he
      · rw [hbelow.steps_eq_nil rfl]
        exact ⟨.tree, .tree hfree rfl hfree rfl⟩
      · obtain ⟨shell, hshell⟩ := exists_shell?_of_completion hbelow vs
        rw [hbelow.steps_eq_nil rfl]
        exact ⟨.completion shell, .completion hfree rfl hfree hshell⟩

end ApiCommands.Surface
