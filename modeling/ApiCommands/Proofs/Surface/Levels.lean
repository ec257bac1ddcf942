import ApiCommands.Proofs.Surface.Accepted
import ApiCommands.Proofs.Surface.Arguments
import ApiCommands.Proofs.Tree.Arrangement
import ApiCommands.Surface.Invocation

namespace ApiCommands.Surface

/-!
# The levels of a tree

The subcommands of a node are its children. So the names that lead to a node in the tree are those
that lead to its level in the command line, and on an accepted command line the values of the last
level are values of the node that is invoked.
-/

@[simp] theorem name_ofNode (n : Node) : (ofNode n).name = n.name := by
  cases n
  rfl

@[simp] theorem subcommands_ofNode (n : Node) : (ofNode n).subcommands = ofNodes n.children := by
  cases n
  rfl

theorem subcommandRequired_ofNode (n : Node) :
    (ofNode n).subcommandRequired = n.endpoint.isNone := by
  cases n
  rfl

theorem helpWhenEmpty_ofNode (n : Node) : (ofNode n).helpWhenEmpty = n.endpoint.isNone := by
  cases n
  rfl

theorem subcommandWaives_ofNode (n : Node) :
    (ofNode n).subcommandWaives = (n.endpoint.isSome && !n.children.isEmpty) := by
  cases n
  rfl

theorem args_ofNode (n : Node) : (ofNode n).args = (n.endpoint.map endpointArgs).getD [] := by
  cases n
  rfl

theorem args_ofNode_of_endpoint {n : Node} {e : Endpoint} (h : n.endpoint = some e) :
    (ofNode n).args = endpointArgs e := by
  rw [args_ofNode, h, Option.map_some, Option.getD_some]

theorem find?_ofNodes (name : String) (ns : List Node) :
    (ofNodes ns).find? (·.name == name) = (Tree.find? name ns).map ofNode := by
  induction ns with
  | nil => rfl
  | cons n ns ih =>
      by_cases h : n.name = name
      · simp [ofNodes, Tree.find?, h]
      · simpa [ofNodes, Tree.find?, h] using ih

theorem subcommand?_ofNode (n : Node) (name : String) :
    (ofNode n).subcommand? name = (Tree.find? name n.children).map ofNode := by
  rw [Spec.subcommand?, subcommands_ofNode, find?_ofNodes]

theorem subcommand?_build {t : Tree} {name : String} {n : Node} (h : Tree.find? name t = some n)
    (version : String) : (build t version).subcommand? name = some (ofNode n) := by
  have hfind := find?_ofNodes name t
  rw [h, Option.map_some] at hfind
  rw [Spec.subcommand?, build, List.append_assoc, List.find?_append, hfind, Option.some_or]

/-- The level of a node: around it there are only global arguments. -/
structure Scope.At (s : Scope) (n : Node) : Prop where
  spec : s.spec = ofNode n
  inherited : ∀ a ∈ s.inherited, a ∈ globalArgs

/-- A level from which names lead to some nodes. -/
structure Scope.Over (s : Scope) (ns : List Node) : Prop where
  subcommand : ∀ name n, Tree.find? name ns = some n → s.spec.subcommand? name = some (ofNode n)
  global : ∀ a ∈ s.args, a.global = true → a ∈ globalArgs

theorem over_build (t : Tree) (version : String) : Scope.Over ⟨build t version, []⟩ t where
  subcommand := fun _ _ h => subcommand?_build h version
  global := fun a ha _ => by simpa [Scope.args, build] using ha

theorem global_of_mem_args_ofNode {n : Node} {a : Arg} (h : a ∈ (ofNode n).args) :
    a.global = false := by
  cases hendpoint : n.endpoint with
  | none => simp [args_ofNode, hendpoint] at h
  | some e => exact global_of_mem_endpointArgs (args_ofNode_of_endpoint hendpoint ▸ h)

namespace Scope

variable {s : Scope} {ns : List Node} {n : Node}

theorem At.over (h : s.At n) : s.Over n.children where
  subcommand := fun name k hk => by rw [h.spec, subcommand?_ofNode, hk, Option.map_some]
  global := by
    intro a ha hglobal
    rcases List.mem_append.mp ha with ha | ha
    · rw [h.spec] at ha
      simp [global_of_mem_args_ofNode ha] at hglobal
    · exact h.inherited a ha

theorem Over.enter (h : s.Over ns) (n : Node) : (s.enter (ofNode n)).At n where
  spec := rfl
  inherited := by
    intro a ha
    obtain ⟨ha, hglobal⟩ := List.mem_filter.mp ha
    exact h.global a ha hglobal

end Scope

section Endpoint

variable {s : Scope} {n : Node} {e : Endpoint}

theorem mem_args_of_mem_endpointArgs (hat : s.At n) (he : n.endpoint = some e) {a : Arg}
    (ha : a ∈ endpointArgs e) : a ∈ s.args := by
  refine List.mem_append_left _ ?_
  rwa [hat.spec, args_ofNode_of_endpoint he]

/-- A level misses nothing when all positional inputs and all required flags but switches have a
value. -/
theorem complete_of_given (hat : s.At n) (he : n.endpoint = some e) {vs : Values}
    (hpositionals : ∀ i ∈ e.positionals, argId i.name ∈ vs.map Prod.fst)
    (hflags : ∀ i ∈ e.flags, i.required = true → i.type ≠ .boolean →
      argId i.name ∈ vs.map Prod.fst) : Complete s vs := by
  have hgiven {a : Arg} (ha : a.id ∈ vs.map Prod.fst) : isGiven vs a = true := by
    obtain ⟨entry, hentry, hid⟩ := List.mem_map.mp ha
    exact List.any_eq_true.mpr ⟨entry, hentry, by simp [hid]⟩
  refine ⟨by rw [hat.spec, subcommandRequired_ofNode, he]; rfl, fun a ha hrequired => ?_⟩
  rcases List.mem_append.mp ha with ha | ha
  · rw [hat.spec, args_ofNode_of_endpoint he] at ha
    rcases List.mem_append.mp ha with ha | ha
    · obtain ⟨i, hi, k, rfl⟩ := exists_of_mem_positionalArgs ha
      exact hgiven (hpositionals i hi)
    · obtain ⟨i, hi, long, rfl⟩ := exists_of_mem_flagArgs ha
      have hneeded : (i.required && i.type != .boolean) = true := hrequired
      rw [Bool.and_eq_true, bne_iff_ne] at hneeded
      exact hgiven (hflags i hi hneeded.1 hneeded.2)
  · simp [required_of_mem_globalArgs (hat.inherited a ha)] at hrequired

theorem eq_of_id_eq (hat : s.At n) (he : n.endpoint = some e)
    (hnames : (e.inputs.map fun i => i.name).Nodup) {a b : Arg} (ha : a ∈ s.args)
    (hb : b ∈ endpointArgs e) (hid : a.id = b.id) : a = b := by
  rcases List.mem_append.mp ha with ha | ha
  · rw [hat.spec, args_ofNode_of_endpoint he] at ha
    exact List.inj_on_of_nodup_map (nodup_ids_endpointArgs hnames) ha hb hid
  · obtain ⟨i, _, hi⟩ : ∃ i ∈ e.positionals ++ e.flags, argId i.name = b.id :=
      List.mem_map.mp (map_id_endpointArgs e ▸ List.mem_map_of_mem hb)
    exact (argId_ne_of_mem_globalArgs (hat.inherited a ha) i.name (hid.trans hi.symm)).elim

end Endpoint

theorem walk_cons_of_find? {ns : List Node} {step : Step} {n : Node}
    (h : Tree.find? step.command ns = some n) (steps : List Step) :
    walk ns (step :: steps) = if steps = [] then some n else walk n.children steps := by
  cases steps with
  | nil => exact h
  | cons next steps => simp [walk, h]

theorem walk_cons_eq_some {ns : List Node} {step : Step} {steps : List Step} {n : Node}
    (h : walk ns (step :: steps) = some n) :
    ∃ k, Tree.find? step.command ns = some k ∧
      (if steps = [] then some k else walk k.children steps) = some n := by
  cases hfind : Tree.find? step.command ns with
  | none => cases steps <;> simp [walk, hfind] at h
  | some k => exact ⟨k, rfl, walk_cons_of_find? hfind steps ▸ h⟩

theorem lastValues_cons (vs : Values) (name : String) (below : Matches) :
    Matches.lastValues ⟨vs, ⟨name, below.values⟩ :: below.steps⟩ = below.lastValues := by
  rw [Matches.lastValues, Matches.lastValues, List.getLast?_cons]
  cases below.steps.getLast? <;> rfl

/-- The last words of an accepted command line come after the name of the node that is invoked.
They give the last values, and none that the node requires is missing. -/
theorem Accepted.exists_level {s : Scope} {words : List String} {m : Matches}
    (h : Accepted s words m) {ns : List Node} {n : Node} (hover : s.Over ns)
    (hwalk : walk ns m.steps = some n) :
    ∃ (s' : Scope) (outer own : List String), s'.At n ∧ words = outer ++ n.name :: own ∧
      Gives s' own m.lastValues ∧ Complete s' m.lastValues := by
  induction h generalizing ns with
  | last => simp [walk] at hwalk
  | @enter s ws rest vs sub below _ hsub _ hbelow ih =>
      obtain ⟨k, hfind, hrest⟩ := walk_cons_eq_some hwalk
      have hspec : sub = ofNode k := by
        simpa using hsub.symm.trans (hover.subcommand sub.name k hfind)
      have hat : (s.enter sub).At k := hspec ▸ hover.enter k
      have hname : sub.name = k.name := by rw [hspec, name_ofNode]
      rw [lastValues_cons]
      split at hrest
      case isTrue hnil =>
        cases hrest
        cases hbelow with
        | last hgives hcomplete =>
            exact ⟨s.enter sub, ws, rest, hat, by rw [hname], hgives, hcomplete⟩
        | enter => simp at hnil
      case isFalse =>
        obtain ⟨s', outer, own, hat', rfl, hlevel⟩ := ih hat.over hrest
        exact ⟨s', ws ++ sub.name :: outer, own, hat', by simp, hlevel⟩

/-- On an accepted command line the last values are values of the node that is invoked, and none
that it requires is missing. -/
theorem Accepted.exists_scope {s : Scope} {words : List String} {m : Matches}
    (h : Accepted s words m) {ns : List Node} {n : Node} (hover : s.Over ns)
    (hwalk : walk ns m.steps = some n) :
    ∃ s' : Scope, s'.At n ∧ Holds s' m.lastValues ∧ Complete s' m.lastValues := by
  obtain ⟨s', _, _, hat, _, hgives, hcomplete⟩ := h.exists_level hover hwalk
  exact ⟨s', hat, hgives.holds, hcomplete⟩

/-- Names lead to a node of the top level, or to a child of one: below a child there is nothing more
to be named. -/
theorem steps_of_walk {cs : List Command} {t : Tree} (h : Tree.Arrangement cs t)
    {steps : List Step} {n : Node} (hwalk : walk t steps = some n) :
    (n ∈ t ∧ ∃ vs, steps = [⟨n.name, vs⟩]) ∨
      ∃ p ∈ t, n ∈ p.children ∧ ∃ vs ws, steps = [⟨p.name, vs⟩, ⟨n.name, ws⟩] := by
  have hname {ns : List Node} {step : Step} {k : Node} (hfind : Tree.find? step.command ns = some k) :
      step = ⟨k.name, step.values⟩ := by
    have hk : k.name = step.command := by simpa using List.find?_some hfind
    rw [hk]
  cases steps with
  | nil => simp [walk] at hwalk
  | cons step steps =>
      obtain ⟨p, hfind, hrest⟩ := walk_cons_eq_some hwalk
      have hp : p ∈ t := List.mem_of_find?_eq_some hfind
      cases steps with
      | nil =>
          cases hrest
          exact Or.inl ⟨hp, step.values, by rw [← hname hfind]⟩
      | cons next steps =>
          obtain ⟨k, hfindChild, hrest⟩ := walk_cons_eq_some (by simpa using hrest)
          have hk : k ∈ p.children := List.mem_of_find?_eq_some hfindChild
          cases steps with
          | nil =>
              cases hrest
              refine Or.inr ⟨p, hp, hk, step.values, next.values, ?_⟩
              rw [← hname hfind, ← hname hfindChild]
          | cons last steps =>
              rw [(h.leaf p hp k hk).2] at hrest
              obtain ⟨_, hnone, _⟩ := walk_cons_eq_some (by simpa using hrest)
              simp [Tree.find?] at hnone

theorem mem_nodes_of_walk {cs : List Command} {t : Tree} (h : Tree.Arrangement cs t)
    {steps : List Step} {n : Node} (hwalk : walk t steps = some n) : n ∈ Tree.nodes t := by
  rcases steps_of_walk h hwalk with ⟨hn, _⟩ | ⟨p, hp, hn, _⟩
  · exact List.mem_flatMap.mpr ⟨n, hn, List.mem_cons_self⟩
  · exact List.mem_flatMap.mpr ⟨p, hp, List.mem_cons_of_mem p hn⟩

theorem exists_command_of_endpoint {cs : List Command} {t : Tree} (h : Tree.Arrangement cs t)
    {n : Node} (hn : n ∈ Tree.nodes t) {e : Endpoint} (he : n.endpoint = some e) :
    ∃ c ∈ cs, e = ⟨c.method, c.path, inputs c.params⟩ := by
  have htells : n.tells? = some (n.about, n.longAbout, e) := by
    rw [Node.tells?, he, Option.map_some]
  have hmem := h.correspond.mem_iff.mp (List.mem_filterMap.mpr ⟨n, hn, htells⟩)
  obtain ⟨c, hc, heq⟩ := List.mem_map.mp hmem
  exact ⟨c, hc, congrArg (fun t => t.2.2) heq.symm⟩

end ApiCommands.Surface
