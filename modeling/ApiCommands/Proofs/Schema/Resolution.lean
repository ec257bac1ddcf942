import ApiCommands.Proofs.Schema.Chains

namespace ApiCommands.Schema

/-!
# What a chain of references leads to

References are followed one by one, at most one more than there are components. The end is the node
without a reference that the chain leads to, if there is one. Otherwise the chain leaves the
components or comes to one of them again, under whatever spelling of its name.
-/

/-- A reference has the form of a pointer to a component, whose name is the unescaped token. -/
def PointsAt (r name : String) : Prop :=
  ∃ token, r.toList = componentMark.toList ++ token ∧ token ≠ [] ∧ '/' ∉ token ∧
    name.toList = unescape '0' '~' (unescape '1' '/' token)

theorem componentName_eq_some_iff {r name : String} :
    componentName r = some name ↔ PointsAt r name := by
  have hform : ∀ token, (token.isEmpty || token.contains '/') = false ↔
      token ≠ [] ∧ '/' ∉ token := by simp
  rw [componentName]
  cases htoken : dropMark componentMark.toList r.toList with
  | none =>
      refine ⟨fun h => (Option.some_ne_none _ h.symm).elim, ?_⟩
      rintro ⟨token, hr, _⟩
      rw [dropMark_eq_some_iff.mpr hr] at htoken
      cases htoken
  | some token =>
      have hr := dropMark_eq_some_iff.mp htoken
      dsimp only
      constructor
      · intro h
        split at h
        case isTrue => cases h
        case isFalse hbad =>
          obtain ⟨hne, hslash⟩ := (hform token).mp (by simpa using hbad)
          exact ⟨token, hr, hne, hslash, by rw [← Option.some.inj h, String.toList_ofList]⟩
      · rintro ⟨token', hr', hne, hslash, hname⟩
        obtain rfl := List.append_cancel_left (hr.symm.trans hr')
        rw [(hform token).mpr ⟨hne, hslash⟩, if_neg (by decide), ← hname, String.ofList_toList]

/-- A node's reference and the component it names lead to another node. -/
def LeadsTo (components : Components) (node : Node) (step : String × String)
    (target : Node) : Prop :=
  node.pending = some step.1 ∧ PointsAt step.1 step.2 ∧ components.lookup step.2 = some target

/-- A chain from one node to another: the references in it, each beside the component it names. -/
inductive Chain (components : Components) : Node → List (String × String) → Node → Prop where
  | here (node : Node) : Chain components node [] node
  | beyond {node target stop : Node} {step : String × String} {steps : List (String × String)}
      (hstep : LeadsTo components node step target) (hrest : Chain components target steps stop) :
      Chain components node (step :: steps) stop

/-- The reference of a node does not point at a component. -/
def IsForeign (node : Node) : Prop := ∃ r, node.pending = some r ∧ ∀ name, ¬PointsAt r name

/-- The reference of a node points at a component that does not exist. -/
def IsDangling (components : Components) (node : Node) : Prop :=
  ∃ r name, node.pending = some r ∧ PointsAt r name ∧ components.lookup name = none

section Chain

variable {components : Components} {node target stop stop' : Node}
  {step step' : String × String} {steps steps' : List (String × String)}

theorem PointsAt.unique {r name name' : String} (h : PointsAt r name) (h' : PointsAt r name') :
    name = name' := by
  rw [← componentName_eq_some_iff] at h h'
  exact Option.some.inj (h.symm.trans h')

theorem LeadsTo.unique {target' : Node} (h : LeadsTo components node step target)
    (h' : LeadsTo components node step' target') : step = step' ∧ target = target' := by
  obtain ⟨hpending, hname, htarget⟩ := h
  obtain ⟨hpending', hname', htarget'⟩ := h'
  have hreference : step.1 = step'.1 := Option.some.inj (hpending.symm.trans hpending')
  obtain rfl : step = step' := Prod.ext hreference (hname.unique (hreference ▸ hname'))
  exact ⟨rfl, Option.some.inj (htarget.symm.trans htarget')⟩

/-- Nothing can be followed from a node. -/
def IsEnd (components : Components) (node : Node) : Prop :=
  ∀ step target, ¬LeadsTo components node step target

theorem isEnd_of_concrete (h : node.pending = none) : IsEnd components node := by
  rintro step target ⟨hpending, _⟩
  rw [h] at hpending
  cases hpending

theorem isEnd_of_isForeign (h : IsForeign node) : IsEnd components node := by
  obtain ⟨r, hpending, hforeign⟩ := h
  rintro step target ⟨hpending', hname, _⟩
  obtain rfl := Option.some.inj (hpending.symm.trans hpending')
  exact hforeign _ hname

theorem isEnd_of_isDangling (h : IsDangling components node) : IsEnd components node := by
  obtain ⟨r, name, hpending, hname, hmissing⟩ := h
  rintro step target ⟨hpending', hname', htarget⟩
  obtain rfl := Option.some.inj (hpending.symm.trans hpending')
  rw [← hname.unique hname', hmissing] at htarget
  cases htarget

theorem Chain.append (h : Chain components node steps stop)
    (h' : Chain components stop steps' stop') :
    Chain components node (steps ++ steps') stop' := by
  induction h with
  | here => exact h'
  | beyond hstep _ ih => exact .beyond hstep (ih h')

/-- A chain is the beginning of every chain that comes to an end. -/
theorem Chain.exists_rest (h : Chain components node steps stop)
    (h' : Chain components node steps' stop') (hend : IsEnd components stop') :
    ∃ rest, steps' = steps ++ rest ∧ Chain components stop rest stop' := by
  induction h generalizing steps' with
  | here => exact ⟨steps', rfl, h'⟩
  | @beyond _ target _ step steps hstep _ ih =>
      cases h' with
      | here => exact (hend step target hstep).elim
      | beyond hstep' hrest' =>
          obtain ⟨rfl, rfl⟩ := hstep.unique hstep'
          obtain ⟨rest, rfl, hrest⟩ := ih hrest'
          exact ⟨rest, rfl, hrest⟩

theorem Chain.eq_of_isEnd (h : Chain components node steps stop)
    (h' : Chain components node steps' stop') (hend : IsEnd components stop)
    (hend' : IsEnd components stop') : steps = steps' ∧ stop = stop' := by
  obtain ⟨rest, rfl, hrest⟩ := h.exists_rest h' hend'
  cases hrest with
  | here => exact ⟨(List.append_nil _).symm, rfl⟩
  | beyond hstep => exact (hend _ _ hstep).elim

theorem Chain.exists_pointsAt_of_mem (h : Chain components node steps stop) (hstep : step ∈ steps) :
    ∃ target, PointsAt step.1 step.2 ∧ components.lookup step.2 = some target := by
  induction h with
  | here => cases hstep
  | beyond hleads _ ih =>
      rcases List.mem_cons.mp hstep with rfl | hstep
      · exact ⟨_, hleads.2⟩
      · exact ih hstep

/-- The rest of a chain after a component begins at that component. -/
theorem Chain.exists_lookup (h : Chain components node steps stop) {name : String}
    (hname : name ∈ steps.map Prod.snd) :
    ∃ target rest, components.lookup name = some target ∧ Chain components target rest stop ∧
      rest.length < steps.length := by
  induction h with
  | here => simp at hname
  | @beyond _ target _ step steps hstep hrest ih =>
      rw [List.length_cons]
      rcases List.mem_cons.mp (List.map_cons ▸ hname) with rfl | hname
      · exact ⟨target, steps, hstep.2.2, hrest, Nat.lt_succ_self _⟩
      · obtain ⟨target', rest, hlookup, hchain, hlen⟩ := ih hname
        exact ⟨target', rest, hlookup, hchain, Nat.lt_succ_of_lt hlen⟩

/-- No component is met twice on the way to an end. -/
theorem Chain.nodup_of_isEnd (h : Chain components node steps stop)
    (hend : IsEnd components stop) : (steps.map Prod.snd).Nodup := by
  induction h with
  | here => exact List.nodup_nil
  | @beyond _ target _ step steps hstep hrest ih =>
      refine List.nodup_cons.mpr ⟨fun hagain => ?_, ih hend⟩
      -- The chain from the component would be shorter than itself.
      obtain ⟨target', rest, hlookup, hchain, hlen⟩ := hrest.exists_lookup hagain
      obtain rfl := Option.some.inj (hstep.2.2.symm.trans hlookup)
      obtain ⟨rfl, _⟩ := hrest.eq_of_isEnd hchain hend hend
      exact Nat.lt_irrefl _ hlen

theorem Chain.nodup_of_chain (h : Chain components node steps stop)
    (h' : Chain components node steps' stop') (hend : IsEnd components stop') :
    (steps.map Prod.snd).Nodup := by
  obtain ⟨rest, rfl, _⟩ := h.exists_rest h' hend
  have hnodup := h'.nodup_of_isEnd hend
  rw [List.map_append] at hnodup
  exact (List.nodup_append.mp hnodup).1

theorem Chain.subset_references (h : Chain components node steps stop) :
    steps.map Prod.fst ⊆ references components node := by
  suffices hsub : ∀ start, (∀ r, node.pending = some r → r ∈ references components start) →
      steps.map Prod.fst ⊆ references components start from
    hsub node fun _ => mem_references_of_pending
  intro start hnode
  induction h with
  | here => exact List.nil_subset _
  | beyond hstep _ ih =>
      rw [List.map_cons, List.cons_subset]
      exact ⟨hnode _ hstep.1, ih fun _ hr => mem_references_of_lookup hstep.2.2 hr start⟩

theorem Chain.length_le (h : Chain components node steps stop)
    (hnodup : (steps.map Prod.fst).Nodup) : steps.length ≤ components.length + 1 := by
  have hlen := (List.subperm_of_subset hnodup h.subset_references).length_le
  rw [List.length_map] at hlen
  exact Nat.le_trans hlen (length_references_le components node)

end Chain

/-! ### The run of the loop -/

/-- Why following stops at a node, some references being behind, and with which result. -/
inductive Halts (components : Components) (followed : List String) (node : Node) :
    Except BrokenReference Node → Prop where
  | concrete (hpending : node.pending = none) : Halts components followed node (.ok node)
  | foreign {r : String} (hpending : node.pending = some r) (hforeign : ∀ name, ¬PointsAt r name) :
      Halts components followed node (.error (.unsupported r))
  | dangling {r name : String} (hpending : node.pending = some r) (hname : PointsAt r name)
      (hmissing : components.lookup name = none) :
      Halts components followed node (.error (.unresolvable r))
  | again {r : String} (hpending : node.pending = some r) (hseen : r ∈ followed) :
      Halts components followed node (.error (.cyclic r))

section Run

variable {components : Components} {node stop : Node} {followed : List String}
  {steps : List (String × String)} {result : Except BrokenReference Node}

theorem Halts.congr {followed' : List String} (h : Halts components followed node result)
    (hsame : ∀ r, r ∈ followed ↔ r ∈ followed') : Halts components followed' node result := by
  cases h with
  | concrete hpending => exact .concrete hpending
  | foreign hpending hforeign => exact .foreign hpending hforeign
  | dangling hpending hname hmissing => exact .dangling hpending hname hmissing
  | again hpending hseen => exact .again hpending ((hsame _).mp hseen)

/-- The loop follows a chain and stops at its end. No reference is followed twice. -/
theorem Ends.exists_chain (h : Ends components followed node result) (hnodup : followed.Nodup) :
    ∃ steps stop, Chain components node steps stop ∧ (steps.map Prod.fst ++ followed).Nodup ∧
      Halts components (steps.map Prod.fst ++ followed) stop result := by
  induction h with
  | concrete hpending => exact ⟨[], _, .here _, hnodup, .concrete hpending⟩
  | unsupported hpending hname =>
      refine ⟨[], _, .here _, hnodup, .foreign hpending fun name hpoints => ?_⟩
      rw [componentName_eq_some_iff.mpr hpoints] at hname
      cases hname
  | cyclic hpending _ hseen => exact ⟨[], _, .here _, hnodup, .again hpending hseen⟩
  | unresolvable hpending hname _ hmissing =>
      exact ⟨[], _, .here _, hnodup,
        .dangling hpending (componentName_eq_some_iff.mp hname) hmissing⟩
  | @step followed node target r name result hpending hname hnew htarget _ ih =>
      obtain ⟨steps, stop, hchain, hdistinct, hhalts⟩ := ih (List.nodup_cons.mpr ⟨hnew, hnodup⟩)
      have hstep : LeadsTo components node (r, name) target :=
        ⟨hpending, componentName_eq_some_iff.mp hname, htarget⟩
      have hperm := (List.perm_middle : (steps.map Prod.fst ++ r :: followed).Perm _)
      exact ⟨(r, name) :: steps, stop, .beyond hstep hchain, hperm.nodup_iff.mp hdistinct,
        hhalts.congr fun _ => hperm.mem_iff⟩

theorem exists_chain_resolve (components : Components) (node : Node) :
    ∃ steps stop, Chain components node steps stop ∧ (steps.map Prod.fst).Nodup ∧
      Halts components (steps.map Prod.fst) stop (resolve components node) := by
  simpa using (ends_resolve components node).exists_chain List.nodup_nil

/-- A reference that is met again leads to a component that has been met. -/
theorem Chain.exists_again (h : Chain components node steps stop) {r : String}
    (hpending : stop.pending = some r) (hseen : r ∈ steps.map Prod.fst) :
    ∃ steps' stop', Chain components node steps' stop' ∧ ¬(steps'.map Prod.snd).Nodup := by
  obtain ⟨step, hstep, rfl⟩ := List.mem_map.mp hseen
  obtain ⟨target, htarget⟩ := h.exists_pointsAt_of_mem hstep
  refine ⟨steps ++ [step], target, h.append (.beyond ⟨hpending, htarget⟩ (.here _)), ?_⟩
  rw [List.map_append, List.nodup_append]
  rintro ⟨_, _, hdisjoint⟩
  exact hdisjoint _ (List.mem_map_of_mem hstep) _ (List.mem_singleton_self _) rfl

theorem Halts.isEnd_or_seen (h : Halts components followed node result) :
    IsEnd components node ∨ ∃ r, node.pending = some r ∧ r ∈ followed := by
  cases h with
  | concrete hpending => exact Or.inl (isEnd_of_concrete hpending)
  | foreign hpending hforeign => exact Or.inl (isEnd_of_isForeign ⟨_, hpending, hforeign⟩)
  | dangling hpending hname hmissing =>
      exact Or.inl (isEnd_of_isDangling ⟨_, _, hpending, hname, hmissing⟩)
  | again hpending hseen => exact Or.inr ⟨_, hpending, hseen⟩

/-- Where a chain ends, following stops. -/
theorem Chain.exists_halts (h : Chain components node steps stop) (hend : IsEnd components stop) :
    ∃ followed, Halts components followed stop (resolve components node) := by
  obtain ⟨steps', stop', hchain, _, hhalts⟩ := exists_chain_resolve components node
  rcases hhalts.isEnd_or_seen with hend' | ⟨r, hpending, hseen⟩
  · obtain ⟨_, rfl⟩ := hchain.eq_of_isEnd h hend' hend
    exact ⟨_, hhalts⟩
  · obtain ⟨_, _, hagain, htwice⟩ := hchain.exists_again hpending hseen
    exact (htwice (hagain.nodup_of_chain h hend)).elim

theorem resolve_eq_ok_iff {n : Node} :
    resolve components node = .ok n ↔
      n.pending = none ∧ ∃ steps, Chain components node steps n := by
  constructor
  · intro h
    obtain ⟨steps, stop, hchain, _, hhalts⟩ := exists_chain_resolve components node
    rw [h] at hhalts
    cases hhalts with
    | concrete hpending => exact ⟨hpending, steps, hchain⟩
  · rintro ⟨hpending, steps, hchain⟩
    obtain ⟨followed, hhalts⟩ := hchain.exists_halts (isEnd_of_concrete hpending)
    generalize resolve components node = result at hhalts
    cases hhalts with
    | concrete => rfl
    | foreign hpending' => cases hpending.symm.trans hpending'
    | dangling hpending' => cases hpending.symm.trans hpending'
    | again hpending' => cases hpending.symm.trans hpending'

theorem exists_resolve_eq_error_iff :
    (∃ broken, resolve components node = .error broken) ↔
      ∃ steps stop, Chain components node steps stop ∧
        (IsForeign stop ∨ IsDangling components stop ∨ ¬(steps.map Prod.snd).Nodup) := by
  constructor
  · rintro ⟨broken, h⟩
    obtain ⟨steps, stop, hchain, _, hhalts⟩ := exists_chain_resolve components node
    rw [h] at hhalts
    cases hhalts with
    | foreign hpending hforeign => exact ⟨steps, stop, hchain, Or.inl ⟨_, hpending, hforeign⟩⟩
    | dangling hpending hname hmissing =>
        exact ⟨steps, stop, hchain, Or.inr (Or.inl ⟨_, _, hpending, hname, hmissing⟩)⟩
    | again hpending hseen =>
        obtain ⟨steps', stop', hagain, htwice⟩ := hchain.exists_again hpending hseen
        exact ⟨steps', stop', hagain, Or.inr (Or.inr htwice)⟩
  · rintro ⟨steps, stop, hchain, hbroken⟩
    cases hresult : resolve components node with
    | error broken => exact ⟨broken, rfl⟩
    | ok n =>
        obtain ⟨hpending, steps', hchain'⟩ := resolve_eq_ok_iff.mp hresult
        have hend : IsEnd components n := isEnd_of_concrete hpending
        rcases hbroken with hforeign | hdangling | htwice
        · obtain ⟨_, rfl⟩ := hchain.eq_of_isEnd hchain' (isEnd_of_isForeign hforeign) hend
          obtain ⟨r, hpending', _⟩ := hforeign
          cases hpending.symm.trans hpending'
        · obtain ⟨_, rfl⟩ := hchain.eq_of_isEnd hchain' (isEnd_of_isDangling hdangling) hend
          obtain ⟨r, _, hpending', _⟩ := hdangling
          cases hpending.symm.trans hpending'
        · exact (htwice (hchain.nodup_of_chain hchain' hend)).elim

/-- Resolving a node follows its chain of references, at most one more than there are components,
and finds the node without a reference that the chain leads to. It finds none exactly when the chain
leaves the components or comes to one of them twice. -/
theorem resolve_follows_chain (components : Components) (node : Node) :
    (∃ steps stop, Chain components node steps stop ∧ steps.length ≤ components.length + 1 ∧
      Halts components (steps.map Prod.fst) stop (resolve components node)) ∧
    (∀ n, resolve components node = .ok n ↔
      n.pending = none ∧ ∃ steps, Chain components node steps n) ∧
    ((∃ broken, resolve components node = .error broken) ↔
      ∃ steps stop, Chain components node steps stop ∧
        (IsForeign stop ∨ IsDangling components stop ∨ ¬(steps.map Prod.snd).Nodup)) ∧
    ∀ n, resolve components node = .ok n → resolve components n = .ok n := by
  refine ⟨?_, fun n => resolve_eq_ok_iff, exists_resolve_eq_error_iff, fun n h => ?_⟩
  · obtain ⟨steps, stop, hchain, hnodup, hhalts⟩ := exists_chain_resolve components node
    exact ⟨steps, stop, hchain, hchain.length_le hnodup, hhalts⟩
  · obtain ⟨hpending, _⟩ := resolve_eq_ok_iff.mp h
    exact resolve_eq_ok_iff.mpr ⟨hpending, [], .here n⟩

/-- A component that points at itself under another spelling of its name. -/
example :
    resolve [("a~b", { reference := some "#/components/schemas/a~0b" })]
        { reference := some "#/components/schemas/a~b" } =
      .error (.cyclic "#/components/schemas/a~0b") := by
  rfl

end Run

end ApiCommands.Schema
