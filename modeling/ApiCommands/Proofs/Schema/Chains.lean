import ApiCommands.Schema.Resolve
import Mathlib.Data.List.Perm.Subperm

namespace ApiCommands.Schema

/-!
# Chains of references

The bound on the number of steps never decides where a chain of references ends: no reference is
followed twice, and all but the first are references of components. So the end depends on the
components that the chain comes to and on no others.
-/

/-- The end of the chain of references from a node, some references being behind. -/
inductive Ends (components : Components) :
    List String → Node → Except BrokenReference Node → Prop where
  | concrete {followed : List String} {node : Node} (hpending : node.pending = none) :
      Ends components followed node (.ok node)
  | unsupported {followed : List String} {node : Node} {r : String}
      (hpending : node.pending = some r) (hname : componentName r = none) :
      Ends components followed node (.error (.unsupported r))
  | cyclic {followed : List String} {node : Node} {r name : String}
      (hpending : node.pending = some r) (hname : componentName r = some name)
      (hseen : r ∈ followed) : Ends components followed node (.error (.cyclic r))
  | unresolvable {followed : List String} {node : Node} {r name : String}
      (hpending : node.pending = some r) (hname : componentName r = some name)
      (hnew : r ∉ followed) (hmissing : components.lookup name = none) :
      Ends components followed node (.error (.unresolvable r))
  | step {followed : List String} {node target : Node} {r name : String}
      {result : Except BrokenReference Node} (hpending : node.pending = some r)
      (hname : componentName r = some name) (hnew : r ∉ followed)
      (htarget : components.lookup name = some target)
      (hrest : Ends components (r :: followed) target result) :
      Ends components followed node result

theorem Ends.unique {components : Components} {followed : List String} {node : Node}
    {result result' : Except BrokenReference Node} (h : Ends components followed node result)
    (h' : Ends components followed node result') : result = result' := by
  induction h with
  | concrete hpending => cases h' <;> grind
  | unsupported hpending hname => cases h' <;> grind
  | cyclic hpending hname hseen => cases h' <;> grind
  | unresolvable hpending hname hnew hmissing => cases h' <;> grind
  | step hpending hname hnew htarget _ ih =>
      cases h' with
      | step hpending' hname' _ htarget' hrest' =>
          cases hpending.symm.trans hpending'
          cases hname.symm.trans hname'
          cases htarget.symm.trans htarget'
          exact ih hrest'
      | _ => grind

/-- What is followed are different references of a list, so the steps run out only when it does. -/
theorem ends_follow {components : Components} {refs : List String}
    (hrefs : ∀ name target r, components.lookup name = some target → target.pending = some r →
      r ∈ refs) {limit : Nat} {followed : List String} {node : Node}
    (hnode : ∀ r, node.pending = some r → r ∈ refs) (hnodup : followed.Nodup)
    (hsub : followed ⊆ refs) (hlimit : refs.length ≤ limit + followed.length) :
    Ends components followed node (follow components limit followed node) := by
  fun_induction follow components limit followed node with
  | case1 limit followed node hpending => exact .concrete hpending
  | case2 limit followed node r hpending hname => exact .unsupported hpending hname
  | case3 limit followed node r hpending name hname hseen =>
      exact .cyclic hpending hname (by simpa using hseen)
  | case4 limit followed node r hpending name hname hnew hmissing =>
      exact .unresolvable hpending hname (by simpa using hnew) hmissing
  | case5 followed node r hpending name hname hnew target htarget =>
      have hall : r :: followed ⊆ refs := List.cons_subset.mpr ⟨hnode r hpending, hsub⟩
      have hdistinct : (r :: followed).Nodup :=
        List.nodup_cons.mpr ⟨by simpa using hnew, hnodup⟩
      have hlen := (List.subperm_of_subset hdistinct hall).length_le
      rw [List.length_cons] at hlen
      omega
  | case6 followed node r hpending name hname hnew target htarget limit ih =>
      have hnew : r ∉ followed := by simpa using hnew
      refine .step hpending hname hnew htarget (ih (hrefs name target · htarget) ?_ ?_ ?_)
      · exact List.nodup_cons.mpr ⟨hnew, hnodup⟩
      · exact List.cons_subset.mpr ⟨hnode r hpending, hsub⟩
      · rw [List.length_cons]
        omega

/-- The references that following can meet from a node: its own and those of the components. -/
def references (components : Components) (node : Node) : List String :=
  node.pending.toList ++ components.filterMap fun e => e.2.pending

theorem length_references_le (components : Components) (node : Node) :
    (references components node).length ≤ components.length + 1 := by
  have hcomponents := List.length_filterMap_le (fun e => e.2.pending) components
  rw [references, List.length_append]
  cases node.pending <;> simp <;> omega

theorem mem_references_of_pending {components : Components} {node : Node} {r : String}
    (h : node.pending = some r) : r ∈ references components node := by
  simp [references, h]

theorem mem_references_of_lookup {components : Components} {target : Node} {name r : String}
    (htarget : components.lookup name = some target) (hpending : target.pending = some r)
    (node : Node) : r ∈ references components node := by
  obtain ⟨before, after, rfl, _⟩ := List.lookup_eq_some_iff.mp htarget
  simp [references, hpending]

theorem ends_resolve (components : Components) (node : Node) :
    Ends components [] node (resolve components node) :=
  ends_follow (fun _ _ _ htarget hpending => mem_references_of_lookup htarget hpending node)
    (fun _ => mem_references_of_pending) List.nodup_nil (List.nil_subset _)
    (length_references_le components node)

/-- The names of components that references lead to from a node, whether they exist or not. -/
inductive Reaches (components : Components) : Node → String → Prop where
  | here {node : Node} {r name : String} (hpending : node.pending = some r)
      (hname : componentName r = some name) : Reaches components node name
  | beyond {node target : Node} {r name other : String} (hpending : node.pending = some r)
      (hname : componentName r = some name) (htarget : components.lookup name = some target)
      (hrest : Reaches components target other) : Reaches components node other

/-- Two tables of components do not differ where references from a node lead. -/
def AgreeFrom (components components' : Components) (node : Node) : Prop :=
  ∀ name, Reaches components node name → components.lookup name = components'.lookup name

theorem Ends.of_agree {components components' : Components} {followed : List String} {node : Node}
    {result : Except BrokenReference Node} (h : Ends components followed node result)
    (hagree : AgreeFrom components components' node) : Ends components' followed node result := by
  induction h with
  | concrete hpending => exact .concrete hpending
  | unsupported hpending hname => exact .unsupported hpending hname
  | cyclic hpending hname hseen => exact .cyclic hpending hname hseen
  | unresolvable hpending hname hnew hmissing =>
      have hsame := hagree _ (.here hpending hname)
      exact .unresolvable hpending hname hnew (hsame ▸ hmissing)
  | step hpending hname hnew htarget _ ih =>
      have hsame := hagree _ (.here hpending hname)
      refine .step hpending hname hnew (hsame ▸ htarget) (ih fun other hother => ?_)
      exact hagree other (.beyond hpending hname htarget hother)

theorem resolve_of_agree {components components' : Components} {node : Node}
    (h : AgreeFrom components components' node) :
    resolve components node = resolve components' node :=
  ((ends_resolve components node).of_agree h).unique (ends_resolve components' node)

end ApiCommands.Schema
