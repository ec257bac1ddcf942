import ApiCommands.Command.Tree
import ApiCommands.Proofs.Keys
import ApiCommands.Proofs.Naming
import Mathlib.Data.List.Forall2

namespace ApiCommands

/-!
# Siblings

The nodes that are made for some commands, one after the other at one place of the tree. Each
gets a name that no node before it has, which is its own name where that is free.
-/

/-- A node with the texts of a command and with all that the command needs to be run. -/
structure Node.StandsFor (n : Node) (c : Command) : Prop where
  about : n.about = c.short
  longAbout : n.longAbout = c.long
  endpoint : n.endpoint = some ⟨c.method, c.path, inputs c.params⟩

/-- What a command tells its node: the texts and the endpoint. -/
def Command.told (c : Command) : String × String × Endpoint :=
  (c.short, c.long, ⟨c.method, c.path, inputs c.params⟩)

/-- What a node with an endpoint tells; a grouping node tells nothing. -/
def Node.tells? (n : Node) : Option (String × String × Endpoint) :=
  n.endpoint.map fun e => (n.about, n.longAbout, e)

theorem Node.StandsFor.tells?_eq {n : Node} {c : Command} (h : n.StandsFor c) :
    n.tells? = some c.told := by
  simp [Node.tells?, Command.told, h.about, h.longAbout, h.endpoint]

theorem Node.standsFor_ofCommand (name : String) (c : Command) :
    (Node.ofCommand name c).StandsFor c := ⟨rfl, rfl, rfl⟩

namespace Tree

/-- Nodes stand for commands one by one, their names are distinct, and a command keeps its own
name unless a node before it has that name. -/
structure Siblings (cs : List Command) (ns : List Node) : Prop where
  nodup : (ns.map Node.name).Nodup
  standFor : List.Forall₂ (fun c n => n.StandsFor c) cs ns
  keepName : ∀ i c n, cs[i]? = some c → ns[i]? = some n →
    c.name ∉ (ns.take i).map Node.name → n.name = c.name

theorem uniqueName_notMem (taken : List String) (c : Command) : uniqueName taken c ∉ taken := by
  by_cases h : c.name ∈ taken
  · rw [uniqueName, if_pos (by simpa using h)]
    exact Naming.firstFree_notMem taken _
  · rw [uniqueName, if_neg (by simpa using h)]
    exact h

theorem uniqueName_of_notMem {taken : List String} {c : Command} (h : c.name ∉ taken) :
    uniqueName taken c = c.name := by
  simp [uniqueName, h]

theorem addTo_fst (ns : List Node) (c : Command) :
    (addTo ns c).1 = ns ++ [Node.ofCommand (uniqueName (ns.map Node.name) c) c] := rfl

theorem Siblings.nil : Siblings [] [] where
  nodup := List.nodup_nil
  standFor := .nil
  keepName := fun i c n hc => by simp at hc

theorem Siblings.exists_standsFor {cs : List Command} {ns : List Node} (h : Siblings cs ns)
    {n : Node} (hn : n ∈ ns) : ∃ c ∈ cs, n.StandsFor c :=
  exists_mem_of_forall₂ h.standFor.flip n hn

theorem Siblings.exists_node {cs : List Command} {ns : List Node} (h : Siblings cs ns) {c : Command}
    (hc : c ∈ cs) : ∃ n ∈ ns, n.StandsFor c :=
  exists_mem_of_forall₂ h.standFor c hc

theorem Siblings.filterMap_tells? {cs : List Command} {ns : List Node} (h : Siblings cs ns) :
    ns.filterMap Node.tells? = cs.map Command.told := by
  have hall := h.standFor
  clear h
  induction hall with
  | nil => rfl
  | cons hn _ ih => simp [hn.tells?_eq, ih]

theorem Siblings.addTo {cs : List Command} {ns : List Node} (h : Siblings cs ns) (c : Command) :
    Siblings (cs ++ [c]) (Tree.addTo ns c).1 := by
  have hlen : cs.length = ns.length := h.standFor.length_eq
  refine ⟨?_, ?_, ?_⟩
  · rw [addTo_fst, List.map_append, List.map_singleton]
    refine List.nodup_append.mpr ⟨h.nodup, List.nodup_singleton _, ?_⟩
    rintro name hname other hother rfl
    rw [List.mem_singleton.mp hother] at hname
    exact uniqueName_notMem _ c hname
  · rw [addTo_fst]
    exact List.rel_append h.standFor (.cons (Node.standsFor_ofCommand _ c) .nil)
  · intro i d n hd hn hfree
    rw [addTo_fst] at hn hfree
    rcases Nat.lt_trichotomy i ns.length with hi | rfl | hi
    · rw [List.getElem?_append_left (hlen ▸ hi)] at hd
      rw [List.getElem?_append_left hi] at hn
      rw [List.take_append_of_le_length (Nat.le_of_lt hi)] at hfree
      exact h.keepName i d n hd hn hfree
    · have hdc : d = c := by simpa [← hlen] using hd.symm
      have hnc : n = Node.ofCommand (uniqueName (ns.map Node.name) c) c := by simpa using hn.symm
      subst hdc hnc
      exact uniqueName_of_notMem (by simpa using hfree)
    · rw [List.getElem?_eq_none (by simp; omega)] at hn
      cases hn

def siblings (cs : List Command) : List Node := cs.foldl (fun ns c => (addTo ns c).1) []

@[simp] theorem siblings_nil : siblings [] = [] := rfl

theorem siblings_concat (cs : List Command) (c : Command) :
    siblings (cs ++ [c]) = (addTo (siblings cs) c).1 := by
  simp [siblings, List.foldl_append]

theorem siblings_spec (cs : List Command) : Siblings cs (siblings cs) := by
  induction cs using List.reverseRecOn with
  | nil => exact Siblings.nil
  | append_singleton cs c ih => exact siblings_concat cs c ▸ ih.addTo c

theorem siblings_eq_nil_iff {cs : List Command} : siblings cs = [] ↔ cs = [] := by
  have hlen := (siblings_spec cs).standFor.length_eq
  rw [← List.length_eq_zero_iff, ← hlen, List.length_eq_zero_iff]

theorem children_of_mem_siblings {cs : List Command} {n : Node} (h : n ∈ siblings cs) :
    n.children = [] := by
  induction cs using List.reverseRecOn with
  | nil => simp at h
  | append_singleton cs c ih =>
      rw [siblings_concat, addTo_fst, List.mem_append] at h
      rcases h with h | h
      · exact ih h
      · rw [List.mem_singleton.mp h]
        rfl

end Tree

end ApiCommands
