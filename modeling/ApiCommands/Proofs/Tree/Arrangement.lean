import ApiCommands.Proofs.Text.Firsts
import ApiCommands.Proofs.Tree.Siblings

namespace ApiCommands

/-!
# The arrangement of commands in a tree

Building a tree is filling a skeleton: the nodes of the commands of the top level, then a grouping
node for each new parent in the order in which the parents come. The children of a node are the
siblings made for the commands that name it as their parent.
-/

namespace Tree

open Text (Template.firsts)
open Text.Template

def adopt (c : Command) (n : Node) : Node :=
  if n.name = c.parent then { n with children := (addTo n.children c).1 } else n

theorem adopt_of_ne {c : Command} {n : Node} (h : n.name ≠ c.parent) : adopt c n = n := by
  simp [adopt, h]

theorem addChild_of_mem {c : Command} {t : Tree} (hnodup : (t.map Node.name).Nodup)
    (h : c.parent ∈ t.map Node.name) : (addChild c t).1 = t.map (adopt c) := by
  induction t with
  | nil => simp at h
  | cons n t ih =>
      rw [List.map_cons, List.nodup_cons] at hnodup
      by_cases hn : n.name = c.parent
      · have hrest : t.map (adopt c) = t := by
          refine (List.map_congr_left fun m hm => adopt_of_ne ?_).trans (List.map_id t)
          intro hm'
          exact hnodup.1 (hn ▸ hm' ▸ List.mem_map_of_mem hm)
        simp [addChild, adopt, hn, hrest]
      · have hmem : c.parent ∈ t.map Node.name := by
          simpa [Ne.symm hn] using h
        simp [addChild, adopt_of_ne hn, hn, ih hnodup.2 hmem]

theorem addChild_of_notMem {c : Command} {t : Tree} (h : c.parent ∉ t.map Node.name) :
    (addChild c t).1 = t ++ [adopt c (Node.grouping c.parent)] := by
  induction t with
  | nil => simp [addChild, adopt, Node.grouping]
  | cons n t ih =>
      rw [List.map_cons, List.mem_cons, not_or] at h
      simp [addChild, Ne.symm h.1, ih h.2]

/-- The nodes of the top level without the children that come from some commands. -/
def skeleton (tops : List Node) (cs : List Command) : List Node :=
  tops ++ (firsts (tops.map Node.name) (cs.map Command.parent)).map Node.grouping

/-- A node with its children among some commands. -/
def fill (cs : List Command) (n : Node) : Node :=
  { n with children := siblings (cs.filter fun c => c.parent == n.name) }

@[simp] theorem name_fill (cs : List Command) (n : Node) : (fill cs n).name = n.name := rfl

theorem names_skeleton (tops : List Node) (cs : List Command) :
    (skeleton tops cs).map Node.name =
      tops.map Node.name ++ firsts (tops.map Node.name) (cs.map Command.parent) := by
  simp [skeleton, Function.comp_def, Node.grouping]

theorem mem_names_skeleton {tops : List Node} {cs : List Command} {name : String} :
    name ∈ (skeleton tops cs).map Node.name ↔
      name ∈ tops.map Node.name ∨ name ∈ cs.map Command.parent := by
  rw [names_skeleton, List.mem_append, mem_firsts]
  tauto

theorem nodup_names_skeleton {tops : List Node} (h : (tops.map Node.name).Nodup)
    (cs : List Command) : ((skeleton tops cs).map Node.name).Nodup := by
  rw [names_skeleton]
  refine List.nodup_append.mpr ⟨h, nodup_firsts _ _, ?_⟩
  rintro name hname other hother rfl
  exact (mem_firsts.mp hother).2 hname

theorem fill_concat (cs : List Command) (c : Command) (n : Node) :
    fill (cs ++ [c]) n = adopt c (fill cs n) := by
  by_cases h : n.name = c.parent
  · simp [fill, adopt, h, List.filter_append, siblings_concat]
  · simp [fill, adopt, h, List.filter_append, Ne.symm h]

theorem skeleton_concat_of_mem {tops : List Node} {cs : List Command} {c : Command}
    (h : c.parent ∈ (skeleton tops cs).map Node.name) :
    skeleton tops (cs ++ [c]) = skeleton tops cs := by
  rw [mem_names_skeleton, ← List.mem_append] at h
  rw [skeleton, List.map_append, firsts_append, List.map_singleton, firsts_cons_of_mem h,
    firsts_nil, List.append_nil, skeleton]

theorem skeleton_concat_of_notMem {tops : List Node} {cs : List Command} {c : Command}
    (h : c.parent ∉ (skeleton tops cs).map Node.name) :
    skeleton tops (cs ++ [c]) = skeleton tops cs ++ [Node.grouping c.parent] := by
  rw [mem_names_skeleton, ← List.mem_append] at h
  rw [skeleton, List.map_append, firsts_append, List.map_singleton, firsts_cons_of_notMem h,
    firsts_nil, skeleton, List.map_append, List.append_assoc, List.map_singleton]

/-- A node of a name that no command has as its parent stays without children. -/
theorem fill_grouping {tops : List Node} {cs : List Command} {parent : String}
    (h : parent ∉ (skeleton tops cs).map Node.name) :
    fill cs (Node.grouping parent) = Node.grouping parent := by
  have hnone : cs.filter (fun c => c.parent == parent) = [] := by
    refine List.filter_eq_nil_iff.mpr fun c hc heq => h (mem_names_skeleton.mpr (Or.inr ?_))
    exact List.mem_map.mpr ⟨c, hc, by simpa using heq⟩
  simp [fill, Node.grouping, hnone]

theorem foldl_addChild {tops : List Node} (hnodup : (tops.map Node.name).Nodup)
    (hleaves : ∀ n ∈ tops, n.children = []) (cs : List Command) :
    cs.foldl (fun t c => (addChild c t).1) tops = (skeleton tops cs).map (fill cs) := by
  induction cs using List.reverseRecOn with
  | nil =>
      have hfill : tops.map (fill []) = tops := by
        refine (List.map_congr_left fun n hn => ?_).trans (List.map_id tops)
        obtain ⟨name, about, longAbout, endpoint, children⟩ := n
        simp [fill, ← hleaves _ hn]
      simp [skeleton, hfill]
  | append_singleton cs c ih =>
      have hnames : ((skeleton tops cs).map (fill cs)).map Node.name =
          (skeleton tops cs).map Node.name := by
        simp [Function.comp_def]
      rw [List.foldl_append, List.foldl_cons, List.foldl_nil, ih]
      by_cases h : c.parent ∈ (skeleton tops cs).map Node.name
      · rw [addChild_of_mem (hnames ▸ nodup_names_skeleton hnodup cs) (hnames ▸ h), List.map_map,
          skeleton_concat_of_mem h]
        exact List.map_congr_left fun n _ => (fill_concat cs c n).symm
      · rw [addChild_of_notMem (hnames ▸ h), skeleton_concat_of_notMem h, List.map_append,
          List.map_singleton, fill_concat, fill_grouping h]
        congr 1
        refine List.map_congr_left fun n hn => ?_
        have hne : n.name ≠ c.parent := fun heq => h (heq ▸ List.mem_map_of_mem hn)
        rw [fill_concat, adopt_of_ne (by simpa using hne)]

theorem foldl_add_fst (f : List Node → Command → List Node × List Notice) (cs : List Command)
    (state : Tree × List Notice) :
    (cs.foldl (add f) state).1 = cs.foldl (fun t c => (f t c).1) state.1 := by
  induction cs generalizing state with
  | nil => rfl
  | cons c cs ih => exact ih (add f state c)

def nested (cs : List Command) : List Command := cs.filter (!isTop ·)

theorem ofCommands_eq (cs : List Command) :
    ofCommands cs =
      (skeleton (siblings (cs.filter isTop)) (nested cs)).map (fill (nested cs)) := by
  rw [ofCommands, build, foldl_add_fst, foldl_add_fst]
  exact foldl_addChild (siblings_spec _).nodup (fun _ => children_of_mem_siblings) (nested cs)

/-! ### What a tree holds -/

def nodes (t : Tree) : List Node := t.flatMap fun n => n :: n.children

/-- A tree holds commands: each command has one node, at the top level where it has no parent,
else below the node of its parent's name. -/
structure Arrangement (cs : List Command) (t : Tree) : Prop where
  nodup : (t.map Node.name).Nodup
  find : ∀ n ∈ t, find? n.name t = some n
  /-- The commands of the top level come first, then the nodes that only group. -/
  top : ∃ tops groups, t = tops ++ groups ∧ Siblings (cs.filter isTop) tops ∧
    ∀ g ∈ groups, g.isGrouping = true ∧ g.children ≠ []
  /-- Every node has the commands of its name as its children, in their order. -/
  children : ∀ n ∈ t, Siblings (cs.filter fun c => c.parent == n.name && !isTop c) n.children
  findChild : ∀ n ∈ t, ∀ k ∈ n.children, find? k.name n.children = some k
  leaf : ∀ n ∈ t, ∀ k ∈ n.children, k.isGrouping = false ∧ k.children = []
  parent : ∀ c ∈ cs, isTop c = false → ∃ n ∈ t, n.name = c.parent
  /-- The nodes with an endpoint are the nodes of the commands, one for each. -/
  correspond : ((nodes t).filterMap Node.tells?).Perm (cs.map Command.told)

namespace Arrangement

variable {cs : List Command} {t : Tree} {n : Node}

theorem top_or_child (h : Arrangement cs t) (hn : n ∈ nodes t) :
    n ∈ t ∨ n.isGrouping = false ∧ n.children = [] := by
  obtain ⟨p, hp, hn⟩ := List.mem_flatMap.mp hn
  rcases List.mem_cons.mp hn with rfl | hn
  · exact Or.inl hp
  · exact Or.inr (h.leaf p hp n hn)

theorem nodup_children (h : Arrangement cs t) (hn : n ∈ nodes t) :
    (n.children.map Node.name).Nodup := by
  rcases h.top_or_child hn with hn | ⟨_, hnil⟩
  · exact (h.children n hn).nodup
  · simp [hnil]

theorem children_ne_nil (h : Arrangement cs t) (hn : n ∈ nodes t) (hgrouping : n.isGrouping = true) :
    n.children ≠ [] := by
  rcases h.top_or_child hn with hn | ⟨hcommand, _⟩
  · obtain ⟨tops, groups, rfl, htops, hgroups⟩ := h.top
    rcases List.mem_append.mp hn with hn | hn
    · obtain ⟨c, _, hc⟩ := htops.exists_standsFor hn
      simp [Node.isGrouping, hc.endpoint] at hgrouping
    · exact (hgroups n hn).2
  · simp [hcommand] at hgrouping

end Arrangement

theorem Siblings.map_fill {cs : List Command} {ns : List Node} (h : Siblings cs ns)
    (ds : List Command) : Siblings cs (ns.map (fill ds)) where
  nodup := by simpa [Function.comp_def] using h.nodup
  standFor := by
    refine List.forall₂_map_right_iff.mpr (h.standFor.imp fun c n hn => ?_)
    exact ⟨hn.about, hn.longAbout, hn.endpoint⟩
  keepName := by
    intro i c n hc hn hfree
    obtain ⟨m, hm, rfl⟩ := Option.map_eq_some_iff.mp (List.getElem?_map ▸ hn)
    exact h.keepName i c m hc hm (by simpa [Function.comp_def] using hfree)

theorem filterMap_children_perm {cs : List Command} {t : Tree} (hnodup : (t.map Node.name).Nodup)
    (hchildren : ∀ n ∈ t, Siblings (cs.filter fun c => c.parent == n.name) n.children)
    (hparent : ∀ c ∈ cs, c.parent ∈ t.map Node.name) :
    ((t.flatMap Node.children).filterMap Node.tells?).Perm (cs.map Command.told) := by
  have hparts : (t.flatMap Node.children).filterMap Node.tells? =
      ((t.map Node.name).flatMap fun name => cs.filter fun c => c.parent == name).map
        Command.told := by
    rw [List.filterMap_flatMap, List.flatMap_map, List.map_flatMap]
    exact List.flatMap_congr fun n hn => (hchildren n hn).filterMap_tells?
  rw [hparts]
  exact (flatMap_filter_perm Command.parent hnodup hparent).map Command.told

theorem nodes_perm (t : Tree) : (nodes t).Perm (t ++ t.flatMap Node.children) := by
  simpa [nodes] using (List.flatMap_append_perm t (fun n => [n]) Node.children).symm

theorem nested_filter_parent (cs : List Command) (name : String) :
    (nested cs).filter (fun c => c.parent == name) =
      cs.filter fun c => c.parent == name && !isTop c :=
  List.filter_filter

theorem names_ofCommands (cs : List Command) :
    (ofCommands cs).map Node.name =
      (skeleton (siblings (cs.filter isTop)) (nested cs)).map Node.name := by
  rw [ofCommands_eq, List.map_map]
  rfl

theorem nodup_names_ofCommands (cs : List Command) :
    ((ofCommands cs).map Node.name).Nodup :=
  names_ofCommands cs ▸ nodup_names_skeleton (siblings_spec _).nodup _

theorem children_ofCommands {cs : List Command} {n : Node} (h : n ∈ ofCommands cs) :
    n.children = siblings (cs.filter fun c => c.parent == n.name && !isTop c) := by
  rw [ofCommands_eq] at h
  obtain ⟨m, _, rfl⟩ := List.mem_map.mp h
  rw [← nested_filter_parent]
  rfl

theorem fill_grouping_ne_nil {seen : List String} {cs : List Command} {parent : String}
    (h : parent ∈ firsts seen (cs.map Command.parent)) :
    (fill cs (Node.grouping parent)).children ≠ [] := by
  obtain ⟨c, hc, rfl⟩ := List.mem_map.mp (mem_firsts.mp h).1
  have hmem : c ∈ cs.filter fun d => d.parent == c.parent := List.mem_filter.mpr ⟨hc, by simp⟩
  exact fun hnil => List.ne_nil_of_mem hmem (siblings_eq_nil_iff.mp hnil)

theorem top_ofCommands (cs : List Command) :
    ∃ tops groups, ofCommands cs = tops ++ groups ∧ Siblings (cs.filter isTop) tops ∧
      ∀ g ∈ groups, g.isGrouping = true ∧ g.children ≠ [] := by
  refine ⟨_, _, (ofCommands_eq cs).trans List.map_append, (siblings_spec _).map_fill _, ?_⟩
  intro g hg
  rw [List.map_map] at hg
  obtain ⟨parent, hparent, rfl⟩ := List.mem_map.mp hg
  exact ⟨rfl, fill_grouping_ne_nil hparent⟩

theorem exists_parent_ofCommands {cs : List Command} {c : Command} (hc : c ∈ cs)
    (hnested : isTop c = false) : c.parent ∈ (ofCommands cs).map Node.name := by
  have hmem : c ∈ nested cs := List.mem_filter.mpr ⟨hc, by simp [hnested]⟩
  rw [names_ofCommands, mem_names_skeleton]
  exact Or.inr (List.mem_map_of_mem hmem)

theorem correspond_ofCommands (cs : List Command) :
    ((nodes (ofCommands cs)).filterMap Node.tells?).Perm (cs.map Command.told) := by
  obtain ⟨tops, groups, heq, htops, hgroups⟩ := top_ofCommands cs
  have htop : (ofCommands cs).filterMap Node.tells? = (cs.filter isTop).map Command.told := by
    have hnone : groups.filterMap Node.tells? = [] := by
      refine List.filterMap_eq_nil_iff.mpr fun g hg => ?_
      simpa [Node.isGrouping, Node.tells?] using (hgroups g hg).1
    rw [heq, List.filterMap_append, htops.filterMap_tells?, hnone, List.append_nil]
  have hchildren : (((ofCommands cs).flatMap Node.children).filterMap Node.tells?).Perm
      ((nested cs).map Command.told) := by
    refine filterMap_children_perm (nodup_names_ofCommands cs) (fun n hn => ?_) fun c hc => ?_
    · rw [children_ofCommands hn, nested_filter_parent]
      exact siblings_spec _
    · obtain ⟨hc, hnested⟩ := List.mem_filter.mp hc
      exact exists_parent_ofCommands hc (by simpa using hnested)
  calc
    ((nodes (ofCommands cs)).filterMap Node.tells?).Perm
        ((ofCommands cs ++ (ofCommands cs).flatMap Node.children).filterMap Node.tells?) :=
      (nodes_perm _).filterMap _
    _ = (cs.filter isTop).map Command.told ++
          ((ofCommands cs).flatMap Node.children).filterMap Node.tells? := by
      rw [List.filterMap_append, htop]
    (List.Perm _ ((cs.filter isTop ++ nested cs).map Command.told)) := by
      rw [List.map_append]
      exact hchildren.append_left _
    (List.Perm _ (cs.map Command.told)) :=
      (List.filter_append_perm isTop cs).map _

theorem arrangement_ofCommands (cs : List Command) : Arrangement cs (ofCommands cs) := by
  refine
    { nodup := nodup_names_ofCommands cs
      find := fun n hn => find?_of_mem (nodup_names_ofCommands cs) hn
      top := top_ofCommands cs
      children := fun n hn => children_ofCommands hn ▸ siblings_spec _
      findChild := fun n hn k hk => ?_
      leaf := fun n hn k hk => ?_
      parent := fun c hc hnested => ?_
      correspond := correspond_ofCommands cs }
  · exact find?_of_mem (children_ofCommands hn ▸ siblings_spec _).nodup hk
  · rw [children_ofCommands hn] at hk
    obtain ⟨c, _, hc⟩ := (siblings_spec _).exists_standsFor hk
    exact ⟨by simp [Node.isGrouping, hc.endpoint], children_of_mem_siblings hk⟩
  · obtain ⟨n, hn, hname⟩ := List.mem_map.mp (exists_parent_ofCommands hc hnested)
    exact ⟨n, hn, hname⟩

/-- Building a tree loses, doubles and mixes up no command. The order in which commands of the top
level and other commands follow each other does not matter. -/
theorem build_arranges (cs ds : List Command) :
    Arrangement cs (ofCommands cs) ∧
      (cs.filter isTop = ds.filter isTop → nested cs = nested ds →
        ofCommands cs = ofCommands ds) := by
  refine ⟨arrangement_ofCommands cs, fun htop hnested => ?_⟩
  rw [ofCommands_eq, ofCommands_eq, htop, hnested]

/-- A child may come before the command that is its parent. -/
theorem build_arranges_child_first :
    let parent : Command := ⟨"a", "", "", "", "GET", "/a", []⟩
    let child : Command := ⟨"b", "a", "", "", "GET", "/a/b", []⟩
    Arrangement [child, parent] (ofCommands [child, parent]) ∧
      ofCommands [child, parent] = ofCommands [parent, child] :=
  (build_arranges [⟨"b", "a", "", "", "GET", "/a/b", []⟩, ⟨"a", "", "", "", "GET", "/a", []⟩]
    [⟨"a", "", "", "", "GET", "/a", []⟩, ⟨"b", "a", "", "", "GET", "/a/b", []⟩]).imp id
    fun h => h (by decide) (by decide)

end Tree

end ApiCommands
