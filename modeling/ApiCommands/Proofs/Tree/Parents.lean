import ApiCommands.Proofs.Tree.Arrangement

namespace ApiCommands.Tree

/-!
# Parents

A command with a parent hangs below the node that bears the parent's name. That node only groups,
or is the node of a command of the top level, which has the name as its own or was given it because
its own was taken.
-/

/-- What a command may be called whose own name is taken: its name and its method, and a number
where that is taken, too. -/
def IsVariant (c : Command) (name : String) : Prop :=
  name = c.name ++ "-" ++ Text.asciiLower c.method ∨
    ∃ k, 2 ≤ k ∧ name = Naming.numberedName (c.name ++ "-" ++ Text.asciiLower c.method) k

/-- How a command came by the name of its node, which was made after some others. -/
inductive NamedAfter (before : List Node) (c : Command) (name : String) : Prop where
  | own (hname : name = c.name)
  | renamed (htaken : c.name ∈ before.map Node.name) (hname : IsVariant c name)

theorem namedAfter_uniqueName (before : List Node) (c : Command) :
    NamedAfter before c (uniqueName (before.map Node.name) c) := by
  by_cases htaken : c.name ∈ before.map Node.name
  · refine .renamed htaken ?_
    rw [uniqueName, if_pos (by simpa using htaken)]
    by_cases hstem : c.name ++ "-" ++ Text.asciiLower c.method ∈ before.map Node.name
    · obtain ⟨k, hk, heq, _⟩ := Naming.exists_firstFree_eq hstem
      exact Or.inr ⟨k, hk, heq⟩
    · exact Or.inl (Naming.firstFree_of_notMem hstem)
  · exact .own (uniqueName_of_notMem htaken)

/-- The node at a place among siblings is that of the command at this place. -/
theorem getElem?_siblings {cs : List Command} {i : Nat} {n : Node}
    (h : (siblings cs)[i]? = some n) :
    ∃ c, cs[i]? = some c ∧ n.StandsFor c ∧ NamedAfter ((siblings cs).take i) c n.name := by
  induction cs using List.reverseRecOn with
  | nil => simp at h
  | append_singleton cs c ih =>
      have hlen : cs.length = (siblings cs).length := (siblings_spec cs).standFor.length_eq
      rw [siblings_concat, addTo_fst] at h ⊢
      rcases Nat.lt_or_ge i (siblings cs).length with hi | hi
      · rw [List.getElem?_append_left hi] at h
        obtain ⟨d, hd, hstands, hname⟩ := ih h
        refine ⟨d, ?_, hstands, ?_⟩
        · rw [List.getElem?_append_left (hlen ▸ hi), hd]
        · rwa [List.take_append_of_le_length (Nat.le_of_lt hi)]
      · rw [List.getElem?_append_right hi, List.getElem?_singleton] at h
        split at h
        case isFalse => cases h
        case isTrue hzero =>
          cases h
          have hlast : i = (siblings cs).length := by omega
          subst hlast
          refine ⟨c, by simp [← hlen], Node.standsFor_ofCommand _ c, ?_⟩
          rw [List.take_left]
          exact namedAfter_uniqueName _ c

theorem NamedAfter.congr {before before' : List Node} {c : Command} {name : String}
    (h : NamedAfter before c name) (hnames : before.map Node.name = before'.map Node.name) :
    NamedAfter before' c name := by
  cases h with
  | own hname => exact .own hname
  | renamed htaken hname => exact .renamed (hnames ▸ htaken) hname

/-- A node of the top level groups only, or is that of a command of the top level. -/
theorem grouping_or_named {cs : List Command} {n : Node} (hn : n ∈ ofCommands cs) :
    n.isGrouping = true ∨ ∃ (i : Nat) (d : Command), (cs.filter isTop)[i]? = some d ∧
      (ofCommands cs)[i]? = some n ∧ n.StandsFor d ∧
      NamedAfter ((ofCommands cs).take i) d n.name := by
  rw [ofCommands_eq] at hn ⊢
  obtain ⟨m, hm, rfl⟩ := List.mem_map.mp hn
  rcases List.mem_append.mp hm with hm | hm
  · obtain ⟨i, hi⟩ := List.getElem?_of_mem hm
    obtain ⟨d, hd, hstands, hname⟩ := getElem?_siblings hi
    have hlt : i < (siblings (cs.filter isTop)).length := (List.getElem?_eq_some_iff.mp hi).1
    refine Or.inr ⟨i, d, hd, ?_, ⟨hstands.about, hstands.longAbout, hstands.endpoint⟩, ?_⟩
    · rw [List.getElem?_map, skeleton, List.getElem?_append_left hlt, hi, Option.map_some]
    · apply hname.congr
      rw [← List.map_take, List.map_map, skeleton,
        List.take_append_of_le_length (Nat.le_of_lt hlt)]
      rfl
  · obtain ⟨parent, _, rfl⟩ := List.mem_map.mp hm
    exact Or.inl rfl

/-- The children of a node are those commands that name it as their parent. So a command with a
parent is a child of the one node of that name, and this groups only or is the node of a command of
the top level that bears the name, be it its own or one that it was given. -/
theorem exists_parent_node {cs : List Command} {c : Command} (hc : c ∈ cs)
    (hnested : isTop c = false) :
    (∀ m ∈ ofCommands cs,
      Siblings (cs.filter fun d => d.parent == m.name && !isTop d) m.children) ∧
    ∃ n ∈ ofCommands cs, (∀ m ∈ ofCommands cs, m.name = c.parent ↔ m = n) ∧
      (∃ k ∈ n.children, k.StandsFor c) ∧
      (n.isGrouping = true ∨ ∃ (i : Nat) (d : Command), (cs.filter isTop)[i]? = some d ∧
        (ofCommands cs)[i]? = some n ∧ n.StandsFor d ∧
        NamedAfter ((ofCommands cs).take i) d c.parent) := by
  have harranged := arrangement_ofCommands cs
  obtain ⟨n, hn, hname⟩ := harranged.parent c hc hnested
  refine ⟨harranged.children, n, hn, fun m hm => ?_, ?_, hname ▸ grouping_or_named hn⟩
  · constructor
    · exact fun hsame => List.inj_on_of_nodup_map harranged.nodup hm hn (hsame.trans hname.symm)
    · rintro rfl
      exact hname
  · have hmem : c ∈ cs.filter fun d => d.parent == n.name && !isTop d :=
      List.mem_filter.mpr ⟨hc, by simp [hname, hnested]⟩
    exact (harranged.children n hn).exists_node hmem

/-- Commands of which the second takes away the own name of the third, which has a child. -/
def renamedCommands : List Command :=
  [⟨"a", "", "", "", "GET", "/a", []⟩, ⟨"a", "", "", "", "POST", "/a", []⟩,
    ⟨"a-post", "", "", "", "GET", "/a-post", []⟩, ⟨"b", "a-post", "", "", "GET", "/a-post/b", []⟩]

/-- A command that was given the name of a parent takes the child in, though the name is the own
one of another command. -/
theorem renamed_takes_child :
    ∃ c ∈ renamedCommands, c.parent ≠ "" ∧ ∃ n ∈ ofCommands renamedCommands,
      (∃ k ∈ n.children, k.StandsFor c) ∧ n.isGrouping = false ∧
      ∀ d ∈ renamedCommands, isTop d = true → d.name = c.parent → ¬n.StandsFor d := by
  have hmade : (ofCommands renamedCommands)[1]? = some
      { Node.ofCommand "a-post" ⟨"a", "", "", "", "POST", "/a", []⟩ with
        children := [Node.ofCommand "b" ⟨"b", "a-post", "", "", "GET", "/a-post/b", []⟩] } := by
    rfl
  refine ⟨⟨"b", "a-post", "", "", "GET", "/a-post/b", []⟩, by simp [renamedCommands], by simp, _,
    List.mem_of_getElem? hmade, ?_, rfl, ?_⟩
  · exact ⟨_, List.mem_singleton_self _, Node.standsFor_ofCommand _ _⟩
  · intro d hd htop hname hstands
    have hendpoint := hstands.endpoint
    simp only [renamedCommands, List.mem_cons, List.not_mem_nil, or_false] at hd
    -- The names of the first two differ, the endpoint of the third does, and the last has a parent.
    rcases hd with rfl | rfl | rfl | rfl
    · simp at hname
    · simp at hname
    · simp [Node.ofCommand] at hendpoint
    · simp [isTop] at htop

/-- The child is below the one node with the name of its parent. -/
theorem exists_parent_node_renamed :
    let c : Command := ⟨"b", "a-post", "", "", "GET", "/a-post/b", []⟩
    c ∈ renamedCommands ∧ isTop c = false ∧ ∃ n ∈ ofCommands renamedCommands,
      (∀ m ∈ ofCommands renamedCommands, m.name = c.parent ↔ m = n) ∧
      (∃ k ∈ n.children, k.StandsFor c) ∧
      (n.isGrouping = true ∨ ∃ (i : Nat) (d : Command), (renamedCommands.filter isTop)[i]? = some d ∧
        (ofCommands renamedCommands)[i]? = some n ∧ n.StandsFor d ∧
        NamedAfter ((ofCommands renamedCommands).take i) d c.parent) := by
  intro c
  have hc : c ∈ renamedCommands := by simp [renamedCommands, c]
  have hnested : isTop c = false := by decide
  exact ⟨hc, hnested, (exists_parent_node hc hnested).2⟩

end ApiCommands.Tree
