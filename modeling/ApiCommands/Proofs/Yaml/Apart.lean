import ApiCommands.Proofs.Yaml.Nodes

namespace ApiCommands.Yaml

/-!
# Values told apart

Values whose documents are the same up to the line breaks at the end are the same, or differ in
the line breaks of a kept block that both documents end with.
-/

open Json (Value)

/-- A node is told from every other by its text and what follows, after a mark or a name. -/
structure Apart (v : Value) : Prop where
  node {indent inner : Nat} {w : Value} {r r' : List Char} (hle : indent ≤ inner) (hw : w.Denotes)
    (hr : Follows indent r) (hr' : Follows indent r')
    (h : nodeText indent inner v ++ r = nodeText indent inner w ++ r') :
    Told (v = w) (Alike v w) r r'
  name {indent : Nat} {w : Value} {r r' : List Char} (hw : w.Denotes)
    (hr : FollowsItems indent r) (hr' : FollowsItems indent r')
    (h : afterName indent v ++ r = afterName indent w ++ r') : Told (v = w) (Alike v w) r r'

section Items

variable {indent : Nat} {vs ws : List Value} {r r' : List Char}

theorem itemText_append (v : Value) (x : List Char) :
    itemText indent v ++ x = '-' :: ' ' :: (nodeText (indent + 2) (indent + 2) v ++ x) := by
  rw [itemText, afterMark_eq]
  rfl

theorem follows_items (hr : FollowsItems indent r) (vs : List Value) :
    Follows (indent + 2) (lines indent (itemText indent) vs ++ r) := by
  cases vs with
  | nil => exact hr.deeper
  | cons v vs =>
      rw [lines_cons_append, itemText_append]
      exact .below (by omega) (by decide) rfl _

theorem items_inj (hvs : ∀ v ∈ vs, Apart v) (hws : ∀ w ∈ ws, w.Denotes)
    (hr : FollowsItems indent r) (hr' : FollowsItems indent r')
    (h : lines indent (itemText indent) vs ++ r = lines indent (itemText indent) ws ++ r') :
    Told (vs = ws) (AlikeLast Alike vs ws) r r' := by
  have hnext : ∀ vs r, FollowsItems indent r →
      Follows (indent + 2) (lines indent (itemText indent) vs ++ r) :=
    fun vs r hr => follows_items hr vs
  refine lines_inj ?_ ?_ hnext ?_ hr hr' h
  · exact fun r hr => (follows_of_breaks hr indent).items
  · intro r hr v x
    rw [itemText_append]
    exact hr.not_item _
  · intro v hv w hw r r' hr hr' h
    rw [itemText_append, itemText_append] at h
    exact (hvs v hv).node le_rfl (hws w hw) hr hr' (List.cons.inj (List.cons.inj h).2).2

end Items

/-- Members that differ in alike values. -/
def AlikeMembers (m m' : String × Value) : Prop := m.1 = m'.1 ∧ Alike m.2 m'.2

section Members

variable {indent : Nat} {name name' : String} {v w : Value} {r r' : List Char}

theorem ends_afterName (indent : Nat) (v : Value) (r : List Char) :
    Ends (':' :: (afterName indent v ++ r)) := by
  obtain ⟨c, rest, hafter, hc⟩ := exists_afterName indent v
  rw [hafter]
  exact .colon hc _

theorem memberText_inj_of_short (hshort : isShortName name = true)
    (hshort' : isShortName name' = true)
    (h : memberText indent (name, v) ++ r = memberText indent (name', w) ++ r') :
    name = name' ∧ afterName indent v ++ r = afterName indent w ++ r' := by
  rw [memberText_of_short indent hshort, memberText_of_short indent hshort', List.append_assoc,
    List.append_assoc, List.cons_append, List.cons_append] at h
  have hname := scalar_of_isShortName hshort 0 (indent + 2)
  obtain ⟨hsame, hrest⟩ := hname.inj (scalar_of_isShortName hshort' 0 (indent + 2))
    (ends_afterName indent v r) (ends_afterName indent w r') h
  exact ⟨Value.string.inj hsame, (List.cons.inj hrest).2⟩

/-- A long name may be a block, but a line follows it, so that no line break of it is lost. -/
theorem memberText_inj_of_long (hlong : isShortName name = false)
    (hlong' : isShortName name' = false)
    (h : memberText indent (name, v) ++ r = memberText indent (name', w) ++ r') :
    name = name' ∧ nodeText (indent + 2) (indent + 2) v ++ r =
      nodeText (indent + 2) (indent + 2) w ++ r' := by
  rw [memberText_of_long indent hlong, memberText_of_long indent hlong'] at h
  simp only [List.cons_append, List.append_assoc] at h
  have hbelow : ∀ x, Follows (indent + 2) (spaces indent ++ ':' :: x) :=
    fun x => .below (by omega) (by decide) rfl x
  rcases leafText_inj (.string name) (.string name') trivial trivial (hbelow _) (hbelow _)
    (List.cons.inj (List.cons.inj h).2).2 with ⟨hsame, hrest⟩ | ⟨⟨k, hk⟩, -⟩
  · exact ⟨Value.string.inj hsame,
      (List.cons.inj (List.cons.inj (List.append_cancel_left hrest)).2).2⟩
  · exact ((Follows.breaks k).ne_line rfl _ hk.symm).elim

theorem memberText_short_ne_long (hshort : isShortName name = true)
    (hlong : isShortName name' = false) :
    memberText indent (name, v) ++ r ≠ memberText indent (name', w) ++ r' := by
  rw [memberText_of_short indent hshort, memberText_of_long indent hlong, List.append_assoc]
  exact (scalar_of_isShortName hshort 0 (indent + 2)).ne_mark (.inr rfl) _

theorem memberText_inj (hv : Apart v) (hw : w.Denotes) (hr : FollowsItems indent r)
    (hr' : FollowsItems indent r')
    (h : memberText indent (name, v) ++ r = memberText indent (name', w) ++ r') :
    Told ((name, v) = (name', w)) (AlikeMembers (name, v) (name', w)) r r' := by
  have hmember : name = name' → Told (v = w) (Alike v w) r r' →
      Told ((name, v) = (name', w)) (AlikeMembers (name, v) (name', w)) r r' := by
    rintro rfl htold
    exact htold.imp (congrArg _) fun halike => ⟨rfl, halike⟩
  cases hshort : isShortName name with
  | true =>
      cases hshort' : isShortName name' with
      | true =>
          obtain ⟨hname, hrest⟩ := memberText_inj_of_short hshort hshort' h
          exact hmember hname (hv.name hw hr hr' hrest)
      | false => exact (memberText_short_ne_long hshort hshort' h).elim
  | false =>
      cases hshort' : isShortName name' with
      | true => exact (memberText_short_ne_long hshort' hshort h.symm).elim
      | false =>
          obtain ⟨hname, hrest⟩ := memberText_inj_of_long hshort hshort' h
          exact hmember hname (hv.node le_rfl hw hr.deeper hr'.deeper hrest)

theorem follows_members (hr : Follows indent r) (ms : List (String × Value)) :
    FollowsItems indent (lines indent (memberText indent) ms ++ r) := by
  cases ms with
  | nil => exact hr.items
  | cons m ms =>
      rw [lines_cons_append]
      have hopens := opens_memberText indent 0 m (lines indent (memberText indent) ms ++ r)
      constructor
      · obtain ⟨c, rest, heq, hspace, hbreak⟩ := hopens.head
        rw [heq]
        exact .below indent.lt_succ_self hspace hbreak rest
      · intro x h
        rw [List.append_cancel_left h] at hopens
        cases hopens.unique (.item x)

theorem members_inj {ms ms' : List (String × Value)} (hms : ∀ m ∈ ms, Apart m.2)
    (hms' : ∀ m ∈ ms', m.2.Denotes) (hr : Follows indent r) (hr' : Follows indent r')
    (h : lines indent (memberText indent) ms ++ r = lines indent (memberText indent) ms' ++ r') :
    Told (ms = ms') (AlikeLast AlikeMembers ms ms') r r' := by
  have hnext : ∀ ms r, Follows indent r →
      FollowsItems indent (lines indent (memberText indent) ms ++ r) :=
    fun ms r hr => follows_members hr ms
  refine lines_inj ?_ ?_ hnext ?_ hr hr' h
  · exact fun r hr => follows_of_breaks hr indent
  · intro r hr m x
    obtain ⟨c, rest, heq, -, hbreak⟩ := (opens_memberText indent 0 m x).head
    rw [heq]
    exact hr.ne_line hbreak rest
  · rintro ⟨name, v⟩ hm ⟨name', w⟩ hm' _ _ hr hr' h
    exact memberText_inj (hms _ hm) (hms' _ hm') hr hr' h

end Members

theorem alike_of_alikeItems {vs ws : List Value} (h : AlikeLast Alike vs ws) :
    Alike (.array vs) (.array ws) := by
  obtain ⟨front, v, w, rfl, rfl, halike⟩ := h
  exact .array front halike

theorem alike_of_alikeMembers {ms ms' : List (String × Value)}
    (h : AlikeLast AlikeMembers ms ms') : Alike (.object ms) (.object ms') := by
  obtain ⟨front, ⟨name, v⟩, ⟨_, w⟩, rfl, rfl, rfl, halike⟩ := h
  exact .object front name halike

section Nodes

variable {indent : Nat} {v w : Value} {r r' : List Char}

theorem itemNodes_inj {vs ws : List Value} (hvs : ∀ v ∈ vs, Apart v)
    (hws : (Value.array ws).Denotes) (hr : FollowsItems indent r) (hr' : FollowsItems indent r')
    (h : lines indent (itemText indent) vs ++ r = lines indent (itemText indent) ws ++ r') :
    Told (Value.array vs = .array ws) (Alike (.array vs) (.array ws)) r r' := by
  cases hws with
  | array hws => exact (items_inj hvs hws hr hr' h).imp (congrArg _) alike_of_alikeItems

theorem memberNodes_inj {ms ms' : List (String × Value)} (hms : ∀ m ∈ ms, Apart m.2)
    (hms' : (Value.object ms').Denotes) (hr : Follows indent r) (hr' : Follows indent r')
    (h : lines indent (memberText indent) ms ++ r = lines indent (memberText indent) ms' ++ r') :
    Told (Value.object ms = .object ms') (Alike (.object ms) (.object ms')) r r' := by
  cases hms' with
  | object hms' => exact (members_inj hms hms' hr hr' h).imp (congrArg _) alike_of_alikeMembers

/-- Items are as deep as the name that they follow, members are deeper. -/
theorem afterName_items_ne_members {x : Value} {xs : List Value} {m : String × Value}
    {ms : List (String × Value)} :
    afterName indent (.array (x :: xs)) ++ r ≠ afterName indent (.object (m :: ms)) ++ r' := by
  intro h
  rw [afterName, afterName, itemLines_false, memberLines_false, List.cons_append,
    List.cons_append, lines_cons_append, lines_cons_append, itemText_append, spaces, spaces,
    List.replicate_add, List.append_assoc] at h
  cases (List.cons.inj (List.append_cancel_left (List.cons.inj h).2)).1

variable (hitems : ∀ vs, v = .array vs → ∀ x ∈ vs, Apart x)
  (hmembers : ∀ ms, v = .object ms → ∀ m ∈ ms, Apart m.2)

include hitems hmembers

/-- A node begun on a line: its kind is told by how it begins. -/
theorem nodeText_inj {inner : Nat} (hle : indent ≤ inner) (hv : v.Denotes) (hw : w.Denotes)
    (hr : Follows indent r) (hr' : Follows indent r')
    (h : nodeText indent inner v ++ r = nodeText indent inner w ++ r') :
    Told (v = w) (Alike v w) r r' := by
  obtain ⟨k, hk⟩ := exists_node v
  obtain ⟨k', hk'⟩ := exists_node w
  have hopens := opens_nodeText indent inner hv hk r
  rw [h] at hopens
  obtain rfl := hopens.unique (opens_nodeText indent inner hw hk' r')
  cases hk with
  | items x xs =>
      cases hk' with
      | items y ys =>
          have hlines := congrArg (spaces indent ++ ·) h
          simp only [nodeText, ← List.append_assoc, spaces_itemLines] at hlines
          exact itemNodes_inj (hitems _ rfl) hw hr.items hr'.items hlines
  | members m ms =>
      cases hk' with
      | members m' ms' =>
          have hlines := congrArg (spaces indent ++ ·) h
          simp only [nodeText, ← List.append_assoc, spaces_memberLines] at hlines
          exact memberNodes_inj (hmembers _ rfl) hw hr hr' hlines
  | leaf hleaf =>
      cases hk' with
      | leaf hleaf' =>
          rw [nodeText_of_isLeaf indent inner hleaf, nodeText_of_isLeaf indent inner hleaf'] at h
          exact leafText_inj hv hw hleaf hleaf' (hr.mono hle) (hr'.mono hle) h

/-- A node after a name: only a leaf is on the line of its name. -/
theorem afterName_inj (hv : v.Denotes) (hw : w.Denotes) (hr : FollowsItems indent r)
    (hr' : FollowsItems indent r') (h : afterName indent v ++ r = afterName indent w ++ r') :
    Told (v = w) (Alike v w) r r' := by
  obtain ⟨k, hk⟩ := exists_node v
  obtain ⟨k', hk'⟩ := exists_node w
  cases hk with
  | items x xs =>
      cases hk' with
      | items y ys =>
          rw [afterName, afterName, itemLines_false, itemLines_false] at h
          exact itemNodes_inj (hitems _ rfl) hw hr hr' (List.cons.inj h).2
      | members => exact (afterName_items_ne_members h).elim
      | leaf hleaf =>
          rw [afterName, afterName_of_isLeaf indent hleaf] at h
          cases (List.cons.inj h).1
  | members m ms =>
      cases hk' with
      | items => exact (afterName_items_ne_members h.symm).elim
      | members m' ms' =>
          rw [afterName, afterName, memberLines_false, memberLines_false] at h
          exact memberNodes_inj (hmembers _ rfl) hw hr.deeper hr'.deeper (List.cons.inj h).2
      | leaf hleaf =>
          rw [afterName, afterName_of_isLeaf indent hleaf] at h
          cases (List.cons.inj h).1
  | leaf hleaf =>
      rw [afterName_of_isLeaf indent hleaf] at h
      cases hk' with
      | items => cases (List.cons.inj h).1
      | members => cases (List.cons.inj h).1
      | leaf hleaf' =>
          rw [afterName_of_isLeaf indent hleaf'] at h
          exact leafText_inj hv hw hleaf hleaf' hr.deeper hr'.deeper (List.cons.inj h).2

theorem apart_step (hv : v.Denotes) : Apart v where
  node hle hw hr hr' h := nodeText_inj hitems hmembers hle hv hw hr hr' h
  name hw hr hr' h := afterName_inj hitems hmembers hv hw hr hr' h

end Nodes

theorem apart_of_plain {v : Value} (hv : v.Denotes) (hitems : ∀ vs, v ≠ .array vs)
    (hmembers : ∀ ms, v ≠ .object ms) : Apart v :=
  apart_step (fun vs h => (hitems vs h).elim) (fun ms h => (hmembers ms h).elim) hv

/-- Every node is told from every other. -/
theorem apart {v : Value} (hv : v.Denotes) : Apart v := by
  induction hv with
  | array h ih =>
      refine apart_step ?_ (fun ms hms => by cases hms) (.array h)
      rintro _ ⟨⟩
      exact ih
  | object h ih =>
      refine apart_step (fun vs hvs => by cases hvs) ?_ (.object h)
      rintro _ ⟨⟩
      exact ih
  | null => exact apart_of_plain .null (by simp) (by simp)
  | bool b => exact apart_of_plain (.bool b) (by simp) (by simp)
  | number h => exact apart_of_plain (.number h) (by simp) (by simp)
  | string s => exact apart_of_plain (.string s) (by simp) (by simp)

end ApiCommands.Yaml
