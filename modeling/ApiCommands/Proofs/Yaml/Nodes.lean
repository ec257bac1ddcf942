import ApiCommands.Proofs.Yaml.Opening

namespace ApiCommands.Yaml

/-!
# Nodes told apart

The lines of a node and what follows them are told apart by how deep they are indented and by how
they begin. What is lost is at the end of the text only, where a kept block may be the last of all.
-/

open Json (Value)

/-- Values that differ in the line breaks at the end of a kept block, which is the last of all. -/
inductive Alike : Value → Value → Prop where
  | text {s s' : String} (h : AlikeBlocks s s') : Alike (.string s) (.string s')
  | array (front : List Value) {v w : Value} (h : Alike v w) :
      Alike (.array (front ++ [v])) (.array (front ++ [w]))
  | object (front : List (String × Value)) (name : String) {v w : Value} (h : Alike v w) :
      Alike (.object (front ++ [(name, v)])) (.object (front ++ [(name, w)]))

section Entries

variable {α : Type} {indent : Nat} {entry : α → List Char}

def lines (indent : Nat) (entry : α → List Char) (as : List α) : List Char :=
  as.flatMap fun a => spaces indent ++ entry a

theorem lines_cons_append (a : α) (as : List α) (r : List Char) :
    lines indent entry (a :: as) ++ r = spaces indent ++ (entry a ++ (lines indent entry as ++ r)) := by
  simp only [lines, List.flatMap_cons, List.append_assoc]

/-- Lists that differ in their last entries only. -/
def AlikeLast (alike : α → α → Prop) (as bs : List α) : Prop :=
  ∃ front a b, as = front ++ [a] ∧ bs = front ++ [b] ∧ alike a b

theorem AlikeLast.cons {alike : α → α → Prop} {as bs : List α} (h : AlikeLast alike as bs) (a : α) :
    AlikeLast alike (a :: as) (a :: bs) := by
  obtain ⟨front, x, y, rfl, rfl, hxy⟩ := h
  exact ⟨a :: front, x, y, rfl, rfl, hxy⟩

/-- Entries are told apart where each of them is, from the next one and from what follows all. -/
theorem lines_inj {alike : α → α → Prop} {after next : List Char → Prop}
    (hbreaks : ∀ r, Breaks r → after r)
    (hend : ∀ r, after r → ∀ a x, r ≠ spaces indent ++ (entry a ++ x))
    (hnext : ∀ as r, after r → next (lines indent entry as ++ r)) {as bs : List α}
    (hentry : ∀ a ∈ as, ∀ b ∈ bs, ∀ r r', next r → next r' → entry a ++ r = entry b ++ r' →
      Told (a = b) (alike a b) r r')
    {r r' : List Char} (hr : after r) (hr' : after r')
    (h : lines indent entry as ++ r = lines indent entry bs ++ r') :
    Told (as = bs) (AlikeLast alike as bs) r r' := by
  have hlast : ∀ {as r}, Breaks (lines indent entry as ++ r) → as = [] := by
    intro as r hr
    cases as with
    | nil => rfl
    | cons a as => exact (hend _ (hbreaks _ hr) a _ (lines_cons_append a as r)).elim
  induction as generalizing bs with
  | nil =>
      cases bs with
      | nil => exact .inl ⟨rfl, h⟩
      | cons b bs => exact (hend r hr b _ (h.trans (lines_cons_append b bs r'))).elim
  | cons a as ih =>
      cases bs with
      | nil => exact (hend r' hr' a _ (h.symm.trans (lines_cons_append a as r))).elim
      | cons b bs =>
          rw [lines_cons_append, lines_cons_append] at h
          obtain ⟨hfirst, hrest⟩ := List.forall_mem_cons.mp hentry
          rcases hfirst b List.mem_cons_self _ _ (hnext as r hr) (hnext bs r' hr')
            (List.append_cancel_left h) with ⟨rfl, htail⟩ | ⟨hleft, hright, halike⟩
          · refine (ih (fun x hx y hy => hrest x hx y (List.mem_cons_of_mem a hy)) htail).imp ?_ ?_
            · exact congrArg _
            · exact fun halike => halike.cons a
          · obtain rfl := hlast hleft
            obtain rfl := hlast hright
            exact .inr ⟨hleft, hright, [], a, b, rfl, rfl, halike⟩

end Entries

theorem Follows.mono {n m : Nat} {r : List Char} (hr : Follows n r) (h : n ≤ m) : Follows m r := by
  cases hr with
  | below hk hspace hbreak rest => exact .below (hk.trans_le h) hspace hbreak rest
  | breaks k => exact .breaks k

/-- What may follow the items of a list: no line that is deeper, and no item. -/
structure FollowsItems (indent : Nat) (r : List Char) : Prop where
  follows : Follows (indent + 1) r
  not_item : ∀ x, r ≠ spaces indent ++ '-' :: ' ' :: x

theorem Follows.items {indent : Nat} {r : List Char} (hr : Follows indent r) :
    FollowsItems indent r :=
  ⟨hr.mono indent.le_succ, fun x => hr.ne_line rfl (' ' :: x)⟩

theorem FollowsItems.deeper {indent : Nat} {r : List Char} (hr : FollowsItems indent r) :
    Follows (indent + 2) r :=
  hr.follows.mono (by omega)

theorem follows_of_breaks {r : List Char} (hr : Breaks r) (indent : Nat) : Follows indent r := by
  obtain ⟨k, rfl⟩ := hr
  exact .breaks k

/-- A node whose first line is begun: `indent` is for its entries and `inner` for a leaf. -/
def nodeText (indent inner : Nat) : Value → List Char
  | .array (x :: xs) => itemLines indent true (x :: xs)
  | .object (m :: ms) => memberLines indent true (m :: ms)
  | v => leafText inner v

def itemText (indent : Nat) (v : Value) : List Char := '-' :: afterMark indent v

def memberText (indent : Nat) (m : String × Value) : List Char :=
  if isShortName m.1 then writeText (indent + 2) m.1 ++ ':' :: afterName indent m.2
  else '?' :: textEntry (indent + 2) m.1 ++ spaces indent ++ ':' :: afterMark indent m.2

/-- What a value is, by its kind. -/
inductive Node : Value → Kind → Prop where
  | items (x : Value) (xs : List Value) : Node (.array (x :: xs)) .items
  | members (m : String × Value) (ms : List (String × Value)) : Node (.object (m :: ms)) .members
  | leaf {v : Value} (h : IsLeaf v) : Node v .leaf

theorem exists_node (v : Value) : ∃ k, Node v k := by
  cases v with
  | array items =>
      cases items with
      | nil => exact ⟨_, .leaf trivial⟩
      | cons x xs => exact ⟨_, .items x xs⟩
  | object members =>
      cases members with
      | nil => exact ⟨_, .leaf trivial⟩
      | cons m ms => exact ⟨_, .members m ms⟩
  | _ => exact ⟨_, .leaf trivial⟩

section Layout

variable (indent inner : Nat)

theorem nodeText_of_isLeaf {v : Value} (h : IsLeaf v) :
    nodeText indent inner v = leafText inner v := by
  rw [nodeText.eq_def]
  split
  case h_1 => exact h.elim
  case h_2 => exact h.elim
  case h_3 => rfl

theorem afterName_of_isLeaf {v : Value} (h : IsLeaf v) :
    afterName indent v = ' ' :: leafText (indent + 2) v := by
  rw [afterName.eq_def]
  split
  case h_1 => exact h.elim
  case h_2 => exact h.elim
  case h_3 => rfl

theorem afterMark_eq (v : Value) :
    afterMark indent v = ' ' :: nodeText (indent + 2) (indent + 2) v := by
  rw [afterMark.eq_def]
  split
  case h_1 => rfl
  case h_2 => rfl
  case h_3 hitems hmembers =>
    obtain ⟨k, hv⟩ := exists_node v
    cases hv with
    | items x xs => exact (hitems x xs rfl).elim
    | members m ms => exact (hmembers m ms rfl).elim
    | leaf h => rw [nodeText_of_isLeaf _ _ h]

theorem documentChars_eq (v : Value) : documentChars v = nodeText 0 2 v :=
  (documentChars.eq_def v).trans (nodeText.eq_def 0 2 v).symm

theorem itemLines_false (vs : List Value) :
    itemLines indent false vs = lines indent (itemText indent) vs := by
  induction vs with
  | nil => rw [itemLines]; rfl
  | cons v vs ih =>
      rw [itemLines, ih]
      simp [lines, itemText]

theorem memberLines_false (ms : List (String × Value)) :
    memberLines indent false ms = lines indent (memberText indent) ms := by
  induction ms with
  | nil => rw [memberLines]; rfl
  | cons m ms ih =>
      rw [memberLines, ih]
      simp [lines, memberText]

theorem spaces_itemLines (v : Value) (vs : List Value) :
    spaces indent ++ itemLines indent true (v :: vs) =
      lines indent (itemText indent) (v :: vs) := by
  rw [← itemLines_false, itemLines, itemLines]
  simp

theorem spaces_memberLines (m : String × Value) (ms : List (String × Value)) :
    spaces indent ++ memberLines indent true (m :: ms) =
      lines indent (memberText indent) (m :: ms) := by
  rw [← memberLines_false, memberLines, memberLines]
  simp

end Layout

section Opens

variable (indent inner : Nat)

theorem exists_afterName (v : Value) : ∃ c rest, afterName indent v = c :: rest ∧ isGap c = true := by
  obtain ⟨k, hv⟩ := exists_node v
  cases hv with
  | items => exact ⟨_, _, by rw [afterName], rfl⟩
  | members => exact ⟨_, _, by rw [afterName], rfl⟩
  | leaf h => exact ⟨_, _, afterName_of_isLeaf indent h, rfl⟩

theorem memberText_of_short {name : String} (h : isShortName name = true) (v : Value) :
    memberText indent (name, v) = writeText (indent + 2) name ++ ':' :: afterName indent v :=
  if_pos h

theorem memberText_of_long {name : String} (h : isShortName name = false) (v : Value) :
    memberText indent (name, v) = '?' :: ' ' :: (leafText (indent + 2) (.string name) ++
      (spaces indent ++ ':' :: ' ' :: nodeText (indent + 2) (indent + 2) v)) := by
  rw [memberText, if_neg (by simp [h]), textEntry, afterMark_eq, leafText]
  simp only [List.cons_append, List.append_assoc]

theorem opens_memberText (m : String × Value) (r : List Char) :
    Opens inner .members (memberText indent m ++ r) := by
  obtain ⟨name, v⟩ := m
  cases hshort : isShortName name with
  | true =>
      obtain ⟨c, rest, hname, hc⟩ := exists_afterName indent v
      rw [memberText_of_short indent hshort, hname, List.append_assoc]
      exact .shortName (scalar_of_isShortName hshort inner (indent + 2)) hc _
  | false =>
      rw [memberText_of_long indent hshort]
      exact .longName _

theorem opens_nodeText {v : Value} (hv : v.Denotes) {k : Kind} (hk : Node v k) (r : List Char) :
    Opens inner k (nodeText indent inner v ++ r) := by
  cases hk with
  | items x xs =>
      rw [nodeText, itemLines, if_pos rfl, afterMark_eq]
      exact .item _
  | members m ms =>
      rw [nodeText, memberLines, if_pos rfl, List.nil_append, List.append_assoc]
      exact opens_memberText indent inner m _
  | leaf hleaf =>
      rw [nodeText_of_isLeaf indent inner hleaf]
      rcases leafText_cases hv hleaf inner with ⟨s, rfl, hs⟩ | ⟨t, ht, hline⟩
      · rw [leafText_of_literal inner hs]
        exact .block _
      · rw [hline, List.append_assoc]
        exact .line ht r

end Opens

/-- Names begin with something that is neither a blank nor a line break. -/
theorem Opens.head {indent : Nat} {x : List Char} (h : Opens indent .members x) :
    ∃ c rest, x = c :: rest ∧ c ≠ ' ' ∧ isBreak c = false := by
  cases h with
  | longName x => exact ⟨_, _, rfl, by decide, rfl⟩
  | shortName h hc x =>
      obtain ⟨c, rest, rfl, hspace, hbreak⟩ := h.head
      exact ⟨c, _, rfl, hspace, hbreak⟩

theorem leafText_inj {indent : Nat} {v w : Value} (hv : v.Denotes) (hw : w.Denotes)
    (hleaf : IsLeaf v) (hleaf' : IsLeaf w) {r r' : List Char} (hr : Follows indent r)
    (hr' : Follows indent r') (h : leafText indent v ++ r = leafText indent w ++ r') :
    Told (v = w) (Alike v w) r r' := by
  rcases leafText_cases hv hleaf indent with ⟨s, rfl, hs⟩ | ⟨t, ht, htext⟩ <;>
    rcases leafText_cases hw hleaf' indent with ⟨s', rfl, hs'⟩ | ⟨t', ht', htext'⟩
  · rw [leafText_of_literal indent hs, leafText_of_literal indent hs'] at h
    exact (literal_inj hs hs' hr hr' h).imp (congrArg _) .text
  · rw [leafText_of_literal indent hs, htext', List.append_assoc] at h
    exact (ht'.ne_block _ h.symm).elim
  · rw [leafText_of_literal indent hs', htext, List.append_assoc] at h
    exact (ht.ne_block _ h).elim
  · rw [htext, htext', List.append_assoc, List.append_assoc] at h
    obtain ⟨hsame, hrest⟩ := ht.inj ht' (.line r) (.line r') h
    exact .inl ⟨hsame, (List.cons.inj hrest).2⟩

end ApiCommands.Yaml
