import ApiCommands.Command.Written
import ApiCommands.Proofs.Tables

namespace ApiCommands

/-!
# Written trees keep everything

Every field is found again in what is written, under the name of its member, and a member that is
left out stands for just one text or list. So different trees are written as different values, and
an input is read back from its value, whatever other members come with it.
-/

open Json (Value)

/-- The names of every object in a value are strictly increasing. -/
inductive Json.Value.Ordered : Value → Prop
  | null : Ordered .null
  | bool (b : Bool) : Ordered (.bool b)
  | number (n : Json.Number) : Ordered (.number n)
  | string (text : String) : Ordered (.string text)
  | array {items : List Value} (hitems : ∀ v ∈ items, Ordered v) : Ordered (.array items)
  | object {members : List (String × Value)} (hnames : (members.map Prod.fst).Pairwise (· < ·))
      (hmembers : ∀ m ∈ members, Ordered m.2) : Ordered (.object members)

/-- The members of some rows, of which those without a value are left out. -/
def present (rows : List (String × Option Value)) : List (String × Value) :=
  rows.filterMap fun row => row.2.map fun v => (row.1, v)

def textValue? (text : String) : Option Value := if text = "" then none else some (.string text)

def listValue? (items : List Value) : Option Value :=
  if items = [] then none else some (.array items)

theorem textMember_eq (name text : String) :
    textMember name text = present [(name, textValue? text)] := by
  by_cases h : text = "" <;> simp [textMember, textValue?, present, h]

theorem listMember_eq (name : String) (items : List Value) :
    listMember name items = present [(name, listValue? items)] := by
  cases items <;> simp [listMember, listValue?, present]

theorem present_append (rows rows' : List (String × Option Value)) :
    present (rows ++ rows') = present rows ++ present rows' := List.filterMap_append

theorem names_present (rows : List (String × Option Value)) :
    ((present rows).map Prod.fst).Sublist (rows.map Prod.fst) := by
  induction rows with
  | nil => exact .slnil
  | cons row rows ih =>
      obtain ⟨name, x⟩ := row
      cases x with
      | none => exact ih.cons name
      | some v => exact ih.cons_cons name

theorem lookup_present {rows : List (String × Option Value)}
    (h : (rows.map Prod.fst).Pairwise (· < ·))
    {name : String} {x : Option Value} (hx : (name, x) ∈ rows) :
    (present rows).lookup name = x := by
  have hnodup : (rows.map Prod.fst).Nodup := h.imp ne_of_lt
  cases x with
  | some v =>
      refine lookup_of_mem (hnodup.sublist (names_present rows)) ?_
      exact List.mem_filterMap.mpr ⟨_, hx, rfl⟩
  | none =>
      refine List.lookup_eq_none_iff.mpr fun entry hentry => ?_
      obtain ⟨⟨other, y⟩, hy, hv⟩ := List.mem_filterMap.mp hentry
      obtain ⟨v, rfl, rfl⟩ := Option.map_eq_some_iff.mp hv
      have hne : name ≠ other := by
        rintro rfl
        cases List.inj_on_of_nodup_map hnodup hx hy rfl
      simpa using hne

theorem ordered_present {rows : List (String × Option Value)}
    (hnames : (rows.map Prod.fst).Pairwise (· < ·)) (h : ∀ row ∈ rows, ∀ v ∈ row.2, v.Ordered) :
    (Value.object (present rows)).Ordered := by
  refine .object (hnames.sublist (names_present rows)) fun m hm => ?_
  obtain ⟨row, hrow, hm⟩ := List.mem_filterMap.mp hm
  obtain ⟨v, hv, rfl⟩ := Option.map_eq_some_iff.mp hm
  exact h row hrow v hv

theorem ordered_textValue? {text : String} {v : Value} (h : v ∈ textValue? text) : v.Ordered := by
  unfold textValue? at h
  split at h
  case isTrue => cases h
  case isFalse => exact Option.some.inj h ▸ .string text

theorem ordered_listValue? {items : List Value} (hitems : ∀ v ∈ items, v.Ordered) {v : Value}
    (h : v ∈ listValue? items) : v.Ordered := by
  unfold listValue? at h
  split at h
  case isTrue => cases h
  case isFalse => exact Option.some.inj h ▸ .array hitems

/-- Rows of the same names are told by their members: where one has no member of a name, neither
has the other. -/
theorem present_inj {rows rows' : List (String × Option Value)}
    (hnames : rows.map Prod.fst = rows'.map Prod.fst)
    (hsorted : (rows.map Prod.fst).Pairwise (· < ·)) (h : present rows = present rows') : rows = rows' := by
  induction rows generalizing rows' with
  | nil => exact (List.map_eq_nil_iff.mp hnames.symm).symm
  | cons row rows ih =>
      cases rows' with
      | nil => cases hnames
      | cons row' rows' =>
          obtain ⟨name, x⟩ := row
          obtain ⟨name', y⟩ := row'
          obtain ⟨rfl, htails⟩ : name = name' ∧ rows.map Prod.fst = rows'.map Prod.fst :=
            List.cons.inj hnames
          obtain rfl : x = y := by
            rw [← lookup_present hsorted List.mem_cons_self, h]
            exact lookup_present (hnames ▸ hsorted) List.mem_cons_self
          have htail : present rows = present rows' := by
            cases x with
            | none => exact h
            | some v => exact (List.cons.inj h).2
          rw [ih htails (List.pairwise_cons.mp hsorted).2 htail]

namespace Input

def memberNames : List String :=
  ["description", "enum", "in", "name", "positional", "required", "type"]

def rows (i : Input) : List (String × Option Value) :=
  [("description", textValue? i.description), ("enum", listValue? (i.choices.map .string)),
    ("in", some (.string i.location.name)), ("name", some (.string i.name)),
    ("positional", some (.bool i.positional)), ("required", some (.bool i.required)),
    ("type", some (.string i.type.name))]

theorem toValue_eq (i : Input) : i.toValue = .object (present i.rows) := by
  have hsplit : i.rows = [("description", textValue? i.description)] ++
      [("enum", listValue? (i.choices.map .string))] ++ i.rows.drop 2 := rfl
  rw [toValue, textMember_eq, listMember_eq, hsplit, present_append, present_append]
  rfl

theorem sorted_rows (i : Input) : (i.rows.map Prod.fst).Pairwise (· < ·) := by
  have hnames : i.rows.map Prod.fst = memberNames := rfl
  rw [hnames]
  decide

theorem ordered_toValue (i : Input) : i.toValue.Ordered := by
  have hchoices : ∀ v ∈ i.choices.map Value.string, v.Ordered :=
    List.forall_mem_map.mpr fun text _ => .string text
  rw [toValue_eq]
  refine ordered_present i.sorted_rows ?_
  simp only [rows, List.forall_mem_cons, Option.mem_some_iff, forall_eq', List.not_mem_nil,
    false_imp_iff, implies_true, and_true]
  exact ⟨fun _ => ordered_textValue?, fun _ => ordered_listValue? hchoices, .string _, .string _,
    .bool _, .bool _, .string _⟩

theorem get?_toValue {i : Input} {name : String} {x : Option Value} (h : (name, x) ∈ i.rows) :
    i.toValue.get? name = x := by
  rw [toValue_eq]
  exact lookup_present i.sorted_rows h

end Input

/-- A text that is left out is read as the empty one. -/
theorem Input.optionalMember_text {v : Value} {name text : String}
    (h : v.get? name = textValue? text) : optionalMember name "" Value.string? v = some text := by
  rw [optionalMember, h, textValue?]
  by_cases htext : text = ""
  · rw [if_pos htext, htext]
  · rw [if_neg htext]
    rfl

theorem Input.texts?_strings (texts : List String) :
    texts? (.array (texts.map .string)) = some texts := by
  induction texts with
  | nil => rfl
  | cons text texts ih =>
      simp only [texts?, List.map_cons, List.mapM_cons] at ih ⊢
      rw [ih]
      rfl

/-- A list that is left out is read as the empty one. -/
theorem Input.optionalMember_list {v : Value} {name : String} {texts : List String}
    (h : v.get? name = listValue? (texts.map .string)) :
    optionalMember name [] texts? v = some texts := by
  rw [optionalMember, h, listValue?]
  by_cases htexts : texts = []
  · rw [if_pos (by rw [htexts, List.map_nil]), htexts]
  · rw [if_neg (by simpa using htexts)]
    exact texts?_strings texts

namespace Input

/-- Reading an input asks for the members of these names and for no others. -/
theorem ofValue?_eq_some {v : Value} {i : Input}
    (h : ∀ name ∈ memberNames, v.get? name = i.toValue.get? name) : ofValue? v = some i := by
  have hrow {name : String} {x : Option Value} (hx : (name, x) ∈ i.rows)
      (hname : name ∈ memberNames) : v.get? name = x := (h name hname).trans (get?_toValue hx)
  have hname : v.get? "name" = some (.string i.name) := hrow (by simp [rows]) (by decide)
  have htype : v.get? "type" = some (.string i.type.name) := hrow (by simp [rows]) (by decide)
  have hrequired : v.get? "required" = some (.bool i.required) :=
    hrow (by simp [rows]) (by decide)
  have hlocation : v.get? "in" = some (.string i.location.name) :=
    hrow (by simp [rows]) (by decide)
  have hpositional : v.get? "positional" = some (.bool i.positional) :=
    hrow (by simp [rows]) (by decide)
  have hdescription : optionalMember "description" "" Value.string? v = some i.description :=
    optionalMember_text (hrow (by simp [rows]) (by decide))
  have hchoices : optionalMember "enum" [] texts? v = some i.choices :=
    optionalMember_list (hrow (by simp [rows]) (by decide))
  simp only [ofValue?, hname, htype, hrequired, hlocation, hpositional, hdescription, hchoices,
    Option.bind_eq_bind, Option.bind_some, Value.string?, tag?, bool?, ParamType.ofName?_name,
    Location.ofName?_name]

def isKnown (name : String) : Bool := decide (name ∈ memberNames)

/-- Other members may stand anywhere among those of an input, and more than once. -/
theorem ofValue?_ofMembers {i : Input} {members added ms : List (String × Value)}
    (hvalue : i.toValue = .object members) (hadded : ∀ m ∈ added, m.1 ∉ memberNames)
    (hperm : ms.Perm (members ++ added)) : ofValue? (.ofMembers ms) = some i := by
  obtain rfl : present i.rows = members := Value.object.inj (i.toValue_eq.symm.trans hvalue)
  have hnames : ((present i.rows).map Prod.fst).Sublist memberNames := names_present i.rows
  have hkept : (present i.rows).filter (isKnown ·.1) = present i.rows :=
    List.filter_eq_self.mpr fun m hm => decide_eq_true (hnames.subset (List.mem_map_of_mem hm))
  have hdropped : added.filter (isKnown ·.1) = [] :=
    List.filter_eq_nil_iff.mpr fun m hm => by simpa [isKnown] using hadded m hm
  have hknown : (ms.reverse.filter (isKnown ·.1)).Perm (present i.rows) := by
    have hfiltered := ((List.reverse_perm ms).trans hperm).filter (isKnown ·.1)
    rwa [List.filter_append, hkept, hdropped, List.append_nil] at hfiltered
  have hnodup : ((present i.rows).map Prod.fst).Nodup :=
    (i.sorted_rows.imp ne_of_lt).sublist hnames
  refine ofValue?_eq_some fun name hname => ?_
  calc (Value.ofMembers ms).get? name
      = ms.reverse.lookup name := Table.lookup_ofList ms name
    _ = (ms.reverse.filter (isKnown ·.1)).lookup name := by
        rw [lookup_filter_key isKnown, isKnown, if_pos (decide_eq_true hname)]
    _ = (present i.rows).lookup name :=
        lookup_eq_of_perm ((hknown.map Prod.fst).nodup_iff.mpr hnodup) hknown name
    _ = i.toValue.get? name := by rw [toValue_eq]; rfl

theorem toValue_injective : Function.Injective Input.toValue := by
  intro i j h
  have hi : ofValue? i.toValue = some i := ofValue?_eq_some fun _ _ => rfl
  have hj : ofValue? j.toValue = some j := ofValue?_eq_some fun _ _ => rfl
  exact Option.some.inj (hi.symm.trans (h ▸ hj))

end Input

/-! ### Nodes -/

theorem textValue?_injective : Function.Injective textValue? := by
  intro a b h
  by_cases ha : a = "" <;> by_cases hb : b = "" <;> simp_all [textValue?]

theorem listValue?_injective : Function.Injective listValue? := by
  intro a b h
  by_cases ha : a = [] <;> by_cases hb : b = [] <;> simp_all [listValue?]

theorem toList_map_eq {α : Type} (name : String) (write : α → Value) (x : Option α) :
    (x.toList.map fun a => (name, write a)) = present [(name, x.map write)] := by
  cases x <;> rfl

theorem Endpoint.toValue_injective : Function.Injective Endpoint.toValue := by
  rintro ⟨method, path, inputs⟩ ⟨method', path', inputs'⟩ h
  simp only [toValue, Value.object.injEq, List.cons.injEq, Prod.mk.injEq, Value.string.injEq,
    Value.array.injEq, true_and, and_true] at h
  obtain ⟨rfl, hinputs, rfl⟩ := h
  rw [List.map_injective_iff.mpr Input.toValue_injective hinputs]

theorem Endpoint.ordered_toValue (e : Endpoint) : e.toValue.Ordered := by
  refine .object (by decide : ["method", "params", "path"].Pairwise (· < ·)) ?_
  simp only [List.forall_mem_cons, List.not_mem_nil, false_imp_iff, implies_true, and_true]
  exact ⟨.string _, .array (List.forall_mem_map.mpr fun i _ => i.ordered_toValue), .string _⟩

namespace Node

def memberNames : List String := ["about", "children", "endpoint", "long_about", "name"]

def rows (n : Node) : List (String × Option Value) :=
  [("about", some (.string n.about)), ("children", listValue? (valuesOf n.children)),
    ("endpoint", n.endpoint.map Endpoint.toValue), ("long_about", textValue? n.longAbout),
    ("name", some (.string n.name))]

theorem sorted_rows (n : Node) : (n.rows.map Prod.fst).Pairwise (· < ·) := by
  have hnames : n.rows.map Prod.fst = memberNames := rfl
  rw [hnames]
  decide

theorem toValue_eq (n : Node) : n.toValue = .object (present n.rows) := by
  obtain ⟨name, about, longAbout, endpoint, children⟩ := n
  have hsplit : rows ⟨name, about, longAbout, endpoint, children⟩ =
      [("about", some (.string about))] ++ [("children", listValue? (valuesOf children))] ++
        [("endpoint", endpoint.map Endpoint.toValue)] ++ [("long_about", textValue? longAbout)] ++
        [("name", some (.string name))] := rfl
  rw [toValue, listMember_eq, toList_map_eq, textMember_eq, hsplit, present_append, present_append,
    present_append, present_append]
  rfl

mutual

/-- Each row tells one field, whether its member is written or left out. -/
theorem toValue_inj : ∀ {m n : Node}, m.toValue = n.toValue → m = n
  | ⟨name, about, longAbout, endpoint, children⟩, ⟨name', about', longAbout', endpoint', children'⟩,
    h => by
    rw [toValue_eq, toValue_eq, Value.object.injEq] at h
    have hrows : rows ⟨name, about, longAbout, endpoint, children⟩ =
        rows ⟨name', about', longAbout', endpoint', children'⟩ :=
      present_inj rfl (sorted_rows _) h
    simp only [rows, List.cons.injEq, Prod.mk.injEq, Option.some.injEq, Value.string.injEq,
      true_and, and_true] at hrows
    obtain ⟨rfl, hchildren, hendpoint, hlong, rfl⟩ := hrows
    rw [textValue?_injective hlong, Option.map_injective Endpoint.toValue_injective hendpoint,
      valuesOf_inj (listValue?_injective hchildren)]

theorem valuesOf_inj : ∀ {ms ns : List Node}, valuesOf ms = valuesOf ns → ms = ns
  | [], [], _ => rfl
  | [], _ :: _, h => by cases h
  | _ :: _, [], h => by cases h
  | m :: ms, n :: ns, h => by
    obtain ⟨hm, hms⟩ := List.cons.inj h
    rw [toValue_inj hm, valuesOf_inj hms]

end

mutual

theorem ordered_toValue : ∀ n : Node, n.toValue.Ordered
  | ⟨name, about, longAbout, endpoint, children⟩ => by
    have hchildren := ordered_valuesOf children
    rw [toValue_eq]
    refine ordered_present (sorted_rows _) ?_
    simp only [rows, List.forall_mem_cons, Option.mem_some_iff, forall_eq', List.not_mem_nil,
      false_imp_iff, implies_true, and_true]
    refine ⟨.string _, fun _ => ordered_listValue? hchildren, fun v hv => ?_,
      fun _ => ordered_textValue?, .string _⟩
    obtain ⟨e, -, rfl⟩ := Option.map_eq_some_iff.mp hv
    exact e.ordered_toValue

theorem ordered_valuesOf : ∀ (ns : List Node), ∀ v ∈ valuesOf ns, v.Ordered
  | [] => List.forall_mem_nil _
  | n :: ns => List.forall_mem_cons.mpr ⟨ordered_toValue n, ordered_valuesOf ns⟩

end

end Node

/-- The value of a tree is its own canonical form and tells the tree. The value of an input is read
back as that input, wherever members of other names stand among its members. -/
theorem written_lossless :
    (∀ t : Tree, t.toValue.Ordered) ∧ Function.Injective Tree.toValue ∧
      ∀ i : Input, Input.ofValue? i.toValue = some i ∧
        ∀ members added ms, i.toValue = .object members →
          (∀ m ∈ added, m.1 ∉ Input.memberNames) → ms.Perm (members ++ added) →
          Input.ofValue? (.ofMembers ms) = some i := by
  refine ⟨fun t => ?ordered, fun t u h => ?injective, fun i => ⟨?read, ?added⟩⟩
  case ordered =>
    refine .object (List.pairwise_singleton _ _) (List.forall_mem_singleton.mpr ?_)
    exact .array (Node.ordered_valuesOf t)
  case injective =>
    simp only [Tree.toValue, Value.object.injEq, List.cons.injEq, Prod.mk.injEq,
      Value.array.injEq, true_and, and_true] at h
    exact Node.valuesOf_inj h
  case read => exact Input.ofValue?_eq_some fun _ _ => rfl
  case added =>
    intro members added ms hvalue hadded hperm
    exact Input.ofValue?_ofMembers hvalue hadded hperm

/-- Two notes stand before the members of an input. Nodes that differ in a text that one of them
leaves out are written differently. -/
theorem written_lossless_noted :
    Input.ofValue? (.ofMembers [("x-note", .null), ("x-note", .string "new"),
        ("in", .string "query"), ("name", .string "namespace"), ("positional", .bool false),
        ("required", .bool false), ("type", .string "string")]) =
      some ⟨⟨"namespace", "", .string, false, .query, []⟩, false⟩ ∧
    Tree.toValue [⟨"pods", "Pods", "", none, []⟩] ≠
      Tree.toValue [⟨"pods", "Pods", "Manage pods.", none, []⟩] := by
  obtain ⟨-, hinjective, hread⟩ := written_lossless
  constructor
  · exact (hread _).2 _ [("x-note", .null), ("x-note", .string "new")] (_ :: _ :: _) rfl
      (by decide) (@List.perm_append_comm _ [_, _] _)
  · exact hinjective.ne (by simp)

end ApiCommands
