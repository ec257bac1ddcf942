import ApiCommands.Document.Basic
import ApiCommands.Proofs.Json.Fits
import Mathlib.Data.Option.Basic

namespace ApiCommands.Document

/-!
# Outlines that the reader makes the same of

Two outlines agree at a shape when the reader cannot tell them apart there. What it makes of a
record it makes of the fields, so records agree whose fields do.
-/

open Json (Outline Shape)
open Schema (Node)

/-- Whether the order of what stands in a field counts. -/
def keepsOrder (name : String) : Bool := ["parameters", "properties", "enum"].contains name

def schemasOf (entries : List (String × Outline)) : Schema.Components :=
  Table.ofList (entries.map fun e => (e.1, Node.ofOutline Json.nestingLimit e.2))

/-- Two records that are read as the same. -/
def SameRecord : Record → Outline → Outline → Prop
  | .document, o, o' => ofOutline o = ofOutline o'
  | .components, o, o' =>
    schemasOf (tableField .components "schemas" o) = schemasOf (tableField .components "schemas" o')
  | .pathItem, o, o' => PathItem.ofOutline o = PathItem.ofOutline o'
  | .operation, o, o' => Operation.ofOutline o = Operation.ofOutline o'
  | .parameter, o, o' => Declared.ofOutline o = Declared.ofOutline o'
  | .requestBody, o, o' => contentOf o = contentOf o'
  | .mediaType, o, o' => schemaField .mediaType o = schemaField .mediaType o'
  | .schema, o, o' => ∀ depth, Node.ofOutline depth o = Node.ofOutline depth o'

/-- Two outlines that are read as the same where a shape is wanted. Where the order does not count,
a list is the set of its items and a table its last entry of each name. -/
def Agree : Bool → Shape Record → Outline → Outline → Prop
  | _, .text, o, o' => o.text = o'.text
  | _, .flag, o, o' => o.isTrue = o'.isTrue
  | _, .anything, o, o' => o.SameValue o'
  | _, .textOrTexts, o, o' => Schema.typeOf o.plainValue = Schema.typeOf o'.plainValue
  | true, .list s, o, o' => List.Forall₂ (Agree false s) o.items o'.items
  | false, .list s, o, o' =>
    (∀ x ∈ o.items, ∃ x' ∈ o'.items, Agree false s x x') ∧
      ∀ x' ∈ o'.items, ∃ x ∈ o.items, Agree false s x x'
  | true, .table s, o, o' =>
    List.Forall₂ (fun e e' => e.1 = e'.1 ∧ Agree false s e.2 e'.2) o.entries o'.entries
  | false, .table s, o, o' => ∀ name,
    Option.Rel (Agree false s) (o.entries.reverse.lookup name) (o'.entries.reverse.lookup name)
  | _, .record r, o, o' => SameRecord r o o'

theorem SameRecord.refl (r : Record) (o : Outline) : SameRecord r o o := by
  cases r <;> simp [SameRecord]

theorem Agree.refl (ordered : Bool) (s : Shape Record) (o : Outline) : Agree ordered s o o := by
  induction s generalizing ordered o with
  | text | flag | textOrTexts => rfl
  | anything => exact Outline.SameValue.refl o
  | list s ih =>
      cases ordered with
      | true => exact List.forall₂_same.mpr fun x _ => ih false x
      | false => exact ⟨fun x hx => ⟨x, hx, ih false x⟩, fun x hx => ⟨x, hx, ih false x⟩⟩
  | table s ih =>
      cases ordered with
      | true => exact List.forall₂_same.mpr fun e _ => ⟨rfl, ih false e.2⟩
      | false => exact fun name => rel_refl (ih false) _
  | record r => exact SameRecord.refl r o

section Fields

variable {f f' : Option Outline}

theorem map_eq_of_rel {α β : Type} {r : α → α → Prop} {g : α → β} (hg : ∀ x y, r x y → g x = g y)
    {x y : Option α} (h : Option.Rel r x y) : x.map g = y.map g := by
  cases h with
  | none => rfl
  | some h => exact congrArg some (hg _ _ h)

theorem map_eq_of_forall₂ {α β : Type} {r : α → α → Prop} {g : α → β}
    (hg : ∀ x y, r x y → g x = g y) {xs ys : List α} (h : List.Forall₂ r xs ys) :
    xs.map g = ys.map g := by
  induction h with
  | nil => rfl
  | cons hxy _ ih => rw [List.map_cons, List.map_cons, hg _ _ hxy, ih]

/-- What is made of each item, where the order counts. -/
theorem map_items_eq {s : Shape Record} {β : Type} {g : Outline → β}
    (hg : ∀ x y, Agree false s x y → g x = g y) (h : Option.Rel (Agree true (.list s)) f f') :
    ((f.map Outline.items).getD []).map g = ((f'.map Outline.items).getD []).map g := by
  cases h with
  | none => rfl
  | some h => exact map_eq_of_forall₂ hg h

theorem nameSet_congr {names names' : List String} (h : ∀ name, name ∈ names ↔ name ∈ names') :
    Schema.nameSet names = Schema.nameSet names' := by
  have hlookup : ∀ (ns : List String) (name : String),
      (ns.map (·, ())).lookup name = if name ∈ ns then some () else none := by
    intro ns name
    induction ns with
    | nil => rfl
    | cons n ns ih =>
        rw [List.map_cons, List.lookup_cons, ih]
        by_cases heq : name = n
        · simp [heq]
        · simp [heq, beq_false_of_ne heq]
  rw [Schema.nameSet, Schema.nameSet]
  congr 1
  apply Table.ofList_congr
  intro name
  rw [← List.map_reverse, ← List.map_reverse, hlookup, hlookup]
  simp [h]

/-- The set of the texts of some items. -/
theorem nameSet_items_eq (h : Option.Rel (Agree false (.list .text)) f f') :
    Schema.nameSet (((f.map Outline.items).getD []).map Outline.text) =
      Schema.nameSet (((f'.map Outline.items).getD []).map Outline.text) := by
  cases h with
  | none => rfl
  | some h =>
      apply nameSet_congr
      intro name
      simp only [Option.map_some, Option.getD_some, List.mem_map]
      constructor
      · rintro ⟨x, hx, rfl⟩
        obtain ⟨x', hx', hagree⟩ := h.1 x hx
        exact ⟨x', hx', hagree.symm⟩
      · rintro ⟨x', hx', rfl⟩
        obtain ⟨x, hx, hagree⟩ := h.2 x' hx'
        exact ⟨x, hx, hagree⟩

/-- What is made of each entry of a table that is sorted. -/
theorem ofList_entries_eq {s : Shape Record} {β : Type} {g : Outline → β}
    (hg : ∀ x y, Agree false s x y → g x = g y) (h : Option.Rel (Agree false (.table s)) f f') :
    Table.ofList (((f.map Outline.entries).getD []).map fun e => (e.1, g e.2)) =
      Table.ofList (((f'.map Outline.entries).getD []).map fun e => (e.1, g e.2)) := by
  cases h with
  | none => rfl
  | some h =>
      apply Table.ofList_congr
      intro name
      rw [← List.map_reverse, ← List.map_reverse]
      exact (lookup_map_entry (fun _ => g) name _).trans
        ((map_eq_of_rel hg (h name)).trans (lookup_map_entry (fun _ => g) name _).symm)

/-- What is made of each entry, where the order counts. -/
theorem map_entries_eq {s : Shape Record} {β : Type} {g : Outline → β}
    (hg : ∀ x y, Agree false s x y → g x = g y) (h : Option.Rel (Agree true (.table s)) f f') :
    (((f.map Outline.entries).getD []).map fun e => (e.1, g e.2)) =
      ((f'.map Outline.entries).getD []).map fun e => (e.1, g e.2) := by
  cases h with
  | none => rfl
  | some h =>
      apply map_eq_of_forall₂ _ h
      rintro e e' ⟨hname, hagree⟩
      exact Prod.ext hname (hg _ _ hagree)

end Fields

section Records

variable {o o' : Outline}

theorem nodeField_eq (name : String) (o : Outline) :
    Schema.nodeField name o = recordField .schema name o := by
  cases o <;> rfl

theorem textField_eq {r : Record} {name : String} {b : Bool}
    (h : Option.Rel (Agree b .text) (recordField r name o) (recordField r name o')) :
    textField r name o = textField r name o' := by
  rw [textField, textField, map_eq_of_rel (fun _ _ h => h) h]

theorem schemaField_eq {r : Record} {b : Bool}
    (h : Option.Rel (Agree b (.record .schema)) (recordField r "schema" o)
      (recordField r "schema" o')) :
    schemaField r o = schemaField r o' :=
  map_eq_of_rel (fun _ _ h => h Json.nestingLimit) h

theorem ofOutline_eq (o : Outline) : ofOutline o =
    { paths := Table.ofList ((tableField .document "paths" o).map fun e =>
        (e.1, PathItem.ofOutline e.2))
      schemas := ((recordField .document "components" o).map fun c =>
        schemasOf (tableField .components "schemas" c)).getD [] } := by
  rw [ofOutline]
  cases recordField .document "components" o <;> rfl

/-- The fields of a record agree. -/
def FieldsAgree (r : Record) (o o' : Outline) : Prop :=
  ∀ name s, r.fields.lookup name = some s →
    Option.Rel (Agree (keepsOrder name) s) (recordField r name o) (recordField r name o')

theorem sameRecord_document (h : FieldsAgree .document o o') : SameRecord .document o o' := by
  have hpaths : Option.Rel (Agree false (.table (.record .pathItem))) _ _ := h "paths" _ rfl
  have hcomponents : Option.Rel (Agree false (.record .components)) _ _ := h "components" _ rfl
  have hitem : ∀ x y, Agree false (.record .pathItem) x y →
      PathItem.ofOutline x = PathItem.ofOutline y := fun _ _ h => h
  have hschemas : (recordField .document "components" o).map
        (fun c => schemasOf (tableField .components "schemas" c)) =
      (recordField .document "components" o').map
        fun c => schemasOf (tableField .components "schemas" c) :=
    map_eq_of_rel (fun _ _ h => h) hcomponents
  rw [SameRecord, ofOutline_eq, ofOutline_eq, hschemas, tableField, tableField]
  congr 1
  exact ofList_entries_eq hitem hpaths

theorem sameRecord_components (h : FieldsAgree .components o o') : SameRecord .components o o' := by
  have hnode : ∀ x y, Agree false (.record .schema) x y →
      Node.ofOutline Json.nestingLimit x = Node.ofOutline Json.nestingLimit y :=
    fun _ _ h => h Json.nestingLimit
  exact ofList_entries_eq hnode (h "schemas" _ rfl)

theorem sameRecord_pathItem (h : FieldsAgree .pathItem o o') : SameRecord .pathItem o o' := by
  have hoperation : ∀ m : Method, Option.Rel (Agree false (.record .operation))
      (recordField .pathItem m.key o) (recordField .pathItem m.key o') := by
    intro m
    have hkey : Record.pathItem.fields.lookup m.key = some (.record .operation) := by
      cases m <;> rfl
    have horder : keepsOrder m.key = false := by cases m <;> rfl
    exact horder ▸ h m.key _ hkey
  apply List.filterMap_congr
  intro m _
  have hmap : ∀ x y, Agree false (.record .operation) x y →
      (m, Operation.ofOutline x) = (m, Operation.ofOutline y) :=
    fun _ _ h => congrArg (m, ·) h
  exact map_eq_of_rel hmap (hoperation m)

theorem sameRecord_operation (h : FieldsAgree .operation o o') : SameRecord .operation o o' := by
  have hdeclared : ∀ x y, Agree false (.record .parameter) x y →
      Declared.ofOutline x = Declared.ofOutline y := fun _ _ h => h
  have hcontent : (recordField .operation "requestBody" o).map contentOf =
      (recordField .operation "requestBody" o').map contentOf :=
    map_eq_of_rel (fun _ _ h => h) (h "requestBody" (.record .requestBody) rfl)
  rw [SameRecord, Operation.ofOutline, Operation.ofOutline,
    textField_eq (h "summary" .text rfl), textField_eq (h "description" .text rfl), hcontent,
    map_items_eq hdeclared (h "parameters" _ rfl)]

theorem sameRecord_parameter (h : FieldsAgree .parameter o o') : SameRecord .parameter o o' := by
  have hrequired : (recordField .parameter "required" o).map Outline.isTrue =
      (recordField .parameter "required" o').map Outline.isTrue :=
    map_eq_of_rel (fun _ _ h => h) (h "required" .flag rfl)
  rw [SameRecord, Declared.ofOutline, Declared.ofOutline, textField_eq (h "name" .text rfl),
    textField_eq (h "in" .text rfl), hrequired, textField_eq (h "description" .text rfl),
    schemaField_eq (h "schema" (.record .schema) rfl)]

theorem sameRecord_requestBody (h : FieldsAgree .requestBody o o') :
    SameRecord .requestBody o o' := by
  have hschema : ∀ x y, Agree false (.record .mediaType) x y →
      schemaField .mediaType x = schemaField .mediaType y := fun _ _ h => h
  exact ofList_entries_eq hschema (h "content" _ rfl)

theorem sameRecord_schema (h : FieldsAgree .schema o o') : SameRecord .schema o o' := by
  rintro (_ | depth)
  · rfl
  · have htext : ∀ name, Option.Rel (Agree false .text) (recordField .schema name o)
          (recordField .schema name o') →
        (recordField .schema name o).map Outline.text =
          (recordField .schema name o').map Outline.text :=
      fun _ h => map_eq_of_rel (fun _ _ h => h) h
    have htype : (recordField .schema "type" o).map (fun t => Schema.typeOf t.plainValue) =
        (recordField .schema "type" o').map fun t => Schema.typeOf t.plainValue :=
      map_eq_of_rel (fun _ _ h => h) (h "type" .textOrTexts rfl)
    have hproperty : ∀ x y, Agree false (.record .schema) x y →
        Node.ofOutline depth x = Node.ofOutline depth y := fun _ _ h => h depth
    have hchoice : ∀ x y, Agree false .anything x y → x.plainValue = y.plainValue :=
      fun _ _ h => h.plainValue_eq
    simp only [Node.ofOutline, nodeField_eq]
    rw [htext "$ref" (h "$ref" .text rfl), htype, htext _ (h "description" .text rfl),
      map_entries_eq hproperty (h "properties" _ rfl),
      nameSet_items_eq (h "required" (.list .text) rfl),
      map_items_eq hchoice (h "enum" _ rfl)]

/-- Records agree whose fields do. -/
theorem sameRecord_of_fields {r : Record} (h : FieldsAgree r o o') : SameRecord r o o' := by
  cases r with
  | document => exact sameRecord_document h
  | components => exact sameRecord_components h
  | pathItem => exact sameRecord_pathItem h
  | operation => exact sameRecord_operation h
  | parameter => exact sameRecord_parameter h
  | requestBody => exact sameRecord_requestBody h
  | mediaType => exact schemaField_eq (h "schema" (.record .schema) rfl)
  | schema => exact sameRecord_schema h

theorem sameRecord_of_field_eq {r : Record} (h : ∀ name s, r.fields.lookup name = some s →
    recordField r name o = recordField r name o') : SameRecord r o o' := by
  apply sameRecord_of_fields
  intro name s hs
  rw [h name s hs]
  exact rel_refl (Agree.refl _ s) _

end Records

end ApiCommands.Document
