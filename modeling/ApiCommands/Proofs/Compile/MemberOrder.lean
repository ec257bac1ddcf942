import ApiCommands.Command.Tree
import ApiCommands.Proofs.Compile.Sites
import ApiCommands.Proofs.Document.Edits
import Mathlib

namespace ApiCommands

/-!
# The order of members

The members of an object may come in any order, and so may the names that a schema requires. Only
the properties of a schema are kept in the order of the document.
-/

open Json (Outline Shape Reading Cut Fault)

namespace Document

/-- Whether the order of the members of an object counts. -/
def Place.ordersMembers : Place → Bool
  | kept true (.table _) => true
  | _ => false

/-- Whether the order of the items of an array counts. -/
def Place.ordersItems : Place → Bool
  | unread => false
  | kept false (.list _) => false
  | _ => true

/-- An object or an array of a document is put in another order. -/
inductive Reordered : Place → Outline → Outline → Prop
  | members {p : Place} {ms ms' : List (Reading String × Outline)} {stop : Option Cut} :
    p.ordersMembers = false → ((Outline.object ms stop).entries.map Prod.fst).Nodup →
      ms.Perm ms' → Reordered p (.object ms stop) (.object ms' stop)
  | items {p : Place} {xs xs' : List Outline} {stop : Option Fault} :
    p.ordersItems = false → xs.Perm xs' → Reordered p (.array xs stop) (.array xs' stop)

def Anywhere (_ : Nat) (_ : Outline) : Prop := True

theorem inherited_anywhere : Inherited Anywhere where
  item := fun _ _ => trivial
  member := fun _ _ => trivial

section Members

variable {p : Place} {ms ms' : List (Reading String × Outline)} {stop : Option Cut}

theorem skip_members (hperm : ms.Perm ms') :
    (Outline.object ms stop).skip = .ok () ↔ (Outline.object ms' stop).skip = .ok () := by
  rw [Outline.skip_object_eq_ok_iff, Outline.skip_object_eq_ok_iff]
  simp only [hperm.mem_iff]

variable (hnodup : ((Outline.object ms stop).entries.map Prod.fst).Nodup) (hperm : ms.Perm ms')
include hnodup hperm

/-- A table that is sorted forgets the order of its members. -/
theorem alike_table_of_perm (s : Shape Record) :
    Alike Anywhere (.kept false (.table s)) (.object ms stop) (.object ms' stop) := by
  refine ⟨by simp, skip_members hperm, ?_, ?_⟩
  · rintro (_ | budget) _
    · exact .rfl
    · rw [Place.Fits, Place.Fits, Outline.check_table_iff, Outline.check_table_iff]
      simp only [hperm.mem_iff]
  · intro name
    have hreverse : ((Outline.object ms stop).entries.reverse.map Prod.fst).Nodup := by
      rw [List.map_reverse]
      exact List.nodup_reverse.mpr hnodup
    have hentries : (Outline.object ms stop).entries.reverse.Perm
        (Outline.object ms' stop).entries.reverse :=
      (List.reverse_perm _).trans ((hperm.filterMap _).trans (List.reverse_perm _).symm)
    rw [lookup_eq_of_perm hreverse hentries]
    exact rel_refl (Agree.refl false s) _

/-- A record takes its members in any order. -/
theorem alike_record_of_perm (ordered : Bool) (r : Record) :
    Alike Anywhere (.kept ordered (.record r)) (.object ms stop) (.object ms' stop) := by
  refine ⟨by simp, skip_members hperm, ?_, ?_⟩
  · rintro (_ | budget) _
    · exact .rfl
    · have hgiven : (Outline.given r.fields ms).Perm (Outline.given r.fields ms') :=
        ((hperm.filterMap _).map _).filter _
      rw [Place.Fits, Place.Fits, check_record_iff, check_record_iff, hgiven.nodup_iff]
      simp only [hperm.mem_iff]
  · apply sameRecord_of_field_eq
    intro name s _
    have hentries : (Outline.object ms stop).entries.Perm (Outline.object ms' stop).entries :=
      hperm.filterMap _
    rw [recordField, recordField, Outline.field, Outline.field, lookup_eq_of_perm hnodup hentries]

theorem alike_members (horder : p.ordersMembers = false) :
    Alike Anywhere p (.object ms stop) (.object ms' stop) := by
  apply alike_objects (skip_members hperm)
  · intro _
    exact Outline.SameValue.of_perm hnodup hperm
  · rintro ordered s rfl
    cases ordered with
    | true => cases horder
    | false => exact alike_table_of_perm hnodup hperm s
  · rintro ordered r rfl
    exact alike_record_of_perm hnodup hperm ordered r

end Members

section Items

variable {p : Place} {xs xs' : List Outline} {stop : Option Fault}

theorem Place.eq_of_ordersItems (h : p.ordersItems = false) :
    p = .unread ∨ ∃ s, p = .kept false (.list s) := by
  cases p with
  | unread => exact .inl rfl
  | kept ordered s =>
      cases ordered <;> cases s <;> first | exact .inr ⟨_, rfl⟩ | cases h

theorem alike_items (horder : p.ordersItems = false) (hperm : xs.Perm xs') :
    Alike Anywhere p (.array xs stop) (.array xs' stop) := by
  have hskips : (Outline.array xs stop).skip = .ok () ↔ (Outline.array xs' stop).skip = .ok () := by
    rw [Outline.skip_array_eq_ok_iff, Outline.skip_array_eq_ok_iff]
    simp only [hperm.mem_iff]
  rcases Place.eq_of_ordersItems horder with rfl | ⟨s, rfl⟩
  · exact ⟨by simp, hskips, fun _ _ => .rfl, trivial⟩
  · refine ⟨by simp, hskips, ?_, ?_, ?_⟩
    · rintro (_ | budget) _
      · exact .rfl
      · rw [Place.Fits, Place.Fits, Outline.check_list_iff, Outline.check_list_iff]
        simp only [hperm.mem_iff]
    · intro x hx
      exact ⟨x, hperm.mem_iff.mp hx, Agree.refl false s x⟩
    · intro x hx
      exact ⟨x, hperm.mem_iff.mpr hx, Agree.refl false s x⟩

end Items

/-- The order of members is not noticed where it is changed. -/
theorem alike_of_reordered {p : Place} {o o' : Outline} (h : Reordered p o o') :
    Alike Anywhere p o o' := by
  cases h with
  | members horder hnodup hperm => exact alike_members hnodup hperm horder
  | items horder hperm => exact alike_items horder hperm

/-- The reader makes the same of a document in whatever order its members come. -/
theorem read_iff_of_reordered {o o' : Outline} (h : Edited Reordered o o') (d : Document) :
    read o = .ok d ↔ read o' = .ok d :=
  read_iff_of_edited inherited_anywhere alike_of_reordered (fun _ _ => trivial) h trivial d

end Document

namespace Compile

open Document (Edited Reordered Within Place)

/-- Documents that differ in the order of members only have the same commands, or none of them can
be read, and so they have the same tree. -/
theorem compile_iff_of_reordered (options : Options) {bytes bytes' : List UInt8}
    (h : Edited Reordered (Outline.ofBytes bytes).1 (Outline.ofBytes bytes').1)
    (hmore : (Outline.ofBytes bytes).2 = (Outline.ofBytes bytes').2) :
    (∀ commands notices, compile options bytes = .ok (commands, notices) ↔
      compile options bytes' = .ok (commands, notices)) ∧
    ∀ tree, (∃ commands notices, compile options bytes = .ok (commands, notices) ∧
        Tree.ofCommands commands = tree) ↔
      ∃ commands notices, compile options bytes' = .ok (commands, notices) ∧
        Tree.ofCommands commands = tree := by
  have hsame := compile_iff_of_parse options
    (Document.parse_iff_of_read hmore (Document.read_iff_of_reordered h))
  constructor
  · exact hsame
  · intro tree
    simp only [hsame]

/-- A document with two records and a list of required names that can be put in another order. -/
def orderedDocument : List UInt8 := List.flatMap Text.Utf8.encode
  ["\x7b\"components\":null,\"paths\":\x7b\"/api/v1/a\":\x7b\"post\":\x7b\"requestBody\":",
    "\x7b\"content\":",
    "\x7b\"application/json\":\x7b\"schema\":\x7b\"required\":[\"x\",\"y\"],\"properties\":",
    "\x7b\"y\":\x7b\x7d,\"x\":\x7b\x7d\x7d\x7d\x7d\x7d\x7d\x7d\x7d\x7d\x7d"]

/-- The same document in another order. -/
def reorderedDocument : List UInt8 := List.flatMap Text.Utf8.encode
  ["\x7b\"paths\":\x7b\"/api/v1/a\":\x7b\"post\":\x7b\"requestBody\":\x7b\"content\":",
    "\x7b\"application/json\":\x7b\"schema\":\x7b\"properties\":",
    "\x7b\"y\":\x7b\x7d,\"x\":\x7b\x7d\x7d,",
    "\"required\":[\"y\",\"x\"]\x7d\x7d\x7d\x7d\x7d\x7d\x7d,\"components\":null\x7d"]

/-- Paths with one operation that has a schema for its body. -/
def pathsOf (schema : Outline) : Outline :=
  .object [(.ok "/api/v1/a", .object [(.ok "post", .object [(.ok "requestBody",
    .object [(.ok "content", .object [(.ok "application/json",
      .object [(.ok "schema", schema)] none)] none)] none)] none)] none)] none

def requiredNames (names : List String) : Reading String × Outline :=
  (.ok "required", .array (names.map fun name => .string (.ok name)) none)

def twoProperties : Reading String × Outline :=
  (.ok "properties", .object [(.ok "y", .object [] none), (.ok "x", .object [] none)] none)

theorem ofBytes_orderedDocument : Outline.ofBytes orderedDocument =
    (.object [(.ok "components", .null),
      (.ok "paths", pathsOf (.object [requiredNames ["x", "y"], twoProperties] none))] none,
      false) := by
  cbv

theorem ofBytes_reorderedDocument : Outline.ofBytes reorderedDocument =
    (.object [(.ok "paths", pathsOf (.object [twoProperties, requiredNames ["y", "x"]] none)),
      (.ok "components", .null)] none, false) := by
  cbv

theorem within_pathsOf {schema schema' : Outline}
    (h : Within Reordered (.kept false (.record .schema)) schema schema') :
    Within Reordered .root (.object [(.ok "paths", pathsOf schema), (.ok "components", .null)] none)
      (.object [(.ok "paths", pathsOf schema'), (.ok "components", .null)] none) := by
  rw [pathsOf, pathsOf]
  exact .first (.first (.first (.first (.first (.first (.first h))))))

theorem edited_reorderedDocument : Edited Reordered (Outline.ofBytes orderedDocument).1
    (Outline.ofBytes reorderedDocument).1 := by
  have hnames : Within Reordered (.kept false (.record .schema))
      (.object [twoProperties, requiredNames ["x", "y"]] none)
      (.object [twoProperties, requiredNames ["y", "x"]] none) :=
    @Within.member _ _ _ _ _ [twoProperties] [] none (.here (.items rfl (.swap _ _ _)))
  have hfields : Within Reordered (.kept false (.record .schema))
      (.object [requiredNames ["x", "y"], twoProperties] none)
      (.object [twoProperties, requiredNames ["x", "y"]] none) :=
    .here (.members rfl (by decide) (.swap _ _ _))
  rw [ofBytes_orderedDocument, ofBytes_reorderedDocument]
  apply Relation.ReflTransGen.head (.here (.members rfl (by decide) (.swap _ _ _)))
  apply Relation.ReflTransGen.head (within_pathsOf hfields)
  exact Relation.ReflTransGen.single (within_pathsOf hnames)

def reorderedCommand : Command :=
  { name := "a", parent := "", short := "", long := "", method := "POST", path := "/api/v1/a"
    params := ["y", "x"].map fun name => { name := name, required := true, location := .body } }

theorem compile_orderedDocument :
    compile {} orderedDocument = .ok ([reorderedCommand], [.compiled 1]) := by
  decide +kernel

theorem compile_iff_of_reordered_required :
    compile {} reorderedDocument = .ok ([reorderedCommand], [.compiled 1]) := by
  have hmore : (Outline.ofBytes orderedDocument).2 = (Outline.ofBytes reorderedDocument).2 := by
    rw [ofBytes_orderedDocument, ofBytes_reorderedDocument]
  obtain ⟨hsame, _⟩ := compile_iff_of_reordered {} edited_reorderedDocument hmore
  exact (hsame _ _).mp compile_orderedDocument

end Compile

end ApiCommands
