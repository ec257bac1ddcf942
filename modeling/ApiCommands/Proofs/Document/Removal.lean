import ApiCommands.Proofs.Document.Edits

namespace ApiCommands.Document

/-!
# Taking paths and operations away

A document can still be read when a path or an operation is taken out of it, and it has all the
other operations as before.
-/

open Json (Outline Shape Reading Cut)

section Table

variable {name other : String} {g : Outline → Outline}
  {f : List (Reading String × Outline) → List (Reading String × Outline)} {o : Outline}

/-- Changes what stands under a name. -/
def mapEntry (name : String) (g : Outline → Outline) (ms : List (Reading String × Outline)) :
    List (Reading String × Outline) :=
  ms.map fun e => (e.1, if e.1.toOption = some name then g e.2 else e.2)

def mapMembers (f : List (Reading String × Outline) → List (Reading String × Outline)) :
    Outline → Outline
  | .object ms stop => .object (f ms) stop
  | o => o

/-- Changes the members of the table in a field, in whichever way the record is written. -/
def mapTable (r : Record) (name : String)
    (f : List (Reading String × Outline) → List (Reading String × Outline)) : Outline → Outline
  | .object ms stop => .object (mapEntry name (mapMembers f) ms) stop
  | .array items stop => .array (items.modify (Outline.placeOf name r.fields) (mapMembers f)) stop
  | o => o

theorem entries_mapEntry (ms : List (Reading String × Outline)) (stop : Option Cut) :
    (Outline.object (mapEntry name g ms) stop).entries =
      (Outline.object ms stop).entries.map fun e => (e.1, if e.1 = name then g e.2 else e.2) := by
  rw [Outline.entries, Outline.entries, mapEntry, List.filterMap_map, List.map_filterMap]
  refine List.filterMap_congr ?_
  rintro ⟨key, x⟩ _
  cases key <;> simp [Except.toOption]

theorem forall_mem_mapEntry {P : Reading String × Outline → Prop}
    {ms : List (Reading String × Outline)} (h : ∀ m ∈ ms, P m)
    (hg : ∀ x, P (.ok name, x) → P (.ok name, g x)) : ∀ m ∈ mapEntry name g ms, P m := by
  intro m hm
  obtain ⟨⟨key, x⟩, hx, rfl⟩ := List.mem_map.mp hm
  have hold := h _ hx
  cases key with
  | error f => exact hold
  | ok n =>
      by_cases heq : n = name
      · subst heq
        simpa [Except.toOption] using hg x hold
      · simpa [Except.toOption, heq] using hold

theorem presentIfNotNull_mapMembers (x : Outline) :
    (mapMembers f x).presentIfNotNull = x.presentIfNotNull.map (mapMembers f) := by
  cases x <;> rfl

theorem recordField_mapTable {r : Record} {s t : Shape Record}
    (hname : r.fields.lookup name = some s) (hother : r.fields.lookup other = some t) :
    recordField r other (mapTable r name f o) =
      if other = name then (recordField r name o).map (mapMembers f)
      else recordField r other o := by
  cases o with
  | object ms stop =>
      rw [mapTable, recordField, Outline.field, entries_mapEntry]
      rw [lookup_map_entry (fun n x => if n = name then mapMembers f x else x)]
      by_cases heq : other = name
      · subst heq
        rw [if_pos rfl, recordField, Outline.field]
        cases (Outline.object ms stop).entries.lookup other with
        | none => rfl
        | some x => simp [presentIfNotNull_mapMembers]
      · simp [heq, recordField, Outline.field]
  | array items stop =>
      rw [mapTable, recordField, Outline.field, List.getElem?_modify]
      by_cases heq : other = name
      · subst heq
        rw [if_pos rfl, recordField, Outline.field]
        cases items[Outline.placeOf other r.fields]? with
        | none => rfl
        | some x => simp [presentIfNotNull_mapMembers]
      · have hplace := mt (Outline.placeOf_inj hname hother).mp (Ne.symm heq)
        simp [heq, hplace, recordField, Outline.field]
  | _ => simp [mapTable, recordField, Outline.field]

theorem given_mapEntry {S : Type} (fields : List (String × S))
    (ms : List (Reading String × Outline)) :
    Outline.given fields (mapEntry name g ms) = Outline.given fields ms := by
  rw [Outline.given, Outline.given, entries_mapEntry, List.map_map]
  rfl

theorem check_mapTable {r : Record} {s : Shape Record} {budget : Nat}
    (hname : r.fields.lookup name = some s)
    (hf : ∀ x, x.check records budget s = .ok () →
      (mapMembers f x).check records budget s = .ok ())
    (h : o.check records (budget + 1) (.record r) = .ok ()) :
    (mapTable r name f o).check records (budget + 1) (.record r) = .ok () := by
  have hfield : ∀ x, Outline.unlessNull (Outline.check records budget s) x = .ok () →
      Outline.unlessNull (Outline.check records budget s) (mapMembers f x) = .ok () := by
    intro x hx
    rcases Outline.unlessNull_eq_ok_iff.mp hx with rfl | hx
    · rfl
    · exact Outline.unlessNull_eq_ok_iff.mpr (.inr (hf x hx))
  cases o with
  | object ms stop =>
      obtain ⟨hstop, hms, hnodup⟩ := check_record_iff.mp h
      refine check_record_iff.mpr ⟨hstop, ?_, (given_mapEntry r.fields ms).symm ▸ hnodup⟩
      apply forall_mem_mapEntry hms
      intro x hx
      rw [Outline.fitsMember_known_iff hname] at hx ⊢
      exact hfield x hx
  | array items stop =>
      apply Outline.checkPositions_modify _ h
      intro field x hplace hx
      rw [show records.fields r = r.fields from rfl, Outline.getElem?_placeOf hname] at hplace
      cases hplace
      exact hfield x hx
  | _ => exact h

end Table

/-- A path item without the operation of a method. -/
def withoutOperation (m : Method) : Outline → Outline
  | .object members stop => .object (members.filter fun e => e.1.toOption != some m.key) stop
  | .array items stop =>
    .array (items.modify (Outline.placeOf m.key Record.pathItem.fields) fun _ => .null) stop
  | o => o

theorem entries_filter_members (name : String) (members : List (Reading String × Outline))
    (stop : Option Cut) :
    (Outline.object (members.filter fun e => e.1.toOption != some name) stop).entries =
      (Outline.object members stop).entries.filter fun e => !(e.1 == name) := by
  rw [Outline.entries, Outline.entries, List.filterMap_filter, List.filter_filterMap]
  refine List.filterMap_congr ?_
  rintro ⟨key, x⟩ _
  cases key with
  | error f => simp [Except.toOption]
  | ok n => by_cases h : n = name <;> simp [Except.toOption, Option.filter, h]

theorem lookup_key (m : Method) :
    Record.pathItem.fields.lookup m.key = some (.record .operation) := by
  cases m <;> rfl

theorem Method.key_injective : Function.Injective Method.key := by
  intro m n h
  cases m <;> cases n <;> first | rfl | (revert h; decide)

theorem recordField_withoutOperation (m n : Method) (x : Outline) :
    recordField .pathItem n.key (withoutOperation m x) =
      if n = m then none else recordField .pathItem n.key x := by
  cases x with
  | object members stop =>
      rw [withoutOperation, recordField, Outline.field, entries_filter_members, lookup_filter_ne]
      by_cases h : n = m
      · simp [h]
      · simp [h, Method.key_injective.ne h, recordField, Outline.field]
  | array items stop =>
      rw [withoutOperation, recordField, Outline.field, List.getElem?_modify]
      by_cases h : n = m
      · subst h
        rw [if_pos rfl]
        cases items[Outline.placeOf n.key Record.pathItem.fields]? <;>
          simp [Outline.presentIfNotNull]
      · have hkey : m.key ≠ n.key := fun heq => h (Method.key_injective heq.symm)
        have hplace := mt (Outline.placeOf_inj (lookup_key m) (lookup_key n)).mp hkey
        simp [h, hplace, recordField, Outline.field]
  | _ => simp [withoutOperation, recordField, Outline.field]

theorem check_withoutOperation {budget : Nat} {x : Outline} (m : Method)
    (h : x.check records budget (.record .pathItem) = .ok ()) :
    (withoutOperation m x).check records budget (.record .pathItem) = .ok () := by
  cases budget with
  | zero => cases x <;> exact h
  | succ budget =>
      cases x with
      | object members stop =>
          obtain ⟨hstop, hmembers, hnodup⟩ := check_record_iff.mp h
          refine check_record_iff.mpr ⟨hstop, ?_, ?_⟩
          · intro e he
            exact hmembers e (List.mem_filter.mp he).1
          · have hsublist : (Outline.given Record.pathItem.fields
                (members.filter fun e => e.1.toOption != some m.key)).Sublist
                (Outline.given Record.pathItem.fields members) :=
              ((List.filter_sublist.filterMap _).map _).filter _
            exact hnodup.sublist hsublist
      | array items stop => exact Outline.checkPositions_modify (fun _ _ _ _ => rfl) h
      | _ => exact h

/-! ### A document without them -/

/-- What is taken out of a document. -/
inductive Removal where
  | path (path : String)
  | operation (path : String) (m : Method)

namespace Removal

/-- Whether the operation of a path and a method is gone. -/
def gone : Removal → String → String → Bool
  | path p => fun q _ => q == p
  | operation p m => fun q n => q == p && n == m.name

def apply : Removal → Outline → Outline
  | path p => mapTable .document "paths" fun ms => ms.filter fun e => e.1.toOption != some p
  | operation p m => mapTable .document "paths" (mapEntry p (withoutOperation m))

end Removal

/-- A document that lacks some of the operations of another one and has the same schemas. -/
structure Lacks (gone : String → String → Bool) (o o' : Outline) : Prop where
  schemas : (ofOutline o').schemas = (ofOutline o).schemas
  absent : ∀ (path : String) (m : Method), gone path m.name = true → operationAt o' path m = none
  kept : ∀ (path : String) (m : Method), gone path m.name = false →
    operationAt o' path m = operationAt o path m

section Removal

variable {f : List (Reading String × Outline) → List (Reading String × Outline)} {o : Outline}

theorem schemas_mapTable :
    (ofOutline (mapTable .document "paths" f o)).schemas = (ofOutline o).schemas := by
  have hcomponents : recordField .document "components" (mapTable .document "paths" f o) =
      recordField .document "components" o :=
    (recordField_mapTable (s := .table (.record .pathItem)) (t := .record .components) rfl
      rfl).trans (if_neg (by decide))
  rw [ofOutline_eq, ofOutline_eq, hcomponents]

theorem tableField_mapTable {k : List (String × Outline) → List (String × Outline)}
    (hf : ∀ ms stop, (Outline.object (f ms) stop).entries = k (Outline.object ms stop).entries)
    (hk : k [] = []) : tableField .document "paths" (mapTable .document "paths" f o) =
      k (tableField .document "paths" o) := by
  have hpaths : recordField .document "paths" (mapTable .document "paths" f o) =
      (recordField .document "paths" o).map (mapMembers f) :=
    (recordField_mapTable (s := .table (.record .pathItem)) (t := .table (.record .pathItem)) rfl
      rfl).trans (if_pos rfl)
  rw [tableField, tableField, hpaths]
  cases recordField .document "paths" o with
  | none => exact hk.symm
  | some x =>
      cases x with
      | object ms stop => exact hf ms stop
      | _ => exact hk.symm

theorem lacks_removePath (p : String) (o : Outline) :
    Lacks (Removal.gone (.path p)) o (Removal.apply (.path p) o) := by
  have hitem : ∀ q, itemAt (Removal.apply (.path p) o) q =
      if q == p then none else itemAt o q := by
    intro q
    rw [itemAt, itemAt, Removal.apply, tableField_mapTable (entries_filter_members p) rfl,
      ← List.filter_reverse]
    exact lookup_filter_ne p q _
  refine ⟨schemas_mapTable, ?_, ?_⟩
  · intro q m hq
    rw [operationAt, hitem, if_pos (show (q == p) = true from hq), Option.bind_none]
  · intro q m hq
    rw [operationAt, hitem, show (q == p) = false from hq]
    rfl

theorem lacks_removeOperation (p : String) (m : Method) (o : Outline) :
    Lacks (Removal.gone (.operation p m)) o (Removal.apply (.operation p m) o) := by
  have hitem : ∀ q, itemAt (Removal.apply (.operation p m) o) q =
      (itemAt o q).map fun x => if q = p then withoutOperation m x else x := by
    intro q
    rw [itemAt, itemAt, Removal.apply, tableField_mapTable entries_mapEntry rfl,
      ← List.map_reverse]
    exact lookup_map_entry (fun q x => if q = p then withoutOperation m x else x) q _
  have hoperation : ∀ q n, operationAt (Removal.apply (.operation p m) o) q n =
      if q == p && n.name == m.name then none else operationAt o q n := by
    intro q n
    rw [operationAt, operationAt, hitem]
    cases itemAt o q with
    | none => simp
    | some x =>
        by_cases hq : q = p
        · simp [hq, recordField_withoutOperation, Method.name_injective.eq_iff]
        · simp [hq]
  refine ⟨schemas_mapTable, ?_, ?_⟩
  · intro q n hgone
    exact (hoperation q n).trans (if_pos hgone)
  · intro q n hgone
    rw [hoperation, show (q == p && n.name == m.name) = false from hgone]
    rfl

/-- What is left of a document lacks what is taken out, and nothing else. -/
theorem lacks_apply (r : Removal) (o : Outline) : Lacks r.gone o (r.apply o) := by
  cases r with
  | path p => exact lacks_removePath p o
  | operation p m => exact lacks_removeOperation p m o

theorem check_mapMembers {s : Shape Record} {budget : Nat}
    (hf : ∀ budget ms, (∀ m ∈ ms, Outline.FitsEntry (Outline.check records budget s) m) →
      ∀ m ∈ f ms, Outline.FitsEntry (Outline.check records budget s) m) {x : Outline}
    (h : x.check records budget (.table s) = .ok ()) :
    (mapMembers f x).check records budget (.table s) = .ok () := by
  cases budget with
  | zero => cases x <;> exact h
  | succ budget =>
      cases x with
      | object ms stop =>
          obtain ⟨hstop, hms⟩ := Outline.check_table_iff.mp h
          exact Outline.check_table_iff.mpr ⟨hstop, hf budget ms hms⟩
      | _ => exact h

/-- What is left of a document that can be read can be read. -/
theorem check_apply (r : Removal)
    (h : o.check records Json.nestingLimit (.record .document) = .ok ()) :
    (r.apply o).check records Json.nestingLimit (.record .document) = .ok () := by
  cases r with
  | path p =>
      apply check_mapTable (s := .table (.record .pathItem)) rfl _ h
      intro x hx
      apply check_mapMembers _ hx
      intro budget ms hms m hm
      exact hms m (List.mem_filter.mp hm).1
  | operation p m =>
      apply check_mapTable (s := .table (.record .pathItem)) rfl _ h
      intro x hx
      apply check_mapMembers _ hx
      intro budget ms hms
      apply forall_mem_mapEntry hms
      rintro x ⟨hname, hitem⟩
      exact ⟨hname, check_withoutOperation m hitem⟩

end Removal

end ApiCommands.Document
