import ApiCommands.Json.Shape
import ApiCommands.Proofs.Tables
import Mathlib.Data.List.Forall2
import Mathlib.Data.List.Perm.Lattice

namespace ApiCommands.Json.Outline

/-!
# What a reader of outlines accepts

Each walk over the items or the members of a container is told apart into what it asks of every
one of them and what it asks of all together. The order of the members then only counts in what is
made of them.
-/

theorem entries_cons_ok (name : String) (o : Outline) (ms : List (Reading String × Outline))
    (stop : Option Cut) : (Outline.object ((.ok name, o) :: ms) stop).entries =
      (name, o) :: (Outline.object ms stop).entries := rfl

theorem entries_append (ms ms' : List (Reading String × Outline)) (stop : Option Cut) :
    (Outline.object (ms ++ ms') stop).entries =
      (Outline.object ms stop).entries ++ (Outline.object ms' stop).entries :=
  List.filterMap_append

theorem mem_entries_iff {name : String} {o : Outline} {ms : List (Reading String × Outline)}
    {stop : Option Cut} : (name, o) ∈ (Outline.object ms stop).entries ↔ (.ok name, o) ∈ ms := by
  rw [entries, List.mem_filterMap]
  constructor
  · rintro ⟨⟨key, x⟩, hmem, heq⟩
    cases key <;> cases heq
    exact hmem
  · intro hmem
    exact ⟨_, hmem, rfl⟩

theorem lookup_entries_eq_none {name : String} {ms : List (Reading String × Outline)}
    {stop : Option Cut} (h : ∀ m ∈ ms, m.1 ≠ .ok name) :
    (Outline.object ms stop).entries.lookup name = none := by
  apply Option.eq_none_iff_forall_ne_some.mpr
  intro o ho
  exact h _ (mem_entries_iff.mp (mem_of_lookup ho)) rfl

theorem lookup_entries_insert {name other : String} (h : other ≠ name) (o : Outline)
    (before after : List (Reading String × Outline)) (stop : Option Cut) :
    (Outline.object (before ++ (.ok name, o) :: after) stop).entries.lookup other =
      (Outline.object (before ++ after) stop).entries.lookup other := by
  rw [entries_append, entries_append, entries_cons_ok, List.lookup_append, List.lookup_append,
    List.lookup_cons, beq_false_of_ne h]

theorem map_fst_entries_replace (key : Reading String) (o o' : Outline)
    (before after : List (Reading String × Outline)) (stop : Option Cut) :
    (Outline.object (before ++ (key, o) :: after) stop).entries.map Prod.fst =
      (Outline.object (before ++ (key, o') :: after) stop).entries.map Prod.fst := by
  rw [entries_append, entries_append, List.map_append, List.map_append]
  cases key <;> rfl

theorem forget_eq_ok_iff {α : Type} {r : Reading α} : forget r = .ok () ↔ ∃ x, r = .ok x := by
  cases r <;> simp [forget, Except.map]

theorem exists_eq_ok_unit_iff {r : Reading Unit} : (∃ x, r = .ok x) ↔ r = .ok () :=
  ⟨fun ⟨_, h⟩ => h, fun h => ⟨(), h⟩⟩

section Walks

variable {α : Type} {read : Outline → Reading α}

theorem readItems_nil_eq_ok_iff {stop : Option Fault} {xs : List α} :
    readItems read stop [] = .ok xs ↔ stop = none ∧ xs = [] := by
  cases stop <;> simp [readItems, eq_comm]

theorem readItems_cons_eq_ok_iff {stop : Option Fault} {o : Outline} {os : List Outline}
    {xs : List α} : readItems read stop (o :: os) = .ok xs ↔
      ∃ y ys, xs = y :: ys ∧ read o = .ok y ∧ readItems read stop os = .ok ys := by
  rw [readItems]
  cases read o with
  | error f => simp [bind, Except.bind]
  | ok y => cases readItems read stop os <;> simp [bind, Except.bind, eq_comm]

theorem readMembers_nil_eq_ok_iff {stop : Option Cut} {xs : List (String × α)} :
    readMembers read stop [] = .ok xs ↔ stop = none ∧ xs = [] := by
  cases stop <;> simp [readMembers, eq_comm]

theorem readMembers_cons_eq_ok_iff {stop : Option Cut} {m : Reading String × Outline}
    {ms : List (Reading String × Outline)} {xs : List (String × α)} :
    readMembers read stop (m :: ms) = .ok xs ↔ ∃ name y ys, xs = (name, y) :: ys ∧
      m.1 = .ok name ∧ read m.2 = .ok y ∧ readMembers read stop ms = .ok ys := by
  obtain ⟨key, o⟩ := m
  rw [readMembers]
  cases key with
  | error f => simp [bind, Except.bind]
  | ok name =>
      cases read o with
      | error f => simp [bind, Except.bind]
      | ok y => cases readMembers read stop ms <;> simp [bind, Except.bind, eq_comm]

theorem exists_readItems_iff {stop : Option Fault} {os : List Outline} :
    (∃ xs, readItems read stop os = .ok xs) ↔
      stop = none ∧ ∀ o ∈ os, ∃ x, read o = .ok x := by
  induction os with
  | nil => simp [readItems_nil_eq_ok_iff]
  | cons o os ih =>
      rw [List.forall_mem_cons, and_left_comm, ← ih]
      constructor
      · rintro ⟨_, h⟩
        obtain ⟨y, ys, _, hy, hys⟩ := readItems_cons_eq_ok_iff.mp h
        exact ⟨⟨y, hy⟩, ys, hys⟩
      · rintro ⟨⟨y, hy⟩, ys, hys⟩
        exact ⟨y :: ys, readItems_cons_eq_ok_iff.mpr ⟨y, ys, rfl, hy, hys⟩⟩

theorem exists_readMembers_iff {stop : Option Cut} {ms : List (Reading String × Outline)} :
    (∃ xs, readMembers read stop ms = .ok xs) ↔
      stop = none ∧ ∀ m ∈ ms, (∃ name, m.1 = .ok name) ∧ ∃ x, read m.2 = .ok x := by
  induction ms with
  | nil => simp [readMembers_nil_eq_ok_iff]
  | cons m ms ih =>
      rw [List.forall_mem_cons, and_left_comm, ← ih]
      constructor
      · rintro ⟨_, h⟩
        obtain ⟨name, y, ys, _, hname, hy, hys⟩ := readMembers_cons_eq_ok_iff.mp h
        exact ⟨⟨⟨name, hname⟩, y, hy⟩, ys, hys⟩
      · rintro ⟨⟨⟨name, hname⟩, y, hy⟩, ys, hys⟩
        exact ⟨(name, y) :: ys, readMembers_cons_eq_ok_iff.mpr ⟨name, y, ys, rfl, hname, hy, hys⟩⟩

/-- What is read of some members is read of them in any other order, in that order. -/
theorem readMembers_of_perm {stop : Option Cut} {ms ms' : List (Reading String × Outline)}
    (hperm : ms.Perm ms') : ∀ {xs : List (String × α)}, readMembers read stop ms = .ok xs →
      ∃ xs', xs.Perm xs' ∧ readMembers read stop ms' = .ok xs' := by
  induction hperm with
  | nil =>
      intro xs h
      exact ⟨xs, .refl _, h⟩
  | cons m _ ih =>
      intro xs h
      obtain ⟨name, y, ys, rfl, hname, hy, hys⟩ := readMembers_cons_eq_ok_iff.mp h
      obtain ⟨ys', hperm, hys'⟩ := ih hys
      exact ⟨(name, y) :: ys', hperm.cons _,
        readMembers_cons_eq_ok_iff.mpr ⟨name, y, ys', rfl, hname, hy, hys'⟩⟩
  | swap m m' ms =>
      intro xs h
      obtain ⟨name', y', ys', rfl, hname', hy', h⟩ := readMembers_cons_eq_ok_iff.mp h
      obtain ⟨name, y, ys, rfl, hname, hy, h⟩ := readMembers_cons_eq_ok_iff.mp h
      exact ⟨(name, y) :: (name', y') :: ys, .swap _ _ _, readMembers_cons_eq_ok_iff.mpr
        ⟨name, y, _, rfl, hname, hy, readMembers_cons_eq_ok_iff.mpr
          ⟨name', y', ys, rfl, hname', hy', h⟩⟩⟩
  | trans _ _ ih ih' =>
      intro xs h
      obtain ⟨xs', hperm, h⟩ := ih h
      obtain ⟨xs'', hperm', h⟩ := ih' h
      exact ⟨xs'', hperm.trans hperm', h⟩

theorem map_fst_of_readMembers {stop : Option Cut} {ms : List (Reading String × Outline)}
    {xs : List (String × α)} (h : readMembers read stop ms = .ok xs) :
    xs.map Prod.fst = (Outline.object ms stop).entries.map Prod.fst := by
  induction ms generalizing xs with
  | nil =>
      obtain ⟨_, rfl⟩ := readMembers_nil_eq_ok_iff.mp h
      rfl
  | cons m ms ih =>
      obtain ⟨name, y, ys, rfl, hname, _, hys⟩ := readMembers_cons_eq_ok_iff.mp h
      obtain ⟨key, o⟩ := m
      subst hname
      rw [entries_cons_ok, List.map_cons, List.map_cons, ih hys]

end Walks

theorem skipItems_eq_ok_iff {stop : Option Fault} {os : List Outline} :
    skipItems stop os = .ok () ↔ stop = none ∧ ∀ o ∈ os, o.skip = .ok () := by
  induction os with
  | nil => cases stop <;> simp [skipItems]
  | cons o os ih =>
      rw [skipItems, List.forall_mem_cons, and_left_comm, ← ih]
      cases o.skip <;> simp

theorem skipMembers_eq_ok_iff {stop : Option Cut} {ms : List (Reading String × Outline)} :
    skipMembers stop ms = .ok () ↔ stop = none ∧ ∀ m ∈ ms, m.2.skip = .ok () := by
  induction ms with
  | nil => cases stop <;> simp [skipMembers]
  | cons m ms ih =>
      rw [skipMembers, List.forall_mem_cons, and_left_comm, ← ih]
      cases m.2.skip <;> simp

theorem skip_array_eq_ok_iff {items : List Outline} {stop : Option Fault} :
    (Outline.array items stop).skip = .ok () ↔ stop = none ∧ ∀ o ∈ items, o.skip = .ok () := by
  rw [skip, skipItems_eq_ok_iff]

theorem skip_object_eq_ok_iff {ms : List (Reading String × Outline)} {stop : Option Cut} :
    (Outline.object ms stop).skip = .ok () ↔ stop = none ∧ ∀ m ∈ ms, m.2.skip = .ok () := by
  rw [skip, skipMembers_eq_ok_iff]

section Records

variable {S : Type} {fields : List (String × S)} {check : S → Outline → Reading Unit}

theorem unlessNull_eq_ok_iff {check : Outline → Reading Unit} {o : Outline} :
    unlessNull check o = .ok () ↔ o = .null ∨ check o = .ok () := by
  cases o <;> simp [unlessNull]

/-- What a record asks of one of its members. -/
def FitsMember (fields : List (String × S)) (check : S → Outline → Reading Unit)
    (m : Reading String × Outline) : Prop :=
  ∃ name, m.1 = .ok name ∧
    match fields.lookup name with
    | none => m.2.skip = .ok ()
    | some s => unlessNull (check s) m.2 = .ok ()

/-- The fields that some members give. -/
def given (fields : List (String × S)) (ms : List (Reading String × Outline)) : List String :=
  ((Outline.object ms none).entries.map Prod.fst).filter fun name => (fields.lookup name).isSome

theorem given_cons (name : String) (o : Outline) (ms : List (Reading String × Outline)) :
    given fields ((.ok name, o) :: ms) =
      if (fields.lookup name).isSome then name :: given fields ms else given fields ms :=
  List.filter_cons

theorem fitsMember_known_iff {name : String} {s : S} (hname : fields.lookup name = some s)
    {o : Outline} : FitsMember fields check (.ok name, o) ↔ unlessNull (check s) o = .ok () := by
  simp [FitsMember, hname]

theorem fitsMember_unknown_iff {name : String} (hname : fields.lookup name = none) {o : Outline} :
    FitsMember fields check (.ok name, o) ↔ o.skip = .ok () := by
  simp [FitsMember, hname]

theorem given_append (ms ms' : List (Reading String × Outline)) :
    given fields (ms ++ ms') = given fields ms ++ given fields ms' := by
  rw [given, given, given, entries_append, List.map_append, List.filter_append]

theorem notMem_given {name : String} {ms : List (Reading String × Outline)}
    (h : ∀ m ∈ ms, m.1 ≠ .ok name) : name ∉ given fields ms := by
  intro hmem
  obtain ⟨⟨_, o⟩, ho, rfl⟩ := List.mem_map.mp (List.mem_filter.mp hmem).1
  exact h _ (mem_entries_iff.mp ho) rfl

theorem checkMembers_known_iff {stop : Option Cut} {seen : List String} {name : String} {s : S}
    (hname : fields.lookup name = some s) {o : Outline} {ms : List (Reading String × Outline)} :
    checkMembers fields check stop seen ((.ok name, o) :: ms) = .ok () ↔
      name ∉ seen ∧ unlessNull (check s) o = .ok () ∧
        checkMembers fields check stop (name :: seen) ms = .ok () := by
  simp only [checkMembers, hname, bind, Except.bind]
  by_cases hseen : name ∈ seen
  · simp [hseen]
  · cases unlessNull (check s) o <;> simp [hseen]

theorem checkMembers_unknown_iff {stop : Option Cut} {seen : List String} {name : String}
    (hname : fields.lookup name = none) {o : Outline} {ms : List (Reading String × Outline)} :
    checkMembers fields check stop seen ((.ok name, o) :: ms) = .ok () ↔
      o.skip = .ok () ∧ checkMembers fields check stop seen ms = .ok () := by
  simp only [checkMembers, hname, bind, Except.bind]
  cases o.skip <;> simp

/-- A record fits when each of its members does and none of its fields is given twice. -/
theorem checkMembers_eq_ok_iff {stop : Option Cut} {seen : List String}
    {ms : List (Reading String × Outline)} :
    checkMembers fields check stop seen ms = .ok () ↔
      stop = none ∧ (∀ m ∈ ms, FitsMember fields check m) ∧
        (given fields ms).Nodup ∧ ∀ name ∈ given fields ms, name ∉ seen := by
  induction ms generalizing seen with
  | nil => cases stop <;> simp [checkMembers, given, entries]
  | cons m ms ih =>
      obtain ⟨key, o⟩ := m
      cases key with
      | error f => simp [checkMembers, FitsMember, bind, Except.bind]
      | ok name =>
          rw [List.forall_mem_cons, given_cons]
          cases hname : fields.lookup name with
          | none =>
              rw [checkMembers_unknown_iff hname, fitsMember_unknown_iff hname, ih,
                Option.isSome_none, if_neg Bool.false_ne_true]
              tauto
          | some s =>
              rw [checkMembers_known_iff hname, fitsMember_known_iff hname, ih,
                Option.isSome_some, if_pos rfl]
              simp only [List.nodup_cons, List.mem_cons]
              grind

theorem checkPositions_cons_iff {early : Bool} {stop : Option Fault} {field : String × S}
    {fields : List (String × S)} {o : Outline} {os : List Outline} :
    checkPositions early check stop (field :: fields) (o :: os) = .ok () ↔
      unlessNull (check field.2) o = .ok () ∧
        checkPositions early check stop fields os = .ok () := by
  simp only [checkPositions, bind, Except.bind]
  cases unlessNull (check field.2) o <;> simp

/-- Only what is asked of an item at its place counts. -/
theorem checkPositions_replace {early : Bool} {stop : Option Fault} {o o' : Outline}
    {before after : List Outline} :
    ∀ {fields : List (String × S)}, (∀ field, fields[before.length]? = some field →
      (unlessNull (check field.2) o = .ok () ↔ unlessNull (check field.2) o' = .ok ())) →
    (checkPositions early check stop fields (before ++ o :: after) = .ok () ↔
      checkPositions early check stop fields (before ++ o' :: after) = .ok ()) := by
  induction before with
  | nil =>
      rintro (_ | ⟨field, fields⟩) h
      · exact .rfl
      · rw [List.nil_append, List.nil_append, checkPositions_cons_iff, checkPositions_cons_iff,
          h field rfl]
  | cons x before ih =>
      rintro (_ | ⟨field, fields⟩) h
      · exact .rfl
      · rw [List.cons_append, List.cons_append, checkPositions_cons_iff, checkPositions_cons_iff,
          ih fun field hfield => h field hfield]

/-- Changing an item keeps a record that is written as an array, when the item still fits. -/
theorem checkPositions_modify {early : Bool} {stop : Option Fault} {g : Outline → Outline}
    {items : List Outline} :
    ∀ {fields : List (String × S)} {i : Nat}, (∀ field o, fields[i]? = some field →
      unlessNull (check field.2) o = .ok () → unlessNull (check field.2) (g o) = .ok ()) →
    checkPositions early check stop fields items = .ok () →
      checkPositions early check stop fields (items.modify i g) = .ok () := by
  induction items with
  | nil =>
      intro fields i _ h
      rwa [List.modify_nil]
  | cons o items ih =>
      rintro (_ | ⟨field, fields⟩) i hg h
      · cases h
      · obtain ⟨ho, hitems⟩ := checkPositions_cons_iff.mp h
        cases i with
        | zero => exact checkPositions_cons_iff.mpr ⟨hg field o rfl ho, hitems⟩
        | succ i => exact checkPositions_cons_iff.mpr ⟨ho, ih hg hitems⟩

theorem getElem?_placeOf {name : String} {s : S} (h : fields.lookup name = some s) :
    fields[placeOf name fields]? = some (name, s) := by
  induction fields with
  | nil => cases h
  | cons field fields ih =>
      obtain ⟨n, t⟩ := field
      rw [List.lookup_cons] at h
      by_cases heq : name = n
      · rw [heq, beq_self_eq_true] at h
        cases h
        simp [placeOf, List.findIdx_cons, heq]
      · rw [beq_false_of_ne heq] at h
        simpa [placeOf, List.findIdx_cons, beq_false_of_ne (Ne.symm heq)] using ih h

end Records

theorem placeOf_inj {name other : String} {s t : S} (hname : fields.lookup name = some s)
    (hother : fields.lookup other = some t) :
    placeOf name fields = placeOf other fields ↔ name = other := by
  constructor
  · intro h
    have hplace := getElem?_placeOf hname
    rw [h, getElem?_placeOf hother] at hplace
    cases hplace
    rfl
  · rintro rfl
    rfl

/-- What a table asks of one of its members. -/
def FitsEntry (check : Outline → Reading Unit) (m : Reading String × Outline) : Prop :=
  (∃ name, m.1 = .ok name) ∧ check m.2 = .ok ()

section Check

variable {R : Type} {rs : Records R} {budget : Nat} {o : Outline}

theorem check_anything_iff :
    o.check rs budget .anything = .ok () ↔ ∃ v, o.toValue budget = .ok v := by
  rw [check, forget_eq_ok_iff]

theorem check_textOrTexts_iff : o.check rs budget .textOrTexts = .ok () ↔
    ∃ v, o.toValue budget = .ok v ∧ v.isTextOrTexts = true := by
  rw [check]
  cases o.toValue budget with
  | error f => simp [bind, Except.bind]
  | ok v => cases hv : v.isTextOrTexts <;> simp [bind, Except.bind, hv]

theorem check_list_iff {s : Shape R} {items : List Outline} {stop : Option Fault} :
    (Outline.array items stop).check rs (budget + 1) (.list s) = .ok () ↔
      stop = none ∧ ∀ x ∈ items, x.check rs budget s = .ok () := by
  simp only [check, forget_eq_ok_iff, exists_readItems_iff, exists_eq_ok_unit_iff]

theorem check_table_iff {s : Shape R} {ms : List (Reading String × Outline)} {stop : Option Cut} :
    (Outline.object ms stop).check rs (budget + 1) (.table s) = .ok () ↔
      stop = none ∧ ∀ m ∈ ms, FitsEntry (check rs budget s) m := by
  simp only [check, forget_eq_ok_iff, exists_readMembers_iff, exists_eq_ok_unit_iff, FitsEntry]

theorem check_object_iff {r : R} {ms : List (Reading String × Outline)} {stop : Option Cut} :
    (Outline.object ms stop).check rs (budget + 1) (.record r) = .ok () ↔
      stop = none ∧ (∀ m ∈ ms, FitsMember (rs.fields r) (check rs budget) m) ∧
        (given (rs.fields r) ms).Nodup := by
  rw [check, checkMembers_eq_ok_iff]
  simp

end Check

/-! ### Values -/

/-- Two outlines that are kept as the same value, or not at all. -/
def SameValue (o o' : Outline) : Prop :=
  ∀ budget v, o.toValue budget = .ok v ↔ o'.toValue budget = .ok v

theorem toValue_array_eq_ok_iff {budget : Nat} {items : List Outline} {stop : Option Fault}
    {v : Value} : (Outline.array items stop).toValue (budget + 1) = .ok v ↔
      ∃ vs, readItems (toValue budget) stop items = .ok vs ∧ .array vs = v := by
  rw [toValue]
  cases readItems (toValue budget) stop items <;> simp [Except.map]

theorem toValue_object_eq_ok_iff {budget : Nat} {ms : List (Reading String × Outline)}
    {stop : Option Cut} {v : Value} : (Outline.object ms stop).toValue (budget + 1) = .ok v ↔
      ∃ vs, readMembers (toValue budget) stop ms = .ok vs ∧ .ofMembers vs = v := by
  rw [toValue]
  cases readMembers (toValue budget) stop ms <;> simp [Except.map]

/-- The outlines that are kept within a budget, each with its value. -/
inductive Kept : Nat → Outline → Value → Prop where
  | null (budget : Nat) : Kept budget .null .null
  | bool (budget : Nat) (b : Bool) : Kept budget (.bool b) (.bool b)
  | number (budget : Nat) (n : Number) : Kept budget (.number (.ok n)) (.number n)
  | string (budget : Nat) (s : String) : Kept budget (.string (.ok s)) (.string s)
  | array {budget : Nat} {items : List Outline} {vs : List Value}
      (h : readItems (toValue budget) none items = .ok vs) :
      Kept (budget + 1) (.array items none) (.array vs)
  | object {budget : Nat} {ms : List (Reading String × Outline)} {vs : List (String × Value)}
      (h : readMembers (toValue budget) none ms = .ok vs) :
      Kept (budget + 1) (.object ms none) (.ofMembers vs)

theorem kept_of_toValue {budget : Nat} {o : Outline} {v : Value} (h : o.toValue budget = .ok v) :
    Kept budget o v := by
  cases o with
  | array items stop =>
      cases budget with
      | zero => cases h
      | succ budget =>
          obtain ⟨vs, hvs, rfl⟩ := toValue_array_eq_ok_iff.mp h
          obtain ⟨rfl, -⟩ := exists_readItems_iff.mp ⟨vs, hvs⟩
          exact .array hvs
  | object ms stop =>
      cases budget with
      | zero => cases h
      | succ budget =>
          obtain ⟨vs, hvs, rfl⟩ := toValue_object_eq_ok_iff.mp h
          obtain ⟨rfl, -⟩ := exists_readMembers_iff.mp ⟨vs, hvs⟩
          exact .object hvs
  | number kept =>
      rw [toValue] at h
      cases kept <;> cases h
      exact .number budget _
  | string kept =>
      rw [toValue] at h
      cases kept <;> cases h
      exact .string budget _
  | null =>
      rw [toValue] at h
      cases h
      exact .null budget
  | bool b =>
      rw [toValue] at h
      cases h
      exact .bool budget b
  | broken cut =>
      rw [toValue] at h
      cases h

theorem Kept.toValue_eq {budget : Nat} {o : Outline} {v : Value} (h : Kept budget o v) :
    o.toValue budget = .ok v := by
  cases h with
  | array h => exact toValue_array_eq_ok_iff.mpr ⟨_, h, rfl⟩
  | object h => exact toValue_object_eq_ok_iff.mpr ⟨_, h, rfl⟩
  | _ => rw [toValue] <;> rfl

theorem readItems_imp {α : Type} {read read' : Outline → Reading α} {stop : Option Fault}
    (h : ∀ o x, read o = .ok x → read' o = .ok x) {os : List Outline} :
    ∀ {xs : List α}, readItems read stop os = .ok xs → readItems read' stop os = .ok xs := by
  induction os with
  | nil => exact fun hxs => readItems_nil_eq_ok_iff.mpr (readItems_nil_eq_ok_iff.mp hxs)
  | cons o os ih =>
      intro xs hxs
      obtain ⟨y, ys, rfl, hy, hys⟩ := readItems_cons_eq_ok_iff.mp hxs
      exact readItems_cons_eq_ok_iff.mpr ⟨y, ys, rfl, h o y hy, ih hys⟩

theorem readMembers_imp {α : Type} {read read' : Outline → Reading α} {stop : Option Cut}
    (h : ∀ o x, read o = .ok x → read' o = .ok x) {ms : List (Reading String × Outline)} :
    ∀ {xs : List (String × α)}, readMembers read stop ms = .ok xs →
      readMembers read' stop ms = .ok xs := by
  induction ms with
  | nil => exact fun hxs => readMembers_nil_eq_ok_iff.mpr (readMembers_nil_eq_ok_iff.mp hxs)
  | cons m ms ih =>
      intro xs hxs
      obtain ⟨name, y, ys, rfl, hname, hy, hys⟩ := readMembers_cons_eq_ok_iff.mp hxs
      exact readMembers_cons_eq_ok_iff.mpr ⟨name, y, ys, rfl, hname, h m.2 y hy, ih hys⟩

/-- A value that is kept is kept within any larger budget. -/
theorem toValue_mono {budget larger : Nat} (hle : budget ≤ larger) {o : Outline} {v : Value}
    (h : o.toValue budget = .ok v) : o.toValue larger = .ok v := by
  induction budget generalizing larger o v with
  | zero =>
      cases kept_of_toValue h <;> rw [toValue] <;> rfl
  | succ budget ih =>
      obtain ⟨larger, rfl⟩ : ∃ n, larger = n + 1 := Nat.exists_eq_succ_of_ne_zero (by omega)
      have hread : ∀ (o : Outline) (v : Value), o.toValue budget = .ok v → o.toValue larger = .ok v :=
        fun _ _ => ih (by omega)
      cases kept_of_toValue h with
      | array hvs => exact (Kept.array (readItems_imp hread hvs)).toValue_eq
      | object hvs => exact (Kept.object (readMembers_imp hread hvs)).toValue_eq
      | _ => rw [toValue] <;> rfl

namespace SameValue

variable {o o' : Outline}

theorem refl (o : Outline) : SameValue o o := fun _ _ => .rfl

theorem plainValue_eq (h : SameValue o o') : o.plainValue = o'.plainValue := by
  rw [plainValue, plainValue]
  cases hv : o.toValue nestingLimit with
  | ok v => rw [(h nestingLimit v).mp hv]
  | error f =>
      cases hv' : o'.toValue nestingLimit with
      | error f' => rfl
      | ok v =>
          rw [(h nestingLimit v).mpr hv'] at hv
          cases hv

theorem check_anything_iff {R : Type} {rs : Records R} {budget : Nat} (h : SameValue o o') :
    o.check rs budget .anything = .ok () ↔ o'.check rs budget .anything = .ok () := by
  simp only [Outline.check_anything_iff, h budget]

theorem check_textOrTexts_iff {R : Type} {rs : Records R} {budget : Nat} (h : SameValue o o') :
    o.check rs budget .textOrTexts = .ok () ↔ o'.check rs budget .textOrTexts = .ok () := by
  simp only [Outline.check_textOrTexts_iff, h budget]

theorem array (h : SameValue o o') (before after : List Outline) (stop : Option Fault) :
    SameValue (.array (before ++ o :: after) stop) (.array (before ++ o' :: after) stop) := by
  rintro (_ | budget) v
  · exact .rfl
  · have hitems : ∀ vs, readItems (toValue budget) stop (before ++ o :: after) = .ok vs ↔
        readItems (toValue budget) stop (before ++ o' :: after) = .ok vs := by
      induction before with
      | nil =>
          intro vs
          simp only [List.nil_append, readItems_cons_eq_ok_iff, h budget]
      | cons x before ih =>
          intro vs
          simp only [List.cons_append, readItems_cons_eq_ok_iff, ih]
    simp only [toValue_array_eq_ok_iff, hitems]

theorem object (h : SameValue o o') (key : Reading String)
    (before after : List (Reading String × Outline)) (stop : Option Cut) :
    SameValue (.object (before ++ (key, o) :: after) stop)
      (.object (before ++ (key, o') :: after) stop) := by
  rintro (_ | budget) v
  · exact .rfl
  · have hmembers : ∀ vs,
        readMembers (toValue budget) stop (before ++ (key, o) :: after) = .ok vs ↔
          readMembers (toValue budget) stop (before ++ (key, o') :: after) = .ok vs := by
      induction before with
      | nil =>
          intro vs
          simp only [List.nil_append, readMembers_cons_eq_ok_iff, h budget]
      | cons m before ih =>
          intro vs
          simp only [List.cons_append, readMembers_cons_eq_ok_iff, ih]
    simp only [toValue_object_eq_ok_iff, hmembers]

/-- A value forgets the order of members with distinct names. -/
theorem of_perm {ms ms' : List (Reading String × Outline)} {stop : Option Cut}
    (hnodup : ((Outline.object ms stop).entries.map Prod.fst).Nodup) (hperm : ms.Perm ms') :
    SameValue (.object ms stop) (.object ms' stop) := by
  have hentries : ((Outline.object ms' stop).entries.map Prod.fst).Perm
      ((Outline.object ms stop).entries.map Prod.fst) := (hperm.symm.filterMap _).map _
  have hread : ∀ {ms₁ ms₂ : List (Reading String × Outline)} {budget : Nat} {v : Value},
      ((Outline.object ms₁ stop).entries.map Prod.fst).Nodup → ms₁.Perm ms₂ →
      (Outline.object ms₁ stop).toValue (budget + 1) = .ok v →
      (Outline.object ms₂ stop).toValue (budget + 1) = .ok v := by
    intro ms₁ ms₂ budget v hnodup hperm hv
    obtain ⟨vs, hvs, rfl⟩ := toValue_object_eq_ok_iff.mp hv
    obtain ⟨vs', hvperm, hvs'⟩ := readMembers_of_perm hperm hvs
    rw [← map_fst_of_readMembers hvs] at hnodup
    refine toValue_object_eq_ok_iff.mpr ⟨vs', hvs', ?_⟩
    rw [Value.ofMembers, Value.ofMembers, Table.ofList_eq_of_perm hnodup hvperm]
  rintro (_ | budget) v
  · exact .rfl
  · exact ⟨hread hnodup hperm, hread (hentries.nodup_iff.mpr hnodup) hperm.symm⟩

end SameValue

theorem readWhole_eq_ok_iff {α : Type} {read : Outline → Reading α} {bytes : List UInt8} {x : α} :
    readWhole read bytes = .ok x ↔ read (ofBytes bytes).1 = .ok x ∧ (ofBytes bytes).2 = false := by
  have hsteps : readWhole read bytes = (read (ofBytes bytes).1).bind fun y =>
      if (ofBytes bytes).2 then .error .malformed else .ok y := rfl
  rw [hsteps]
  cases read (ofBytes bytes).1 with
  | error f => simp [Except.bind]
  | ok y => cases (ofBytes bytes).2 <;> simp [Except.bind]

end ApiCommands.Json.Outline
