import ApiCommands.Proofs.Document.Agreement
import ApiCommands.Proofs.Document.Operations
import Mathlib.Logic.Relation

namespace ApiCommands.Document

/-!
# Changes that are not noticed

A change to a document is made somewhere inside its outline. What is wanted there decides whether
the reader notices it: when it does not notice the change where it is made, it does not notice it
in the whole document.
-/

open Json (Outline Shape Reading Cut Fault)

section Replace

variable {α : Type} {x y : α}

theorem forall_mem_replace {P : α → Prop} (h : P x ↔ P y) (before after : List α) :
    (∀ z ∈ before ++ x :: after, P z) ↔ ∀ z ∈ before ++ y :: after, P z := by
  simp only [List.forall_mem_append, List.forall_mem_cons, h]

theorem forall_mem_insert {P : α → Prop} (h : P x) (before after : List α) :
    (∀ z ∈ before ++ x :: after, P z) ↔ ∀ z ∈ before ++ after, P z := by
  simp only [List.forall_mem_append, List.forall_mem_cons, h, true_and]

theorem getElem?_replace {i : Nat} {before : List α} (h : i ≠ before.length) (x y : α)
    (after : List α) : (before ++ x :: after)[i]? = (before ++ y :: after)[i]? := by
  rw [List.getElem?_append, List.getElem?_append]
  split
  · rfl
  · obtain ⟨j, hj⟩ : ∃ j, i - before.length = j + 1 := ⟨i - before.length - 1, by omega⟩
    rw [hj, List.getElem?_cons_succ, List.getElem?_cons_succ]

theorem forall₂_replace {r : α → α → Prop} (hr : ∀ z, r z z) (h : r x y) (before after : List α) :
    List.Forall₂ r (before ++ x :: after) (before ++ y :: after) := by
  induction before with
  | nil => exact .cons h (List.forall₂_same.mpr fun z _ => hr z)
  | cons z before ih => exact .cons (hr z) ih

theorem rel_bind {β : Type} {r : β → β → Prop} {f : α → Option β} {a b : Option α}
    (h : Option.Rel (fun z w => Option.Rel r (f z) (f w)) a b) :
    Option.Rel r (a.bind f) (b.bind f) := by
  cases h with
  | none => exact .none
  | some h => exact h

end Replace

/-- What is wanted at a place of a document: nothing that is kept, or a shape. -/
inductive Place where
  | unread
  | kept (ordered : Bool) (shape : Shape Record)

namespace Place

def root : Place := kept false (.record .document)

def ofField (name : String) : Option (Shape Record) → Place
  | some s => kept (keepsOrder name) s
  | none => unread

/-- The place of an item; a record that is written as an array has its fields there. -/
def item (i : Nat) : Place → Place
  | kept _ .anything => kept false .anything
  | kept _ .textOrTexts => kept false .anything
  | kept _ (.list s) => kept false s
  | kept _ (.record r) =>
    match r.fields[i]? with
    | some (name, s) => ofField name (some s)
    | none => unread
  | _ => unread

def member (key : Reading String) : Place → Place
  | kept _ .anything => kept false .anything
  | kept _ .textOrTexts => kept false .anything
  | kept _ (.table s) => kept false s
  | kept _ (.record r) =>
    match key with
    | .ok name => ofField name (r.fields.lookup name)
    | .error _ => unread
  | _ => unread

theorem item_record {ordered : Bool} {r : Record} {i : Nat} {name : String} {s : Shape Record}
    (h : r.fields[i]? = some (name, s)) :
    item i (kept ordered (.record r)) = kept (keepsOrder name) s := by
  rw [item, h]
  rfl

theorem member_record {ordered : Bool} {r : Record} {name : String} {s : Shape Record}
    (h : r.fields.lookup name = some s) :
    member (.ok name) (kept ordered (.record r)) = kept (keepsOrder name) s := by
  rw [member, h]
  rfl

/-- Whether any value is kept at a place. -/
def KeepsValue : Place → Prop
  | kept _ .anything => True
  | kept _ .textOrTexts => True
  | _ => False

theorem KeepsValue.item {p : Place} (h : p.KeepsValue) (i : Nat) :
    p.item i = kept false .anything := by
  cases p with
  | unread => exact h.elim
  | kept ordered s => cases s <;> first | rfl | exact h.elim

theorem KeepsValue.member {p : Place} (h : p.KeepsValue) (key : Reading String) :
    p.member key = kept false .anything := by
  cases p with
  | unread => exact h.elim
  | kept ordered s => cases s <;> first | rfl | exact h.elim

def Fits (budget : Nat) : Place → Outline → Prop
  | unread, _ => True
  | kept _ s, o => o.check records budget s = .ok ()

def Agrees : Place → Outline → Outline → Prop
  | unread, _, _ => True
  | kept ordered s, o, o' => Agree ordered s o o'

end Place

/-- A change that is made at one place inside an outline. -/
inductive Within (change : Place → Outline → Outline → Prop) : Place → Outline → Outline → Prop
  | here {p : Place} {o o' : Outline} : change p o o' → Within change p o o'
  | item {p : Place} {o o' : Outline} {before after : List Outline} {stop : Option Fault} :
    Within change (p.item before.length) o o' →
      Within change p (.array (before ++ o :: after) stop) (.array (before ++ o' :: after) stop)
  | member {p : Place} {o o' : Outline} {key : Reading String}
    {before after : List (Reading String × Outline)} {stop : Option Cut} :
    Within change (p.member key) o o' →
      Within change p (.object (before ++ (key, o) :: after) stop)
        (.object (before ++ (key, o') :: after) stop)

theorem Within.first {change : Place → Outline → Outline → Prop} {p : Place} {o o' : Outline}
    {key : Reading String} {after : List (Reading String × Outline)} {stop : Option Cut}
    (h : Within change (p.member key) o o') :
    Within change p (.object ((key, o) :: after) stop) (.object ((key, o') :: after) stop) :=
  @Within.member change p o o' key [] after stop h

/-- Changes to a document, one after the other. -/
def Edited (change : Place → Outline → Outline → Prop) : Outline → Outline → Prop :=
  Relation.ReflTransGen (Within change Place.root)

/-- The reader does not tell two outlines apart at a place; `Room` says whether the second one may
be nested in as many containers more. -/
structure Alike (Room : Nat → Outline → Prop) (p : Place) (o o' : Outline) : Prop where
  null : o = .null ↔ o' = .null
  skips : o.skip = .ok () ↔ o'.skip = .ok ()
  fits : ∀ budget, Room budget o' → (p.Fits budget o ↔ p.Fits budget o')
  agrees : p.Agrees o o'

/-- A container has no more room than what it holds. -/
structure Inherited (Room : Nat → Outline → Prop) : Prop where
  item : ∀ {budget items stop o}, Room (budget + 1) (.array items stop) → o ∈ items →
    Room budget o
  member : ∀ {budget ms stop m}, Room (budget + 1) (.object ms stop) → m ∈ ms → Room budget m.2

section Containers

variable {Room : Nat → Outline → Prop} {p : Place} {o o' : Outline} {budget : Nat}

theorem unlessNull_iff {s : Shape Record} (hnull : o = .null ↔ o' = .null)
    (h : o.check records budget s = .ok () ↔ o'.check records budget s = .ok ()) :
    Outline.unlessNull (Outline.check records budget s) o = .ok () ↔
      Outline.unlessNull (Outline.check records budget s) o' = .ok () := by
  rw [Outline.unlessNull_eq_ok_iff, Outline.unlessNull_eq_ok_iff, hnull, h]

theorem rel_presentIfNotNull {r : Outline → Outline → Prop} (hnull : o = .null ↔ o' = .null)
    (h : r o o') : Option.Rel r o.presentIfNotNull o'.presentIfNotNull := by
  by_cases ho : o = .null
  · rw [ho, hnull.mp ho]
    exact .none
  · have hpresent : ∀ {x : Outline}, x ≠ .null → x.presentIfNotNull = some x := by
      intro x hx
      cases x with
      | null => exact (hx rfl).elim
      | _ => rfl
    rw [hpresent ho, hpresent (mt hnull.mpr ho)]
    exact .some h

theorem alike_anything {ordered : Bool} (hnull : o = .null ↔ o' = .null)
    (hskips : o.skip = .ok () ↔ o'.skip = .ok ()) (h : o.SameValue o') :
    Alike Room (.kept ordered .anything) o o' :=
  ⟨hnull, hskips, fun _ _ => h.check_anything_iff, h⟩

theorem alike_textOrTexts {ordered : Bool} (hnull : o = .null ↔ o' = .null)
    (hskips : o.skip = .ok () ↔ o'.skip = .ok ()) (h : o.SameValue o') :
    Alike Room (.kept ordered .textOrTexts) o o' :=
  ⟨hnull, hskips, fun _ _ => h.check_textOrTexts_iff, congrArg Schema.typeOf h.plainValue_eq⟩

section Array

variable {before after items items' : List Outline} {stop : Option Fault}

/-- Arrays are alike where they are so as a value, a list or a record: no array is anything else. -/
theorem alike_arrays
    (hskips : (Outline.array items stop).skip = .ok () ↔ (Outline.array items' stop).skip = .ok ())
    (hvalue : p.KeepsValue → Outline.SameValue (.array items stop) (.array items' stop))
    (hlist : ∀ ordered s, p = .kept ordered (.list s) →
      Alike Room p (.array items stop) (.array items' stop))
    (hrecord : ∀ ordered r, p = .kept ordered (.record r) →
      Alike Room p (.array items stop) (.array items' stop)) :
    Alike Room p (.array items stop) (.array items' stop) := by
  cases p with
  | unread => exact ⟨by simp, hskips, fun _ _ => .rfl, trivial⟩
  | kept ordered s =>
      cases s with
      | anything => exact alike_anything (by simp) hskips (hvalue trivial)
      | textOrTexts => exact alike_textOrTexts (by simp) hskips (hvalue trivial)
      | text | flag =>
          refine ⟨by simp, hskips, ?_, rfl⟩
          rintro (_ | budget) _ <;> exact .rfl
      | table s =>
          refine ⟨by simp, hskips, ?_, ?_⟩
          · rintro (_ | budget) _ <;> exact .rfl
          · cases ordered with
            | true => exact .nil
            | false => exact fun _ => .none
      | list s => exact hlist ordered s rfl
      | record r => exact hrecord ordered r rfl

theorem skip_array_replace (h : o.skip = .ok () ↔ o'.skip = .ok ()) :
    (Outline.array (before ++ o :: after) stop).skip = .ok () ↔
      (Outline.array (before ++ o' :: after) stop).skip = .ok () := by
  rw [Outline.skip_array_eq_ok_iff, Outline.skip_array_eq_ok_iff, forall_mem_replace h]

theorem alike_list_item {ordered : Bool} {s : Shape Record} (hroom : Inherited Room)
    (h : Alike Room (.kept false s) o o') :
    Alike Room (.kept ordered (.list s)) (.array (before ++ o :: after) stop)
      (.array (before ++ o' :: after) stop) := by
  refine ⟨by simp, skip_array_replace h.skips, ?_, ?_⟩
  · rintro (_ | budget) hfits
    · exact .rfl
    · have hmem : o' ∈ before ++ o' :: after := List.mem_append_right _ List.mem_cons_self
      have hitem : o.check records budget s = .ok () ↔ o'.check records budget s = .ok () :=
        h.fits budget (hroom.item hfits hmem)
      rw [Place.Fits, Place.Fits, Outline.check_list_iff, Outline.check_list_iff,
        forall_mem_replace hitem]
  · have hitems : List.Forall₂ (Agree false s) (before ++ o :: after) (before ++ o' :: after) :=
      forall₂_replace (Agree.refl false s) h.agrees before after
    cases ordered with
    | true => exact hitems
    | false => exact ⟨exists_mem_of_forall₂ hitems, exists_mem_of_forall₂ hitems.flip⟩

theorem alike_record_item {ordered : Bool} {r : Record} (hroom : Inherited Room)
    (h : Alike Room (Place.item before.length (.kept ordered (.record r))) o o') :
    Alike Room (.kept ordered (.record r)) (.array (before ++ o :: after) stop)
      (.array (before ++ o' :: after) stop) := by
  refine ⟨by simp, skip_array_replace h.skips, ?_, ?_⟩
  · rintro (_ | budget) hfits
    · exact .rfl
    · apply Outline.checkPositions_replace
      intro field hfield
      have hmem : o' ∈ before ++ o' :: after := List.mem_append_right _ List.mem_cons_self
      rw [Place.item_record hfield] at h
      exact unlessNull_iff h.null (h.fits budget (hroom.item hfits hmem))
  · apply sameRecord_of_fields
    intro name s hs
    have hplace := Outline.getElem?_placeOf hs
    by_cases heq : Outline.placeOf name r.fields = before.length
    · rw [← heq, Place.item_record hplace] at h
      simp only [recordField, Outline.field, heq, List.getElem?_append_right le_rfl,
        Nat.sub_self, List.getElem?_cons_zero, Option.bind_some]
      exact rel_presentIfNotNull h.null h.agrees
    · simp only [recordField, Outline.field, getElem?_replace heq o o']
      exact rel_refl (Agree.refl _ s) _

theorem Alike.array (hroom : Inherited Room) (h : Alike Room (p.item before.length) o o') :
    Alike Room p (.array (before ++ o :: after) stop) (.array (before ++ o' :: after) stop) := by
  apply alike_arrays (skip_array_replace h.skips)
  · intro hvalue
    rw [hvalue.item] at h
    exact Outline.SameValue.array h.agrees before after stop
  · rintro ordered s rfl
    exact alike_list_item hroom h
  · rintro ordered r rfl
    exact alike_record_item hroom h

end Array

section Object

variable {key : Reading String} {before after ms ms' : List (Reading String × Outline)}
  {stop : Option Cut}

/-- Objects are alike where they are so as a value, a table or a record: no object is anything
else. -/
theorem alike_objects
    (hskips : (Outline.object ms stop).skip = .ok () ↔ (Outline.object ms' stop).skip = .ok ())
    (hvalue : p.KeepsValue → Outline.SameValue (.object ms stop) (.object ms' stop))
    (htable : ∀ ordered s, p = .kept ordered (.table s) →
      Alike Room p (.object ms stop) (.object ms' stop))
    (hrecord : ∀ ordered r, p = .kept ordered (.record r) →
      Alike Room p (.object ms stop) (.object ms' stop)) :
    Alike Room p (.object ms stop) (.object ms' stop) := by
  cases p with
  | unread => exact ⟨by simp, hskips, fun _ _ => .rfl, trivial⟩
  | kept ordered s =>
      cases s with
      | anything => exact alike_anything (by simp) hskips (hvalue trivial)
      | textOrTexts => exact alike_textOrTexts (by simp) hskips (hvalue trivial)
      | text | flag =>
          refine ⟨by simp, hskips, ?_, rfl⟩
          rintro (_ | budget) _ <;> exact .rfl
      | list s =>
          refine ⟨by simp, hskips, ?_, ?_⟩
          · rintro (_ | budget) _ <;> exact .rfl
          · cases ordered with
            | true => exact .nil
            | false => exact ⟨nofun, nofun⟩
      | table s => exact htable ordered s rfl
      | record r => exact hrecord ordered r rfl

theorem check_record_iff {r : Record} :
    (Outline.object ms stop).check records (budget + 1) (.record r) = .ok () ↔
      stop = none ∧ (∀ m ∈ ms, Outline.FitsMember r.fields (Outline.check records budget) m) ∧
        (Outline.given r.fields ms).Nodup :=
  Outline.check_object_iff

theorem skip_object_replace (h : o.skip = .ok () ↔ o'.skip = .ok ()) :
    (Outline.object (before ++ (key, o) :: after) stop).skip = .ok () ↔
      (Outline.object (before ++ (key, o') :: after) stop).skip = .ok () := by
  have hskips : (key, o).2.skip = .ok () ↔ (key, o').2.skip = .ok () := h
  rw [Outline.skip_object_eq_ok_iff, Outline.skip_object_eq_ok_iff, forall_mem_replace hskips]

theorem entries_broken (f : Fault) :
    (Outline.object (before ++ (.error f, o) :: after) stop).entries =
      (Outline.object (before ++ (.error f, o') :: after) stop).entries := by
  rw [Outline.entries_append, Outline.entries_append]
  rfl

theorem agree_table_of_entries {ordered : Bool} {s : Shape Record}
    (h : o.entries = o'.entries) : Agree ordered (.table s) o o' := by
  have hrefl := Agree.refl ordered (.table s) o
  cases ordered with
  | true => rwa [Agree, ← h]
  | false => rwa [Agree, ← h]

theorem alike_table_member {ordered : Bool} {s : Shape Record} (hroom : Inherited Room)
    (h : Alike Room (.kept false s) o o') :
    Alike Room (.kept ordered (.table s)) (.object (before ++ (key, o) :: after) stop)
      (.object (before ++ (key, o') :: after) stop) := by
  refine ⟨by simp, skip_object_replace h.skips, ?_, ?_⟩
  · rintro (_ | budget) hfits
    · exact .rfl
    · have hmem : (key, o') ∈ before ++ (key, o') :: after :=
        List.mem_append_right _ List.mem_cons_self
      have hmember : Outline.FitsEntry (Outline.check records budget s) (key, o) ↔
          Outline.FitsEntry (Outline.check records budget s) (key, o') :=
        and_congr_right' (h.fits budget (hroom.member hfits hmem))
      rw [Place.Fits, Place.Fits, Outline.check_table_iff, Outline.check_table_iff,
        forall_mem_replace hmember]
  · have hagree : Agree false s o o' := h.agrees
    cases key with
    | error f => exact agree_table_of_entries (entries_broken f)
    | ok name =>
        rw [Place.Agrees]
        cases ordered with
        | true =>
            rw [Agree, Outline.entries_append, Outline.entries_append]
            exact forall₂_replace (fun e => ⟨rfl, Agree.refl false s e.2⟩) ⟨rfl, hagree⟩ _ _
        | false =>
            intro other
            simp only [Outline.entries_append, Outline.entries_cons_ok, List.reverse_append,
              List.reverse_cons, List.append_assoc, List.singleton_append]
            exact rel_lookup_replace (Agree.refl false s) (fun _ => hagree) _ _

section Record

variable {ordered : Bool} {r : Record}

theorem fitsMember_iff (hroom : Inherited Room)
    (h : Alike Room (Place.member key (.kept ordered (.record r))) o o')
    (hfits : Room (budget + 1) (.object (before ++ (key, o') :: after) stop)) :
    Outline.FitsMember r.fields (Outline.check records budget) (key, o) ↔
      Outline.FitsMember r.fields (Outline.check records budget) (key, o') := by
  cases key with
  | error f => simp [Outline.FitsMember]
  | ok name =>
      cases hname : r.fields.lookup name with
      | none =>
          rw [Outline.fitsMember_unknown_iff hname, Outline.fitsMember_unknown_iff hname]
          exact h.skips
      | some s =>
          have hmem : (.ok name, o') ∈ before ++ (.ok name, o') :: after :=
            List.mem_append_right _ List.mem_cons_self
          rw [Place.member_record hname] at h
          rw [Outline.fitsMember_known_iff hname, Outline.fitsMember_known_iff hname]
          exact unlessNull_iff h.null (h.fits budget (hroom.member hfits hmem))

theorem rel_recordField (h : Alike Room (Place.member key (.kept ordered (.record r))) o o')
    {name : String} {s : Shape Record} (hs : r.fields.lookup name = some s) :
    Option.Rel (Agree (keepsOrder name) s)
      (recordField r name (.object (before ++ (key, o) :: after) stop))
      (recordField r name (.object (before ++ (key, o') :: after) stop)) := by
  have hrel : Option.Rel
      (fun x x' => Option.Rel (Agree (keepsOrder name) s) x.presentIfNotNull x'.presentIfNotNull)
      ((Outline.object (before ++ (key, o) :: after) stop).entries.lookup name)
      ((Outline.object (before ++ (key, o') :: after) stop).entries.lookup name) := by
    have hrefl : ∀ x : Outline,
        Option.Rel (Agree (keepsOrder name) s) x.presentIfNotNull x.presentIfNotNull :=
      fun x => rel_refl (Agree.refl _ s) _
    cases key with
    | error f =>
        rw [entries_broken f]
        exact rel_refl hrefl _
    | ok n =>
        rw [Outline.entries_append, Outline.entries_append]
        apply rel_lookup_replace hrefl
        rintro rfl
        rw [Place.member_record hs] at h
        exact rel_presentIfNotNull h.null h.agrees
  exact rel_bind hrel

theorem alike_record_member (hroom : Inherited Room)
    (h : Alike Room (Place.member key (.kept ordered (.record r))) o o') :
    Alike Room (.kept ordered (.record r)) (.object (before ++ (key, o) :: after) stop)
      (.object (before ++ (key, o') :: after) stop) := by
  refine ⟨by simp, skip_object_replace h.skips, ?_, ?_⟩
  · rintro (_ | budget) hfits
    · exact .rfl
    · have hgiven : Outline.given r.fields (before ++ (key, o) :: after) =
          Outline.given r.fields (before ++ (key, o') :: after) := by
        rw [Outline.given, Outline.given, Outline.map_fst_entries_replace key o o']
      rw [Place.Fits, Place.Fits, check_record_iff, check_record_iff,
        forall_mem_replace (fitsMember_iff hroom h hfits), hgiven]
  · apply sameRecord_of_fields
    intro name s hs
    exact rel_recordField h hs

end Record

theorem Alike.object (hroom : Inherited Room) (h : Alike Room (p.member key) o o') :
    Alike Room p (.object (before ++ (key, o) :: after) stop)
      (.object (before ++ (key, o') :: after) stop) := by
  apply alike_objects (skip_object_replace h.skips)
  · intro hvalue
    rw [hvalue.member] at h
    exact Outline.SameValue.object h.agrees key before after stop
  · rintro ordered s rfl
    exact alike_table_member hroom h
  · rintro ordered r rfl
    exact alike_record_member hroom h

end Object

/-- A change that is not noticed where it is made is not noticed outside. The induction goes from
there to the whole outline, one container at a time. -/
theorem alike_of_within {change : Place → Outline → Outline → Prop} (hroom : Inherited Room)
    (hchange : ∀ {p o o'}, change p o o' → Alike Room p o o') (h : Within change p o o') :
    Alike Room p o o' := by
  induction h with
  | here h => exact hchange h
  | item _ ih => exact ih.array hroom
  | member _ ih => exact ih.object hroom

end Containers

section Runs

variable {Room : Nat → Outline → Prop} {change : Place → Outline → Outline → Prop}

theorem read_iff_of_alike {o o' : Outline} (h : Alike Room .root o o')
    (hroom : Room Json.nestingLimit o') (d : Document) : read o = .ok d ↔ read o' = .ok d := by
  have hfits : o.check records Json.nestingLimit (.record .document) = .ok () ↔
      o'.check records Json.nestingLimit (.record .document) = .ok () :=
    h.fits Json.nestingLimit hroom
  have hagree : ofOutline o = ofOutline o' := h.agrees
  rw [read_eq_ok_iff, read_eq_ok_iff, hfits, hagree]

/-- What is read of a document is read of it after any number of changes that are not noticed. -/
theorem read_iff_of_edited (hroom : Inherited Room)
    (hchange : ∀ {p o o'}, change p o o' → Alike Room p o o')
    (hback : ∀ {o o'}, Within change .root o o' → Room Json.nestingLimit o' →
      Room Json.nestingLimit o)
    {o o' : Outline} (h : Edited change o o') (hfinal : Room Json.nestingLimit o')
    (d : Document) : read o = .ok d ↔ read o' = .ok d := by
  induction h with
  | refl => exact .rfl
  | tail _ hstep ih =>
      -- The documents in between have room, too, since the last one has.
      have halike := alike_of_within hroom hchange hstep
      exact (ih (hback hstep hfinal)).trans (read_iff_of_alike halike hfinal d)

theorem parse_iff_of_read {bytes bytes' : List UInt8}
    (hmore : (Outline.ofBytes bytes).2 = (Outline.ofBytes bytes').2)
    (h : ∀ d, read (Outline.ofBytes bytes).1 = .ok d ↔ read (Outline.ofBytes bytes').1 = .ok d)
    (d : Document) : Document.parse bytes = .ok d ↔ Document.parse bytes' = .ok d := by
  rw [Document.parse, Document.parse, Outline.readWhole_eq_ok_iff, Outline.readWhole_eq_ok_iff, h d,
    hmore]

end Runs

end ApiCommands.Document
