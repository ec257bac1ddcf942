import ApiCommands.Proofs.Compile.Sites
import ApiCommands.Proofs.Document.Edits
import Mathlib

namespace ApiCommands

/-!
# Other spellings of a document

A null stands for a field that is left out, a type for a list of types that adds null to it, and
members of other names are passed over. So a document can be spelled in other ways without a change
to its commands.
-/

open Json (Outline Reading Cut Value)

namespace Json.Outline

mutual

/-- How many containers are nested in each other. -/
def depth : Outline → Nat
  | .array items _ => depthItems items + 1
  | .object members _ => depthMembers members + 1
  | _ => 0

def depthItems : List Outline → Nat
  | [] => 0
  | o :: os => max (depth o) (depthItems os)

def depthMembers : List (Reading String × Outline) → Nat
  | [] => 0
  | (_, o) :: ms => max (depth o) (depthMembers ms)

end

theorem depthItems_append (os os' : List Outline) :
    depthItems (os ++ os') = max (depthItems os) (depthItems os') := by
  induction os with
  | nil => simp [depthItems]
  | cons o os ih => rw [List.cons_append, depthItems, depthItems, ih, max_assoc]

theorem depthMembers_append (ms ms' : List (Reading String × Outline)) :
    depthMembers (ms ++ ms') = max (depthMembers ms) (depthMembers ms') := by
  induction ms with
  | nil => simp [depthMembers]
  | cons m ms ih => rw [List.cons_append, depthMembers, depthMembers, ih, max_assoc]

theorem depth_le_depthItems {o : Outline} {os : List Outline} (h : o ∈ os) :
    o.depth ≤ depthItems os := by
  obtain ⟨before, after, rfl⟩ := List.append_of_mem h
  rw [depthItems_append, depthItems]
  omega

theorem depth_le_depthMembers {m : Reading String × Outline} {ms : List (Reading String × Outline)}
    (h : m ∈ ms) : m.2.depth ≤ depthMembers ms := by
  obtain ⟨before, after, rfl⟩ := List.append_of_mem h
  rw [depthMembers_append, depthMembers]
  omega

end Json.Outline

namespace Document

/-- A record is spelled in another way: without a null that is its only member of that name, with a
list of types that comes down to the same one, or with a member more of another name. -/
inductive Respelled : Place → Outline → Outline → Prop
  | withoutNull {ordered : Bool} {r : Record} {name : String}
    {before after : List (Reading String × Outline)} {stop : Option Cut} :
    (r.fields.lookup name).isSome → (∀ m ∈ before ++ after, m.1 ≠ .ok name) →
      Respelled (.kept ordered (.record r)) (.object (before ++ (.ok name, .null) :: after) stop)
        (.object (before ++ after) stop)
  | withNull {ordered : Bool} {type : String} {types : List String} :
    types.find? (· ≠ "null") = some type →
      Respelled (.kept ordered .textOrTexts) (.string (.ok type))
        (.array (types.map fun t => .string (.ok t)) none)
  | withUnknown {ordered : Bool} {r : Record} {name : String} {o : Outline}
    {before after : List (Reading String × Outline)} {stop : Option Cut} :
    r.fields.lookup name = none → o.skip = .ok () →
      Respelled (.kept ordered (.record r)) (.object (before ++ after) stop)
        (.object (before ++ (.ok name, o) :: after) stop)

/-- An outline may be nested in as many containers more as are left under a limit. -/
def UpTo (budget : Nat) (o : Outline) : Prop := o.depth ≤ budget

theorem inherited_upTo : Inherited UpTo where
  item := by
    intro budget items stop o h hmem
    have hle := Outline.depth_le_depthItems hmem
    rw [UpTo, Outline.depth] at h
    rw [UpTo]
    omega
  member := by
    intro budget ms stop m h hmem
    have hle := Outline.depth_le_depthMembers hmem
    rw [UpTo, Outline.depth] at h
    rw [UpTo]
    omega

theorem depth_le_of_respelled {p : Place} {o o' : Outline} (h : Respelled p o o') :
    o.depth ≤ o'.depth := by
  cases h with
  | withoutNull _ _ =>
      simp only [Outline.depth, Outline.depthMembers_append, Outline.depthMembers]
      omega
  | withNull _ => exact Nat.zero_le _
  | withUnknown _ _ =>
      simp only [Outline.depth, Outline.depthMembers_append, Outline.depthMembers]
      omega

theorem depth_le_of_within {p : Place} {o o' : Outline} (h : Within Respelled p o o') :
    o.depth ≤ o'.depth := by
  induction h with
  | here h => exact depth_le_of_respelled h
  | item _ ih =>
      simp only [Outline.depth, Outline.depthItems_append, Outline.depthItems]
      omega
  | member _ ih =>
      simp only [Outline.depth, Outline.depthMembers_append, Outline.depthMembers]
      omega

section Record

variable {ordered : Bool} {r : Record} {name : String}
  {before after : List (Reading String × Outline)} {stop : Option Cut}

theorem skip_insert {key : Reading String} {o : Outline} (h : o.skip = .ok ()) :
    (Outline.object (before ++ (key, o) :: after) stop).skip = .ok () ↔
      (Outline.object (before ++ after) stop).skip = .ok () := by
  rw [Outline.skip_object_eq_ok_iff, Outline.skip_object_eq_ok_iff]
  exact and_congr_right fun _ =>
    forall_mem_insert (P := fun m : Reading String × Outline => m.2.skip = .ok ()) h before after

theorem alike_withoutNull (hname : (r.fields.lookup name).isSome)
    (honly : ∀ m ∈ before ++ after, m.1 ≠ .ok name) :
    Alike UpTo (.kept ordered (.record r)) (.object (before ++ (.ok name, .null) :: after) stop)
      (.object (before ++ after) stop) := by
  refine ⟨by simp, skip_insert rfl, ?_, ?_⟩
  · rintro (_ | budget) _
    · exact .rfl
    · obtain ⟨s, hs⟩ := Option.isSome_iff_exists.mp hname
      have hnull : Outline.FitsMember r.fields (Outline.check records budget) (.ok name, .null) :=
        (Outline.fitsMember_known_iff hs).mpr rfl
      have hnodup : (Outline.given r.fields (before ++ (.ok name, .null) :: after)).Nodup ↔
          (Outline.given r.fields (before ++ after)).Nodup := by
        have hnew : name ∉ Outline.given r.fields (before ++ after) :=
          Outline.notMem_given honly
        rw [Outline.given_append] at hnew
        rw [Outline.given_append, Outline.given_cons, if_pos hname, List.nodup_middle,
          List.nodup_cons, Outline.given_append]
        exact and_iff_right hnew
      rw [Place.Fits, Place.Fits, check_record_iff, check_record_iff, hnodup,
        forall_mem_insert hnull]
  · apply sameRecord_of_field_eq
    intro other s _
    rw [recordField, recordField, Outline.field, Outline.field]
    by_cases heq : other = name
    · -- The field is null before the change and missing after it.
      subst heq
      have hbefore : ∀ m ∈ before, m.1 ≠ .ok other :=
        fun m hm => honly m (List.mem_append_left _ hm)
      rw [Outline.lookup_entries_eq_none honly, Outline.entries_append, List.lookup_append,
        Outline.lookup_entries_eq_none hbefore, Outline.entries_cons_ok, List.lookup_cons_self]
      rfl
    · rw [Outline.lookup_entries_insert heq]

theorem alike_withUnknown {o : Outline} (hname : r.fields.lookup name = none)
    (hskip : o.skip = .ok ()) :
    Alike UpTo (.kept ordered (.record r)) (.object (before ++ after) stop)
      (.object (before ++ (.ok name, o) :: after) stop) := by
  refine ⟨by simp, (skip_insert hskip).symm, ?_, ?_⟩
  · rintro (_ | budget) _
    · exact .rfl
    · have hmember : Outline.FitsMember r.fields (Outline.check records budget) (.ok name, o) :=
        (Outline.fitsMember_unknown_iff hname).mpr hskip
      have hgiven : Outline.given r.fields (before ++ (.ok name, o) :: after) =
          Outline.given r.fields (before ++ after) := by
        rw [Outline.given_append, Outline.given_cons, hname, Option.isSome_none,
          if_neg Bool.false_ne_true, Outline.given_append]
      rw [Place.Fits, Place.Fits, check_record_iff, check_record_iff, hgiven,
        forall_mem_insert hmember]
  · apply sameRecord_of_field_eq
    intro other s hs
    have hne : other ≠ name := by
      rintro rfl
      rw [hname] at hs
      cases hs
    rw [recordField, recordField, Outline.field, Outline.field, Outline.lookup_entries_insert hne]

end Record

section Types

theorem readItems_texts (budget : Nat) (texts : List String) :
    Outline.readItems (Outline.toValue budget) none (texts.map fun t => .string (.ok t)) =
      .ok (texts.map .string) := by
  induction texts with
  | nil => rfl
  | cons t texts ih =>
      apply Outline.readItems_cons_eq_ok_iff.mpr
      exact ⟨.string t, texts.map .string, rfl, by rw [Outline.toValue]; rfl, ih⟩

theorem toValue_texts (budget : Nat) (texts : List String) :
    (Outline.array (texts.map fun t => .string (.ok t)) none).toValue (budget + 1) =
      .ok (.array (texts.map .string)) :=
  Outline.toValue_array_eq_ok_iff.mpr ⟨_, readItems_texts budget texts, rfl⟩

theorem alike_withNull {ordered : Bool} {type : String} {types : List String}
    (hfirst : types.find? (· ≠ "null") = some type) :
    Alike UpTo (.kept ordered .textOrTexts) (.string (.ok type))
      (.array (types.map fun t => .string (.ok t)) none) := by
  refine ⟨by simp, ?_, ?_, ?_⟩
  · rw [Outline.skip_array_eq_ok_iff]
    simp [Outline.skip]
  · rintro (_ | budget) hroom
    · -- A list needs room for itself.
      cases hroom
    · have htexts : (Value.array (types.map .string)).isTextOrTexts = true := by
        simp [Value.isTextOrTexts, Value.isText]
      have hstring : (Outline.string (.ok type)).check records (budget + 1) .textOrTexts =
          .ok () := Outline.check_textOrTexts_iff.mpr ⟨.string type, rfl, rfl⟩
      have harray : (Outline.array (types.map fun t => .string (.ok t)) none).check records
          (budget + 1) .textOrTexts = .ok () :=
        Outline.check_textOrTexts_iff.mpr ⟨_, toValue_texts budget types, htexts⟩
      exact iff_of_true hstring harray
  · have hnames : (types.map Value.string).filterMap Value.string? = types := by
      rw [List.filterMap_map]
      exact List.filterMap_some
    have harray := toValue_texts 126 types
    change Schema.typeOf (Outline.plainValue _) = Schema.typeOf (Outline.plainValue _)
    rw [Outline.plainValue, Outline.plainValue, Json.nestingLimit, harray]
    change type = _
    rw [Schema.typeOf, hnames, hfirst]
    rfl

end Types

theorem alike_of_respelled {p : Place} {o o' : Outline} (h : Respelled p o o') :
    Alike UpTo p o o' := by
  cases h with
  | withoutNull hname honly => exact alike_withoutNull hname honly
  | withNull hfirst => exact alike_withNull hfirst
  | withUnknown hname hskip => exact alike_withUnknown hname hskip

/-- The reader makes the same of a document in another spelling that it can take in. -/
theorem read_iff_of_respelled {o o' : Outline} (h : Edited Respelled o o')
    (hdepth : o'.depth ≤ Json.nestingLimit) (d : Document) : read o = .ok d ↔ read o' = .ok d := by
  apply read_iff_of_edited inherited_upTo alike_of_respelled _ h hdepth
  intro x x' hstep hx'
  exact (depth_le_of_within hstep).trans hx'

end Document

namespace Compile

open Document (Edited Respelled Within Place)

/-- A document in another spelling has the same commands, or both cannot be read. -/
theorem compile_iff_of_respelled (options : Options) {bytes bytes' : List UInt8}
    (h : Edited Respelled (Outline.ofBytes bytes).1 (Outline.ofBytes bytes').1)
    (hmore : (Outline.ofBytes bytes).2 = (Outline.ofBytes bytes').2)
    (hdepth : (Outline.ofBytes bytes').1.depth ≤ Json.nestingLimit)
    (commands : List Command) (notices : List Notice) :
    compile options bytes = .ok (commands, notices) ↔
      compile options bytes' = .ok (commands, notices) :=
  compile_iff_of_parse options
    (Document.parse_iff_of_read hmore (Document.read_iff_of_respelled h hdepth)) commands notices

/-- A null that stands there twice, and once. -/
def doubledNull : List UInt8 := Text.Utf8.encode "\x7b\"paths\":null,\"paths\":null\x7d"

def singleNull : List UInt8 := Text.Utf8.encode "\x7b\"paths\":null\x7d"

/-- Leaving out one of two nulls of a name is noticed, as a field may not come twice. -/
theorem compile_doubledNull :
    Outline.ofBytes doubledNull =
        (.object [(.ok "paths", .null), (.ok "paths", .null)] none, false) ∧
      Outline.ofBytes singleNull = (.object [(.ok "paths", .null)] none, false) ∧
      compile {} doubledNull = .error (.unreadableDocument .wrongShape) ∧
      compile {} singleNull = .ok ([], [.compiled 0]) := by
  refine ⟨by cbv, by cbv, ?_, ?_⟩
  · decide +kernel
  · decide +kernel

/-- A document with a null and a type that can be spelled in other ways. -/
def spelledDocument : List UInt8 := List.flatMap Text.Utf8.encode
  ["\x7b\"paths\":\x7b\"/api/v1/a\":\x7b\"get\":\x7b\"summary\":null,\"parameters\":",
    "[\x7b\"name\":\"q\",\"in\":\"query\",\"schema\":\x7b\"type\":\"integer\"\x7d\x7d]",
    "\x7d\x7d\x7d\x7d"]

def respelledDocument : List UInt8 := List.flatMap Text.Utf8.encode
  ["\x7b\"paths\":\x7b\"/api/v1/a\":\x7b\"get\":\x7b\"x-tag\":true,\"parameters\":",
    "[\x7b\"name\":\"q\",\"in\":\"query\",\"schema\":\x7b\"type\":[\"null\",\"integer\"]\x7d\x7d]\x7d\x7d\x7d\x7d"]

/-- A document with one operation. -/
def documentOf (operation : Outline) : Outline :=
  .object [(.ok "paths", .object [(.ok "/api/v1/a", .object [(.ok "get", operation)] none)] none)]
    none

/-- The parameters of an operation, one with a schema of a type. -/
def parametersOf (type : Outline) : Reading String × Outline :=
  (.ok "parameters", .array [.object [(.ok "name", .string (.ok "q")),
    (.ok "in", .string (.ok "query")), (.ok "schema", .object [(.ok "type", type)] none)] none]
    none)

def eitherType : Outline := .array (["null", "integer"].map fun t => .string (.ok t)) none

theorem ofBytes_spelledDocument : Outline.ofBytes spelledDocument = (documentOf
    (.object [(.ok "summary", .null), parametersOf (.string (.ok "integer"))] none), false) := by
  cbv

theorem ofBytes_respelledDocument : Outline.ofBytes respelledDocument = (documentOf
    (.object [(.ok "x-tag", .bool true), parametersOf eitherType] none), false) := by
  cbv

theorem within_documentOf {operation operation' : Outline}
    (h : Within Respelled (.kept false (.record .operation)) operation operation') :
    Within Respelled .root (documentOf operation) (documentOf operation') := by
  rw [documentOf, documentOf]
  exact .first (.first (.first h))

theorem edited_respelledDocument : Edited Respelled (Outline.ofBytes spelledDocument).1
    (Outline.ofBytes respelledDocument).1 := by
  have hnull : Within Respelled (.kept false (.record .operation))
      (.object [(.ok "summary", .null), parametersOf (.string (.ok "integer"))] none)
      (.object [parametersOf (.string (.ok "integer"))] none) :=
    .here (@Document.Respelled.withoutNull _ _ _ [] _ _ rfl (by simp [parametersOf]))
  have htype : Within Respelled (.kept false (.record .operation))
      (.object [parametersOf (.string (.ok "integer"))] none)
      (.object [parametersOf eitherType] none) := by
    have hschema : Within Respelled (.kept false (.record .schema))
        (.object [(.ok "type", .string (.ok "integer"))] none)
        (.object [(.ok "type", eitherType)] none) := .first (.here (.withNull rfl))
    rw [parametersOf, parametersOf]
    exact .first (@Within.item _ _ _ _ [] [] none (@Within.member _ _ _ _ _
      [(.ok "name", .string (.ok "q")), (.ok "in", .string (.ok "query"))] [] none hschema))
  have hunknown : Within Respelled (.kept false (.record .operation))
      (.object [parametersOf eitherType] none)
      (.object [(.ok "x-tag", .bool true), parametersOf eitherType] none) :=
    .here (@Document.Respelled.withUnknown _ _ _ _ [] _ _ rfl rfl)
  rw [ofBytes_spelledDocument, ofBytes_respelledDocument]
  apply Relation.ReflTransGen.head (within_documentOf hnull)
  apply Relation.ReflTransGen.head (within_documentOf htype)
  exact Relation.ReflTransGen.single (within_documentOf hunknown)

def spelledCommand : Command :=
  { name := "a", parent := "", short := "", long := "", method := "GET", path := "/api/v1/a"
    params := [{ name := "q", type := .integer, location := .query }] }

theorem compile_spelledDocument :
    compile {} spelledDocument = .ok ([spelledCommand], [.compiled 1]) := by
  decide +kernel

theorem compile_iff_of_respelled_nullable :
    compile {} respelledDocument = .ok ([spelledCommand], [.compiled 1]) := by
  have hmore : (Outline.ofBytes spelledDocument).2 = (Outline.ofBytes respelledDocument).2 := by
    rw [ofBytes_spelledDocument, ofBytes_respelledDocument]
  have hdepth : (Outline.ofBytes respelledDocument).1.depth ≤ Json.nestingLimit := by
    rw [ofBytes_respelledDocument]
    decide
  exact (compile_iff_of_respelled {} edited_respelledDocument hmore hdepth _ _).mp
    compile_spelledDocument

end Compile

end ApiCommands
