import ApiCommands.Proofs.Json.Fits
import ApiCommands.Request.Answer
import ApiCommands.Text.Utf8
import Mathlib

namespace ApiCommands.Answer

/-!
# What a failed answer tells

The detail of a failure is the text of the body's `error`, else its `message`. The body is read
whole, so an `error` only counts where the `message` can be read too.
-/

open Json Outline

/-- The members of a body that is one object with each name once. What a failure may tell is within
the limits of what is kept. -/
structure IsObject (body : List UInt8) (members : List (String × Outline)) : Prop where
  outline : ofBytes body = (.object (members.map fun m => (.ok m.1, m.2)) none, false)
  wellFormed : ∀ m ∈ members, m.2.skip = .ok ()
  nodup : (members.map Prod.fst).Nodup
  kept : ∀ m ∈ members, m.1 ∈ bodyFields.map Prod.fst →
    ∃ v, m.2.toValue (nestingLimit - 1) = .ok v

def Says (members : List (String × Outline)) (name : String) (v : Value) : Prop :=
  ∃ o, (name, o) ∈ members ∧ o.toValue (nestingLimit - 1) = .ok v

def ErrorSays (members : List (String × Outline)) (text : String) : Prop :=
  text ≠ "" ∧ (Says members "error" (.string text) ∨
    ∃ ms, Says members "error" (.object ms) ∧ ("message", .string text) ∈ ms)

def MessageSays (members : List (String × Outline)) (text : String) : Prop :=
  text ≠ "" ∧ Says members "message" (.string text)

/-- The detail that some members tell: that of the error goes first. -/
inductive Tells (members : List (String × Outline)) : Option String → Prop where
  | error {text : String} (h : ErrorSays members text) : Tells members (some text)
  | message {text : String} (hno : ∀ t, ¬ErrorSays members t) (h : MessageSays members text) :
      Tells members (some text)
  | nothing (hno : ∀ t, ¬ErrorSays members t) (hnone : ∀ t, ¬MessageSays members t) :
      Tells members none

/-- The message is missing, null or a text. -/
def PlainMessage (members : List (String × Outline)) : Prop :=
  ∀ v, Says members "message" v → v = .null ∨ ∃ text, v = .string text

/-- The failure of a status other than the one of a refused token. -/
def report (status : Nat) (detail : Option String) : Failure :=
  if status = 404 then .notFound detail else .refused status detail

theorem report_inj {status : Nat} {d d' : Option String} :
    report status d = report status d' ↔ d = d' := by
  rw [report, report]
  split <;> simp

/-- The first of two texts is what the members tell, when they are those of the two members. -/
theorem tells_iff {members : List (String × Outline)} {e m : Option String}
    (he : ∀ t, e = some t ↔ ErrorSays members t) (hm : ∀ t, m = some t ↔ MessageSays members t)
    {d : Option String} : (e <|> m) = d ↔ Tells members d := by
  constructor
  · rintro rfl
    cases e with
    | some t => exact .error ((he t).mp rfl)
    | none =>
        have hno : ∀ t, ¬ErrorSays members t := fun t ht => nomatch (he t).mpr ht
        cases m with
        | some t => exact .message hno ((hm t).mp rfl)
        | none => exact .nothing hno fun t ht => nomatch (hm t).mpr ht
  · intro htells
    have hnone : (∀ t, ¬ErrorSays members t) → e = none := by
      intro hno
      exact Option.eq_none_iff_forall_ne_some.mpr fun t ht => hno t ((he t).mp ht)
    cases htells with
    | error h => simp [(he _).mpr h]
    | message hno h => simp [hnone hno, (hm _).mpr h]
    | nothing hno hno' =>
        have hmnone : m = none :=
          Option.eq_none_iff_forall_ne_some.mpr fun t ht => hno' t ((hm t).mp ht)
        simp [hnone hno, hmnone]

theorem failure_eq_report {status : Nat} (h : status ≠ 401) (body : List UInt8) :
    failure status body = report status (detail body) := by
  rw [failure, if_neg h, report]

theorem entries_ofMembers (members : List (String × Outline)) :
    (Outline.object (members.map fun m => (.ok m.1, m.2)) none).entries = members := by
  induction members with
  | nil => rfl
  | cons m members ih => rw [List.map_cons, entries_cons_ok, ih]

theorem field_ofMembers (members : List (String × Outline)) (name : String) :
    (Outline.object (members.map fun m => (.ok m.1, m.2)) none).field bodyFields name =
      (members.lookup name).bind presentIfNotNull := by
  rw [field, entries_ofMembers]

theorem errorText_eq_some_iff {v : Value} {text : String} : errorText v = some text ↔
    v = .string text ∨ ∃ ms, v = .object ms ∧ ms.lookup "message" = some (.string text) := by
  cases v with
  | object ms =>
      cases hlookup : ms.lookup "message" with
      | none => simp [errorText, hlookup]
      | some m => cases m <;> simp [errorText, hlookup, Value.string?]
  | _ => simp [errorText]

namespace IsObject

variable {body : List UInt8} {members : List (String × Outline)}

theorem says_iff (h : IsObject body members) {name : String} {v : Value} :
    Says members name v ↔
      ∃ o, members.lookup name = some o ∧ o.toValue (nestingLimit - 1) = .ok v := by
  refine exists_congr fun o => and_congr_left fun _ => ⟨?_, mem_of_lookup⟩
  exact fun hmem => lookup_of_mem h.nodup hmem

/-- What is read as the value of a field, where it is given. -/
theorem value_of_lookup (h : IsObject body members) {name : String} {o : Outline}
    (hname : name ∈ bodyFields.map Prod.fst) (hlookup : members.lookup name = some o) :
    ∃ v, o.toValue (nestingLimit - 1) = .ok v ∧ o.plainValue = v ∧
      ∀ v', Says members name v' ↔ v' = v := by
  obtain ⟨v, hv⟩ := h.kept _ (mem_of_lookup hlookup) hname
  refine ⟨v, hv, ?_, fun v' => ?_⟩
  · rw [plainValue, toValue_mono (Nat.sub_le nestingLimit 1) hv]
  · simp [h.says_iff, hlookup, hv, eq_comm]

theorem error_iff (h : IsObject body members) {text : String} :
    Text.unlessEmpty (((Outline.object (members.map fun m => (.ok m.1, m.2)) none).field bodyFields
        "error").bind fun e => errorText e.plainValue) = some text ↔ ErrorSays members text := by
  have hnull : ∀ o : Outline, ((presentIfNotNull o).bind fun e => errorText e.plainValue) =
      errorText o.plainValue := by
    intro o
    cases o <;> rfl
  rw [Text.unlessEmpty_eq_some_iff, and_comm, ErrorSays, field_ofMembers, Option.bind_assoc]
  refine and_congr_right fun _ => ?_
  cases hlookup : members.lookup "error" with
  | none => simp [h.says_iff, hlookup]
  | some o =>
      obtain ⟨v, hv, hplain, hsaid⟩ := h.value_of_lookup (by decide) hlookup
      rw [Option.bind_some, hnull, hplain, errorText_eq_some_iff]
      simp only [hsaid]
      cases kept_of_toValue hv with
      | @object _ _ vs _ =>
          simp [Value.ofMembers, Table.mem_ofList, Table.lookup_ofList]
      | _ => simp [eq_comm]

theorem message_iff (h : IsObject body members) (hplain : PlainMessage members) {text : String} :
    Text.unlessEmpty (((Outline.object (members.map fun m => (.ok m.1, m.2)) none).field bodyFields
        "message").map Outline.text) = some text ↔ MessageSays members text := by
  rw [Text.unlessEmpty_eq_some_iff, and_comm, MessageSays, field_ofMembers]
  refine and_congr_right fun _ => ?_
  cases hlookup : members.lookup "message" with
  | none => simp [h.says_iff, hlookup]
  | some o =>
      obtain ⟨v, hv, -, hsaid⟩ := h.value_of_lookup (by decide) hlookup
      simp only [Option.bind_some, hsaid]
      rcases hplain v ((hsaid v).mpr rfl) with rfl | ⟨s, rfl⟩
      · cases kept_of_toValue hv
        simp [presentIfNotNull]
      · cases kept_of_toValue hv
        simp [presentIfNotNull, Outline.text, eq_comm]

/-- The members fit unless there is a message of another type. -/
theorem fitsMember_iff (h : IsObject body members) {m : String × Outline} (hm : m ∈ members) :
    FitsMember bodyFields (check bodyRecords (nestingLimit - 1)) (.ok m.1, m.2) ↔
      (m.1 = "message" → ∀ v, Says members "message" v → v = .null ∨ ∃ text, v = .string text) := by
  obtain ⟨name, o⟩ := m
  by_cases hmessage : name = "message"
  · subst hmessage
    obtain ⟨v, hv, -, hsaid⟩ := h.value_of_lookup (by decide) (lookup_of_mem h.nodup hm)
    rw [fitsMember_known_iff (s := .text) rfl, unlessNull_eq_ok_iff]
    simp only [hsaid, forall_const, forall_eq]
    cases kept_of_toValue hv <;> simp [check, forget, Except.map, Value.ofMembers]
  by_cases herror : name = "error"
  · subst herror
    rw [fitsMember_known_iff (s := .anything) rfl, unlessNull_eq_ok_iff, check_anything_iff]
    exact iff_of_true (.inr (h.kept _ hm List.mem_cons_self)) fun hname => (hmessage hname).elim
  · have hunknown : bodyFields.lookup name = none := by
      simp [bodyFields, List.lookup_cons, beq_false_of_ne hmessage, beq_false_of_ne herror]
    rw [fitsMember_unknown_iff hunknown]
    exact iff_of_true (h.wellFormed _ hm) fun hname => (hmessage hname).elim

theorem check_iff (h : IsObject body members) :
    (Outline.object (members.map fun m => (.ok m.1, m.2)) none).check bodyRecords nestingLimit
      (.record ()) = .ok () ↔ PlainMessage members := by
  have hgiven : (given bodyFields (members.map fun m => (.ok m.1, m.2))).Nodup := by
    rw [given, entries_ofMembers]
    exact h.nodup.filter _
  rw [nestingLimit, check_object_iff, List.forall_mem_map]
  constructor
  · rintro ⟨-, hall, -⟩ v ⟨o, hm, hv⟩
    exact (h.fitsMember_iff hm).mp (hall _ hm) rfl v ⟨o, hm, hv⟩
  · intro hplain
    exact ⟨rfl, fun m hm => (h.fitsMember_iff hm).mpr fun _ => hplain, hgiven⟩

theorem detail_eq_iff (h : IsObject body members) (hplain : PlainMessage members)
    {d : Option String} : detail body = d ↔ Tells members d := by
  have hdetail : detail body = detailOf (.object (members.map fun m => (.ok m.1, m.2)) none) := by
    rw [detail, readWhole, h.outline]
    simp [bind, Except.bind, h.check_iff.mpr hplain, Except.map]
  rw [hdetail, detailOf]
  exact tells_iff (fun _ => h.error_iff) fun _ => h.message_iff hplain

theorem detail_eq_none (h : IsObject body members) (hplain : ¬PlainMessage members) :
    detail body = none := by
  rw [detail, readWhole, h.outline]
  cases hcheck : (Outline.object (members.map fun m => (.ok m.1, m.2)) none).check bodyRecords
      nestingLimit (.record ()) with
  | ok u => exact (hplain (h.check_iff.mp hcheck)).elim
  | error f => simp [bind, Except.bind, hcheck, Except.map]

end IsObject

/-- A failure carries the detail that the body tells, whatever its other members are, where its
message is missing, null or a text; and none where the message is of another type. -/
theorem failure_tells {body : List UInt8} {members : List (String × Outline)} {status : Nat}
    (h : IsObject body members) (hstatus : status ≠ 401) :
    (PlainMessage members → ∀ d, failure status body = report status d ↔ Tells members d) ∧
      (¬PlainMessage members → failure status body = report status none) := by
  rw [failure_eq_report hstatus]
  refine ⟨fun hplain d => ?_, fun hplain => ?_⟩
  · rw [report_inj, h.detail_eq_iff hplain]
  · rw [h.detail_eq_none hplain]

/-- An error with a message of its own, a null message, and a member that cannot be kept. -/
def nestedBody : List UInt8 := List.flatMap Text.Utf8.encode
  ["\x7b\"trace\":\"\\ud800\",\"error\":\x7b\"message\":\"gone\"\x7d,",
    "\"message\":null\x7d"]

def nestedMembers : List (String × Outline) :=
  [("trace", .string (.error .malformed)),
    ("error", .object [(.ok "message", .string (.ok "gone"))] none),
    ("message", .null)]

theorem isObject_nestedBody : IsObject nestedBody nestedMembers where
  outline := by cbv
  wellFormed := by simp [nestedMembers, skip, skipMembers]
  nodup := by decide
  kept := by
    simp [nestedMembers, bodyFields, toValue, readMembers, nestingLimit, bind, Except.bind,
      Except.map]

theorem failure_tells_nested : IsObject nestedBody nestedMembers ∧ (404 : Nat) ≠ 401 ∧
    PlainMessage nestedMembers ∧ ErrorSays nestedMembers "gone" ∧
    failure 404 nestedBody = .notFound (some "gone") := by
  have hplain : PlainMessage nestedMembers := by
    rintro v ⟨o, hmem, hv⟩
    simp [nestedMembers] at hmem
    subst hmem
    cases kept_of_toValue hv
    exact .inl rfl
  have hsaid : ErrorSays nestedMembers "gone" := by
    refine ⟨by decide, .inr ⟨[("message", .string "gone")], ?_, by simp⟩⟩
    exact ⟨_, List.mem_cons_of_mem _ List.mem_cons_self, by rfl⟩
  have hstatus : (404 : Nat) ≠ 401 := by decide
  obtain ⟨htells, -⟩ := failure_tells isObject_nestedBody hstatus
  exact ⟨isObject_nestedBody, hstatus, hplain, hsaid, (htells hplain _).mpr (.error hsaid)⟩

/-- A body whose error is a text and whose message is a list. -/
def numberedBody : List UInt8 :=
  Text.Utf8.encode "\x7b\"error\":\"session not found\",\"message\":[]\x7d"

/-- A message that is no text takes the detail of the error with it. -/
theorem loses_detail : ∃ members, IsObject numberedBody members ∧
    ErrorSays members "session not found" ∧ failure 404 numberedBody = .notFound none := by
  have herror : ∀ {n : Nat}, (Outline.string (.ok "session not found")).toValue n =
      .ok (.string "session not found") := (Kept.string _ _).toValue_eq
  refine ⟨[("error", .string (.ok "session not found")), ("message", .array [] none)],
    ⟨by cbv, ?_, by decide, ?_⟩, ⟨by decide, .inl ⟨_, List.mem_cons_self, herror⟩⟩,
    by decide +kernel⟩
  · simp [skip, skipItems]
  · simp [bodyFields, toValue, readItems, nestingLimit, Except.map]

end ApiCommands.Answer
