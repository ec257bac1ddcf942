import ApiCommands.Proofs.Json.Numeral
import ApiCommands.Proofs.Request.Carried
import ApiCommands.Proofs.Surface.Collected
import ApiCommands.Proofs.Surface.Required
import ApiCommands.Proofs.Tables

namespace ApiCommands

/-!
# Numbers are sent as numbers

The value of an integer flag is sent as the integer that was typed, and a finite number as a
number. What is no finite number has no numeral, so its text is sent.
-/

open Decimal
open Json (Value IsLargest)

namespace Surface

/-- What is sent for the text of a flag of some type. The two numbers of largest magnitude are left
out. -/
def SentFor (text : String) (member : Value) : ParamType → Prop
  | .integer => ∃ k, IsInt64 k ∧ readInt64 text = some k ∧ member = .number (.integer k)
  | .number => ∃ x, readBinary64 text = some x ∧
    match x with
    | .finite _ m e => IsLargest m e ∨ ∃ y, member = .number y
    | x => member = .string (x.text plain)
  | _ => True

/-- Words of a level that say a text for the argument of some id. -/
def SaysText (s : Scope) (ws : List String) (id text : String) : Prop :=
  ∃ ended k said a, Says s ended k ws said ∧ (a, text) ∈ said ∧ a.id = id

/-- The body of the given values has a member, and so has every request that is prepared. -/
def HasMember (e : Endpoint) (given : List Given) (name : String) (member : Value) : Prop :=
  ∃ members, members.lookup name = some member ∧
    Request.bodyOf (Text.asciiUpper e.method) given = some (.object members) ∧
    ∀ r, Request.prepare e.method e.path given = .ok r → r.body = some (.object members)

theorem flagKind_of_integer {i : Input} (h : i.type = .integer) : (flagKind i).1 = .int64 := by
  rw [flagKind, h]

theorem flagKind_of_number {i : Input} (h : i.type = .number) : (flagKind i).1 = .binary64 := by
  rw [flagKind, h]

theorem toJson_of_parsed {g : Given} {v : Value} (h : Given.parsed? g.raw = some v) :
    g.toJson = v := by
  rw [Given.toJson, h, Option.getD_some]

theorem toJson_of_not_parsed {g : Given} (h : Given.parsed? g.raw = none) :
    g.toJson = .string g.raw := by
  rw [Given.toJson, h, Option.getD_none]

/-- The words for the other numbers are no JSON. -/
theorem parsed_text_infinite (negative : Bool) :
    Given.parsed? ((Binary64.infinite negative).text plain) = none := by
  cases negative <;> rfl

theorem parsed_text_nan : Given.parsed? (Binary64.nan.text plain) = none := rfl

theorem sentFor_of_read {i : Input} (htype : i.type = .integer ∨ i.type = .number) {text : String}
    {v : ArgValue} (hread : (flagKind i).1.read text = .ok v) (location : Location) :
    v.raw ≠ "" ∧ SentFor text (Given.mk i.name location v.raw).toJson i.type := by
  rcases htype with htype | htype
  · rw [flagKind_of_integer htype, ValueKind.read] at hread
    split at hread
    case h_2 => cases hread
    case h_1 k hk =>
      cases hread
      have hrange := isInt64_of_readInt64 hk
      refine ⟨ArgValue.raw_ne_empty (.inl rfl), ?_⟩
      rw [htype]
      exact ⟨k, hrange, hk, toJson_of_parsed (Json.parsed_intText hrange)⟩
  · rw [flagKind_of_number htype, ValueKind.read] at hread
    split at hread
    case h_2 => cases hread
    case h_1 x hx =>
      cases hread
      refine ⟨ArgValue.raw_ne_empty (.inr rfl), ?_⟩
      rw [htype]
      refine ⟨x, hx, ?_⟩
      cases x with
      | finite negative m e =>
          by_cases hlargest : IsLargest m e
          · exact .inl hlargest
          · obtain ⟨hm, he⟩ := bounds_of_readBinary64 hx
            obtain ⟨y, hy⟩ := Json.exists_parsed_text hm he hlargest negative
            exact .inr ⟨y, toJson_of_parsed hy⟩
      | infinite negative => exact toJson_of_not_parsed (parsed_text_infinite negative)
      | nan => exact toJson_of_not_parsed parsed_text_nan

theorem hasMember_of_mem {e : Endpoint} {given : List Given}
    (hnodup : (given.map Given.name).Nodup) {g : Given} (hg : g ∈ given)
    (hbody : g.location = .body) (hraw : g.raw ≠ "") : HasMember e given g.name g.toJson := by
  have hmem : (g.name, g.toJson) ∈ Request.membersOf given := by
    have hfilled := Request.mem_ofList_filled Given.toJson hnodup hg hraw
    rwa [hbody] at hfilled
  have hlookup := lookup_of_mem (Table.nodup_ofList _) hmem
  have hbodyOf : Request.bodyOf (Text.asciiUpper e.method) given =
      some (.object (Request.membersOf given)) :=
    if_pos (by simp [List.ne_nil_of_mem hmem])
  refine ⟨Request.membersOf given, hlookup, hbodyOf, fun r hr => ?_⟩
  rw [Request.prepare_eq_ok hr]
  exact hbodyOf

section Values

variable {s : Scope} {n : Node} {e : Endpoint} {ws : List String} {vs : Values}

/-- The value of a flag is read, by its kind, from a text that the words say for it. -/
theorem exists_text_of_gives (hat : s.At n) (he : n.endpoint = some e)
    (hnames : (e.inputs.map fun i => i.name).Nodup) (hgives : Gives s ws vs) {i : Input}
    (hi : i ∈ e.flags) (hgiven : argId i.name ∈ vs.map Prod.fst) :
    ∃ v text, (argId i.name, v) ∈ vs ∧ SaysText s ws (argId i.name) text ∧
      (flagKind i).1.read text = .ok v := by
  obtain ⟨⟨id, v⟩, hv, rfl⟩ := List.mem_map.mp hgiven
  obtain ⟨ended, k, said, hsaid, hreads⟩ := hgives.spoken
  obtain ⟨a, text, hmem, hid, hread⟩ := hreads.exists_mem hv
  obtain ⟨taken, hflag⟩ := exists_mem_flagArgs hi (ownNames e)
  have hown : flagArg (longName taken i.name).1 i ∈ endpointArgs e :=
    List.mem_append_right _ hflag
  obtain rfl := eq_of_id_eq hat he hnames (hsaid.mem_args _ hmem) hown hid
  exact ⟨v, text, hv, ⟨ended, k, said, _, hsaid, hmem, rfl⟩, hread⟩

/-- Either a value is refused, or the value of a flag is in the body. -/
theorem collects_or_hasMember (hnodup : (vs.map Prod.fst).Nodup)
    (hnames : (e.inputs.map fun i => i.name).Nodup) {i : Input} (hi : i ∈ e.inputs)
    (hbody : i.location = .body) {v : ArgValue} (hv : (argId i.name, v) ∈ vs)
    (htype : v.type = wantedType i) (hraw : v.raw ≠ "") :
    (∃ j ∈ e.inputs, ∃ raw, rawOf vs j = some raw ∧ ¬j.Allows raw ∧
      collect e vs = .error (.valueNotAllowed j.name raw j.choices)) ∨
    ∃ given, collect e vs = .ok given ∧
      HasMember e given i.name (Given.mk i.name i.location v.raw).toJson := by
  by_cases hall : ∀ j ∈ e.inputs, ∀ raw, rawOf vs j = some raw → j.Allows raw
  · refine .inr ⟨_, collectInputs_eq_ok hall, ?_⟩
    have hgiven : givenOf vs i = some ⟨i.name, i.location, v.raw⟩ :=
      givenOf_eq_some_iff.mpr ⟨rfl, rfl, rawOf_of_mem hnodup hv htype⟩
    exact hasMember_of_mem (hnames.sublist (names_filterMap_givenOf vs e.inputs))
      (List.mem_filterMap.mpr ⟨i, hi, hgiven⟩) hbody hraw
  · exact .inl (collectInputs_eq_error hall)

end Values

/-- Every integer of 64 bits can be typed for an integer flag, and whatever text is accepted for a
flag of the body that is an integer or a number, what it stands for is sent, unless a value is
refused for the choices of its input. -/
theorem sends_number {options : Compile.Options} {bytes : List UInt8} {commands : List Command}
    {notices : List Notice} (hcompile : compile options bytes = .ok (commands, notices)) {n : Node}
    {e : Endpoint} (he : n.endpoint = some e) {i : Input} (hi : i ∈ e.flags)
    (hbody : i.location = .body) (htype : i.type = .integer ∨ i.type = .number) :
    (i.type = .integer → ∀ k, IsInt64 k →
      (flagKind i).1.read (String.ofList (intText k)) = .ok (.int64 k)) ∧
    ∀ (version : String) (words : List String) (m : Matches),
      parse (build (Tree.ofCommands commands) version) words = .ok m →
      findNode (Tree.ofCommands commands) m = some n →
      argId i.name ∈ m.lastValues.map Prod.fst →
        ∃ (s : Scope) (outer own : List String) (text : String), s.At n ∧
          words = outer ++ n.name :: own ∧ SaysText s own (argId i.name) text ∧
          ((∃ j ∈ e.inputs, ∃ raw, rawOf m.lastValues j = some raw ∧ ¬j.Allows raw ∧
            collect e m.lastValues = .error (.valueNotAllowed j.name raw j.choices)) ∨
          ∃ given member, collect e m.lastValues = .ok given ∧ SentFor text member i.type ∧
            HasMember e given i.name member) := by
  obtain ⟨hinput, hflag⟩ := List.mem_filter.mp hi
  have hpositional : i.positional = false := by simpa using hflag
  refine ⟨fun hinteger k hk => ?_, fun version words m hparse hnode hgiven => ?_⟩
  · rw [flagKind_of_integer hinteger, ValueKind.read, readInt64_intText hk]
  · have hn := mem_nodes_of_walk (Tree.arrangement_ofCommands commands) hnode
    have hnames := (wellFormed_of_endpoint hcompile hn he).nodup
    obtain ⟨s, outer, own, hat, hwords, hgives, _⟩ :=
      (accepted_of_parse hparse).exists_level (over_build _ version) hnode
    obtain ⟨v, text, hv, hsays, hread⟩ := exists_text_of_gives hat he hnames hgives hi hgiven
    obtain ⟨hraw, hsent⟩ := sentFor_of_read htype hread i.location
    have hwanted : v.type = wantedType i :=
      (ValueKind.type_read hread).trans (type_flagKind hpositional)
    refine ⟨s, outer, own, text, hat, hwords, hsays, ?_⟩
    rcases collects_or_hasMember hgives.nodup hnames hinput hbody hv hwanted hraw with
      hrefused | ⟨given, hcollect, hmember⟩
    · exact .inl hrefused
    · exact .inr ⟨given, _, hcollect, hsent, hmember⟩

/-- A document with an integer and a number in the body. -/
def numericDocument : List UInt8 := List.flatMap Text.Utf8.encode
  ["\x7b\"paths\":\x7b\"/api/v1/x\":\x7b\"post\":\x7b\"requestBody\":\x7b\"content\":",
    "\x7b\"application/json\":\x7b\"schema\":\x7b\"properties\":\x7b",
    "\"k\":\x7b\"type\":\"integer\"\x7d,\"n\":\x7b\"type\":\"number\"\x7d",
    "\x7d\x7d\x7d\x7d\x7d\x7d\x7d\x7d\x7d"]

def numericCommand : Command :=
  { name := "x", parent := "", short := "", long := "", method := "POST", path := "/api/v1/x"
    params := [{ name := "k", type := .integer, location := .body },
      { name := "n", type := .number, location := .body }] }

theorem compile_numericDocument :
    compile {} numericDocument = .ok ([numericCommand], [.compiled 1]) := by
  decide +kernel

def numericEndpoint : Endpoint := ⟨"POST", "/api/v1/x", inputs numericCommand.params⟩

def numericTree : Tree := Tree.ofCommands [numericCommand]

theorem sends_number_limit :
    let n := Node.ofCommand "x" numericCommand
    let i : Input := ⟨{ name := "k", type := .integer, location := .body }, false⟩
    let vs : Values := [("param__k", .int64 (-0x8000000000000000))]
    n.endpoint = some numericEndpoint ∧ i ∈ numericEndpoint.flags ∧
    (flagKind i).1.read "9223372036854775807" = .ok (.int64 0x7FFFFFFFFFFFFFFF) ∧
    ∃ (s : Scope) (outer own : List String) (text : String), s.At n ∧
      ["x", "--k=-9223372036854775808"] = outer ++ "x" :: own ∧ SaysText s own "param__k" text ∧
      ((∃ j ∈ numericEndpoint.inputs, ∃ raw, rawOf vs j = some raw ∧ ¬j.Allows raw ∧
        collect numericEndpoint vs = .error (.valueNotAllowed j.name raw j.choices)) ∨
      ∃ given member, collect numericEndpoint vs = .ok given ∧ SentFor text member .integer ∧
        HasMember numericEndpoint given "k" member) := by
  have hi : (⟨{ name := "k", type := .integer, location := .body }, false⟩ : Input) ∈
      numericEndpoint.flags := by decide
  obtain ⟨hread, hsends⟩ := sends_number compile_numericDocument
    (show (Node.ofCommand "x" numericCommand).endpoint = some numericEndpoint from rfl) hi rfl
    (.inl rfl)
  refine ⟨rfl, hi, hread rfl 0x7FFFFFFFFFFFFFFF (by constructor <;> decide), ?_⟩
  exact hsends "1" ["x", "--k=-9223372036854775808"]
    ⟨[], [⟨"x", [("param__k", .int64 (-0x8000000000000000))]⟩]⟩ rfl rfl (by decide)

/-- Whether a command line is accepted, and a text is sent for the number of its only flag. -/
def SendsText (t : Tree) (words : List String) (name text : String) : Prop :=
  ∃ (m : Matches) (e : Endpoint) (i : Input) (given : List Given) (r : Prepared),
    parse (build t "1") words = .ok m ∧ (findNode t m).bind Node.endpoint = some e ∧
    (i ∈ e.flags ∧ i.name = name ∧ i.location = .body ∧ i.type = .number) ∧
    collect e m.lastValues = .ok given ∧ Request.prepare e.method e.path given = .ok r ∧
    r.body = some (.object [(name, .string text)])

theorem sendsText_nan : SendsText numericTree ["x", "--n=nan"] "n" "NaN" :=
  ⟨⟨[], [⟨"x", [("param__n", .binary64 .nan)]⟩]⟩, numericEndpoint,
    ⟨{ name := "n", type := .number, location := .body }, false⟩, [⟨"n", .body, "NaN"⟩],
    ⟨"POST", "/api/v1/x", some (.object [("n", .string "NaN")])⟩, rfl, rfl,
    by decide, rfl, rfl, rfl⟩

theorem sendsText_infinite : SendsText numericTree ["x", "--n=-inf"] "n" "-inf" :=
  ⟨⟨[], [⟨"x", [("param__n", .binary64 (.infinite true))]⟩]⟩, numericEndpoint,
    ⟨{ name := "n", type := .number, location := .body }, false⟩, [⟨"n", .body, "-inf"⟩],
    ⟨"POST", "/api/v1/x", some (.object [("n", .string "-inf")])⟩, rfl, rfl,
    by decide, rfl, rfl, rfl⟩

theorem sendsText_numeric :
    compile {} numericDocument = .ok ([numericCommand], [.compiled 1]) ∧
    SendsText numericTree ["x", "--n=nan"] "n" "NaN" ∧
    SendsText numericTree ["x", "--n=-inf"] "n" "-inf" :=
  ⟨compile_numericDocument, sendsText_nan, sendsText_infinite⟩

end Surface

end ApiCommands
