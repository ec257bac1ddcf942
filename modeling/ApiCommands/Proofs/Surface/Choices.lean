import ApiCommands.Proofs.Json.Kept
import ApiCommands.Proofs.Surface.Delivery
import ApiCommands.Proofs.Surface.Numbers

namespace ApiCommands

/-!
# Listed choices of numbers

The choices of a flag are listed as JSON writes them. A listed number is read as the number nearest
to it, and what is looked for among the choices is the plain text of that one. An integer flag can
be given each of its choices, a number flag those that both layouts write alike.
-/

open Decimal
open Json (Number)

namespace Json.Number

/-- Numbers that a plain text writes as JSON does: integers of 53 bits, and decimals with a point
but without a power that are the same however a tie is decided. -/
def IsPlain : Number → Prop
  | .integer i => i.natAbs < 2 ^ 53
  | .float (.finite _ m e) =>
    let d := shortest .even m e
    let power := d.exponent + (natDigits d.coefficient).length - 1
    shortest .up m e = d ∧ d.exponent < 0 ∧ -5 ≤ power ∧ power < 16
  | .float _ => False

/-- Where digits stand after the point, no layout adds any. -/
theorem positional_of_point {ds : List Char} {whole : Int} (h : whole < ds.length)
    (l l' : Layout) : positional l ds whole = positional l' ds whole := by
  have hpoint : ∃ f, (parts ds whole).2 = some f := by
    rw [parts]
    split
    case isTrue => exact ⟨_, rfl⟩
    case isFalse =>
      rw [if_neg (by omega)]
      exact ⟨_, rfl⟩
  obtain ⟨f, hf⟩ := hpoint
  rw [positional_eq, positional_eq, hf]
  rfl

theorem text_nearest {x : Number} (h : x.IsPlain) :
    x.nearest.text plain = String.ofList x.text := by
  cases x with
  | integer i => exact text_plain_int h
  | float y =>
      cases y with
      | finite negative m e =>
          obtain ⟨htie, hpoint, hlow, hhigh⟩ := h
          have hplain : digitsText plain (shortest .even m e) =
              digitsText floatLayout (shortest .even m e) := by
            rw [digitsText, digitsText, plain, floatLayout]
            dsimp only
            rw [decide_eq_true hlow, decide_eq_true hhigh]
            exact positional_of_point (by omega) _ _
          rw [text, String.ofList_toList, nearest, Binary64.text, Binary64.text]
          change String.ofList (_ ++ digitsText plain (shortest .up m e)) = _
          rw [htie, hplain]
          rfl
      | infinite => exact h.elim
      | nan => exact h.elim

end Json.Number

namespace Surface

/-- The choices of a flag are the texts of numbers of its type. -/
structure ListsNumbers (i : Input) (xs : List Number) : Prop where
  listed : i.choices = xs.map fun x => Schema.choiceText (.number x)
  ofType : (i.type = .integer ∧ ∀ x ∈ xs, ∃ k, x = .integer k ∧ IsInt64 k) ∨
    (i.type = .number ∧ ∀ x ∈ xs, ∃ bytes, Json.parse bytes = .ok (.number x))

/-- Where all inputs but one are given what they allow, that one settles what is collected. -/
theorem collect_checked {e : Endpoint} {i : Input} (hi : i ∈ e.inputs) (hchoices : i.choices ≠ [])
    {value : String → Option ArgValue} {v : ArgValue} (hvalue : value i.name = some v)
    (hothers : ∀ j ∈ e.inputs, j ≠ i → ∀ w, value j.name = some w → j.Allows w.raw)
    {vs : Values} (hraw : ∀ j ∈ e.inputs, rawOf vs j = (value j.name).map ArgValue.raw) :
    collect e vs = if v.raw ∈ i.choices then .ok (assigned e value)
      else .error (.valueNotAllowed i.name v.raw i.choices) := by
  have hallows : ∀ j ∈ e.inputs, j ≠ i → ∀ raw, rawOf vs j = some raw → j.Allows raw := by
    intro j hj hne raw h
    obtain ⟨w, hw, rfl⟩ := Option.map_eq_some_iff.mp (hraw j hj ▸ h)
    exact hothers j hj hne w hw
  have hown : ∀ raw, rawOf vs i = some raw ↔ raw = v.raw := by
    intro raw
    rw [hraw i hi, hvalue, Option.map_some, Option.some.injEq, eq_comm]
  rw [collect]
  by_cases hmem : v.raw ∈ i.choices
  · rw [if_pos hmem, ← filterMap_givenOf hraw]
    refine collectInputs_eq_ok fun j hj raw h => ?_
    by_cases hji : j = i
    · subst hji
      exact fun _ => (hown raw).mp h ▸ hmem
    · exact hallows j hj hji raw h
  · rw [if_neg hmem]
    have hrefused : ¬∀ j ∈ e.inputs, ∀ raw, rawOf vs j = some raw → j.Allows raw := by
      intro hall
      exact hmem (hall i hi v.raw ((hown v.raw).mpr rfl) hchoices)
    obtain ⟨j, hj, raw, h, hnot, herror⟩ := collectInputs_eq_error hrefused
    by_cases hji : j = i
    · subst hji
      rw [herror, (hown raw).mp h]
    · exact (hnot (hallows j hj hji raw h)).elim

theorem choiceText_number (x : Number) :
    Schema.choiceText (.number x) = String.ofList x.text := rfl

/-- A listed text is read as a value of its flag: the integer itself, or the nearest number. -/
theorem exists_read_listed {i : Input} {xs : List Number} (h : ListsNumbers i xs) {x : Number}
    (hx : x ∈ xs) :
    ∃ v, (flagKind i).1.read (Schema.choiceText (.number x)) = .ok v ∧
      (i.type = .number → v = .binary64 x.nearest) ∧
      (i.type = .integer ∨ x.IsPlain → v.raw = Schema.choiceText (.number x)) := by
  rw [choiceText_number]
  rcases h.ofType with ⟨htype, hall⟩ | ⟨htype, hall⟩
  · obtain ⟨k, rfl, hk⟩ := hall x hx
    refine ⟨.int64 k, ?_, by simp [htype], fun _ => rfl⟩
    rw [flagKind_of_integer htype]
    simp [ValueKind.read, Number.text, readInt64_intText hk]
  · obtain ⟨bytes, hbytes⟩ := hall x hx
    have hread := Number.readBinary64_textIn Json.floatLayout (Json.denoted_of_parse hbytes)
    rw [← Number.text_eq_textIn] at hread
    refine ⟨.binary64 x.nearest, ?_, fun _ => rfl, fun hplain => ?_⟩
    · rw [flagKind_of_number htype]
      simp [ValueKind.read, hread]
    · exact Number.text_nearest (hplain.resolve_left (by simp [htype]))

/-- What the text of a flag is read as is the value that it spells. -/
theorem eq_of_spells {i : Input} (hflag : i.positional = false) (hswitch : i.type ≠ .boolean)
    {text : String} {v w : ArgValue} (hread : (flagKind i).1.read text = .ok v)
    (hspells : Spells i text w) : w = v := by
  have hon : w ≠ .on := by
    rintro rfl
    exact hswitch (type_eq_boolean hspells.type.symm)
  rw [hspells.reads hflag hon] at hread
  exact Except.ok.inj hread

/-- A flag of listed numbers can be given each text of its list, if the nodes on the way to it are
well named: it is read as a value, and that is collected exactly where its own text is among the
choices. Every integer is, and so is every number that a plain text writes as JSON does. -/
theorem chooses_listed {options : Compile.Options} {bytes : List UInt8} {commands : List Command}
    {notices : List Notice} (hcompile : compile options bytes = .ok (commands, notices))
    (version : String) {names : List String} {n : Node}
    (hpath : (Tree.ofCommands commands).LeadsTo names n)
    (hnamed : (Tree.ofCommands commands).WellNamedAlong names) {e : Endpoint}
    (he : n.endpoint = some e) {i : Input} (hi : i ∈ e.flags) {xs : List Number}
    (hlists : ListsNumbers i xs) {x : Number} (hx : x ∈ xs) :
    ∃ v, (flagKind i).1.read (Schema.choiceText (.number x)) = .ok v ∧
      (i.type = .number → v = .binary64 x.nearest) ∧
      (i.type = .integer ∨ x.IsPlain →
        v.raw = Schema.choiceText (.number x) ∧ v.raw ∈ i.choices) ∧
      ∀ (text : String → String) (value : String → Option ArgValue) (order : List Input),
        text i.name = Schema.choiceText (.number x) → (value i.name).isSome = true →
        Spelled e text value → Clear n e text value → order.Perm e.flags →
        (∀ j ∈ e.inputs, j ≠ i → ∀ w, value j.name = some w → j.Allows w.raw) →
        value i.name = some v ∧
        ∃ m, parse (build (Tree.ofCommands commands) version)
            (spelledLine names e text value order) = .ok m ∧
          findNode (Tree.ofCommands commands) m = some n ∧
          collect e m.lastValues = if v.raw ∈ i.choices then .ok (assigned e value)
            else .error (.valueNotAllowed i.name v.raw i.choices) := by
  obtain ⟨v, hread, hnumber, hplain⟩ := exists_read_listed hlists hx
  have hmem : Schema.choiceText (.number x) ∈ i.choices :=
    hlists.listed ▸ List.mem_map_of_mem hx
  refine ⟨v, hread, hnumber, fun h => ⟨hplain h, hplain h ▸ hmem⟩, ?_⟩
  intro text value order htext hgiven hspelled hclear horder hothers
  obtain ⟨hinput, hpositional⟩ := List.mem_filter.mp hi
  have hflag : i.positional = false := by simpa using hpositional
  have hswitch : i.type ≠ .boolean := by
    rcases hlists.ofType with ⟨htype, _⟩ | ⟨htype, _⟩ <;> simp [htype]
  obtain ⟨w, hvalue⟩ := Option.isSome_iff_exists.mp hgiven
  obtain rfl := eq_of_spells hflag hswitch hread (htext ▸ hspelled.spells i hinput w hvalue)
  obtain ⟨m, hparse, hfind, hraw⟩ :=
    exists_matches_of_spelled hcompile version hpath hnamed he hspelled hclear horder
  exact ⟨hvalue, m, hparse, hfind,
    collect_checked hinput (List.ne_nil_of_mem hmem) hvalue hothers hraw⟩

/-- A document with a flag whose choices are numbers. -/
def gaugeDocument : List UInt8 := Text.Utf8.encode
  "\x7b\"paths\":\x7b\"/api/v1/x\":\x7b\"get\":\x7b\"parameters\":[
    \x7b\"name\":\"f\",\"in\":\"query\",\"schema\":
    \x7b\"type\":\"number\",\"enum\":[2.5,1.0,9007199254740993]\x7d\x7d]\x7d\x7d\x7d\x7d"

def gaugeInput : Input :=
  ⟨{ name := "f", type := .number, location := .query
     choices := ["2.5", "1.0", "9007199254740993"] }, false⟩

def gaugeCommand : Command :=
  { name := "x", parent := "", short := "", long := "", method := "GET", path := "/api/v1/x"
    params := [gaugeInput.toParam] }

def gaugeEndpoint : Endpoint := ⟨"GET", "/api/v1/x", [gaugeInput]⟩

theorem compile_gaugeDocument :
    compile {} gaugeDocument = .ok ([gaugeCommand], [.compiled 1]) := by
  decide +kernel

/-- The number two and a half. -/
def gaugeNumber : Number := .float (.finite false (5 * 2 ^ 50) (-51))

theorem listsNumbers_gauge : ListsNumbers gaugeInput
    [gaugeNumber, .float (.finite false (2 ^ 52) (-52)), .integer 9007199254740993] where
  listed := by decide +kernel
  ofType := by
    have hdecimal : ∀ {w f : List Char} {x : Number}, IsNumeral w (some f) →
        (Json.literalOf false w (some f)).number = .ok x →
        ∃ bytes, Json.parse bytes = .ok (.number x) := by
      intro w f x hnumeral hnumber
      refine ⟨_, (Json.parse_numeral hnumeral false).trans ?_⟩
      rw [hnumber]
      rfl
    have hnumeral : ∀ {w f : Char}, isDigit w = true → isDigit f = true →
        IsNumeral [w] (some [f]) := by
      intro w f hw hf
      refine ⟨List.cons_ne_nil _ _, by simpa using hw, ?_, ?_, ?_⟩
      · rintro rest ⟨⟩
        rfl
      · rintro _ ⟨⟩
        exact List.cons_ne_nil _ _
      · rintro _ ⟨⟩
        simpa using hf
    refine .inr ⟨rfl, fun x hx => ?_⟩
    simp only [List.mem_cons, List.not_mem_nil, or_false] at hx
    rcases hx with rfl | rfl | rfl
    · exact hdecimal (hnumeral (w := '2') (f := '5') rfl rfl) (by decide +kernel)
    · exact hdecimal (hnumeral (w := '1') (f := '0') rfl rfl) (by decide +kernel)
    · exact ⟨Text.Utf8.encode "9007199254740993", rfl⟩

def gaugeValue (name : String) : Option ArgValue :=
  if name = "f" then some (.binary64 (.finite false (5 * 2 ^ 50) (-51))) else none

theorem spelled_gauge : Spelled gaugeEndpoint (fun _ => "2.5") gaugeValue where
  spells := by
    intro i hi v hv
    obtain rfl := List.mem_singleton.mp hi
    cases hv
    exact ⟨rfl, fun _ _ => by decide +kernel⟩
  positional := by simp [gaugeEndpoint, gaugeInput, Endpoint.positionals]
  required := by simp [gaugeEndpoint, gaugeInput, Endpoint.flags]

theorem chooses_listed_gauge :
    ∃ n m, Tree.LeadsTo (Tree.ofCommands [gaugeCommand]) ["x"] n ∧
      parse (build (Tree.ofCommands [gaugeCommand]) "1") ["x", "--f=2.5", "--"] = .ok m ∧
      findNode (Tree.ofCommands [gaugeCommand]) m = some n ∧
      collect gaugeEndpoint m.lastValues = .ok [⟨"f", .query, "2.5"⟩] := by
  have hfound : (Tree.find? "x" (Tree.ofCommands [gaugeCommand])).map
      (fun n => (n.endpoint, n.children.map Node.name)) = some (some gaugeEndpoint, []) := by
    decide +kernel
  obtain ⟨n, hfind, hn⟩ := Option.map_eq_some_iff.mp hfound
  obtain ⟨he, hchildren⟩ := Prod.mk.inj hn
  have hpath := Tree.leadsTo_of_find? hfind
  have hnamed := Tree.wellNamedAlong_of_forall (t := Tree.ofCommands [gaugeCommand])
    (by decide +kernel) (by decide +kernel) ["x"]
  have hi : gaugeInput ∈ gaugeEndpoint.flags := by decide
  have hclear : Clear n gaugeEndpoint (fun _ => "2.5") gaugeValue :=
    { long := by decide +kernel
      switch := by decide +kernel
      child := by simp [hchildren] }
  have hplain : gaugeNumber.IsPlain := by
    rw [gaugeNumber, Number.IsPlain]
    decide +kernel
  obtain ⟨v, -, hnumber, hraw, hchooses⟩ := chooses_listed compile_gaugeDocument "1" hpath hnamed
    he hi listsNumbers_gauge (x := gaugeNumber) List.mem_cons_self
  obtain ⟨hvalue, m, hparse, hnode, hcollect⟩ := hchooses (fun _ => "2.5") gaugeValue
    gaugeEndpoint.flags (by decide +kernel) rfl spelled_gauge hclear (List.Perm.refl _)
    (fun j hj hne => (hne (List.mem_singleton.mp hj)).elim)
  rw [if_pos (hraw (.inr hplain)).2] at hcollect
  have hwords : spelledLine ["x"] gaugeEndpoint (fun _ => "2.5") gaugeValue gaugeEndpoint.flags =
      ["x", "--f=2.5", "--"] := by
    decide +kernel
  have hassigned : assigned gaugeEndpoint gaugeValue = [⟨"f", .query, "2.5"⟩] := by
    decide +kernel
  exact ⟨n, m, hpath, hwords ▸ hparse, hnode, hassigned ▸ hcollect⟩

/-- A command line that is accepted gives its only flag a text of its list, and another text is
looked for there. -/
def Refuses (t : Tree) (e : Endpoint) (words : List String) (i : Input) (listed sent : String) :
    Prop :=
  ∃ m, parse (build t "1") words = .ok m ∧ (findNode t m).bind Node.endpoint = some e ∧
    e.flags = [i] ∧ listed ∈ i.choices ∧
    collect e m.lastValues = .error (.valueNotAllowed i.name sent i.choices)

theorem refuses_listed :
    compile {} gaugeDocument = .ok ([gaugeCommand], [.compiled 1]) ∧
      Refuses (Tree.ofCommands [gaugeCommand]) gaugeEndpoint ["x", "--f=1.0"] gaugeInput
        "1.0" "1" ∧
      Refuses (Tree.ofCommands [gaugeCommand]) gaugeEndpoint ["x", "--f", "9007199254740993"]
        gaugeInput "9007199254740993" "9007199254740992" := by
  refine ⟨compile_gaugeDocument, ⟨⟨[], [⟨"x", [("param__f", .binary64
    (.finite false (2 ^ 52) (-52)))]⟩]⟩, ?_⟩, ⟨⟨[], [⟨"x", [("param__f", .binary64
    (.finite false (2 ^ 52) 1))]⟩]⟩, ?_⟩⟩
  all_goals exact ⟨by decide +kernel, by decide +kernel, by decide, by decide, by decide +kernel⟩

end Surface

end ApiCommands
