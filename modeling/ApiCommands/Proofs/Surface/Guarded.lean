import ApiCommands.Proofs.Surface.Collected
import Mathlib.Data.List.Perm.Basic

namespace ApiCommands.Surface

/-!
# Choices guard the request

Values are collected only where each of them is among the choices of its input, and otherwise the
first one that is not, in the order of the inputs, is reported. Neither tells in which order the
flags came.
-/

/-- The text that is sent for an input, where it is given. A switch that is off gives none. -/
def Supplies (vs : Values) (i : Input) (raw : String) : Prop :=
  ∃ v, (argId i.name, v) ∈ vs ∧ v.raw = raw

/-- What is made of the values of an endpoint, whose choices are asked of each value. -/
structure Guards (e : Endpoint) (vs : Values) : Prop where
  refuses : (∃ f, collect e vs = .error f) ↔
    ∃ i ∈ e.inputs, ∃ raw, Supplies vs i raw ∧ i.choices ≠ [] ∧ raw ∉ i.choices
  reports : ∀ f, collect e vs = .error f → ∃ before i after raw,
    e.inputs = before ++ i :: after ∧
      (∀ j ∈ before, ∀ text, Supplies vs j text → j.choices ≠ [] → text ∈ j.choices) ∧
      Supplies vs i raw ∧ i.choices ≠ [] ∧ raw ∉ i.choices ∧
      f = .valueNotAllowed i.name raw i.choices
  collects : ∀ given, collect e vs = .ok given →
    (given.map Given.name).Sublist (e.inputs.map fun i => i.name) ∧
      (given.map Given.name).Nodup ∧
      (∀ g, g ∈ given ↔
        ∃ i ∈ e.inputs, g.name = i.name ∧ g.location = i.location ∧ Supplies vs i g.raw) ∧
      ∀ i ∈ e.inputs, ∀ raw, Supplies vs i raw → i.choices ≠ [] → raw ∈ i.choices
  reordered : ∀ said said' vs', Reads said vs → Reads said' vs' → said'.Perm said →
    collect e vs' = collect e vs

theorem not_allows_iff {i : Input} {raw : String} :
    ¬i.Allows raw ↔ i.choices ≠ [] ∧ raw ∉ i.choices := by
  rw [Input.Allows, Classical.not_imp]

theorem rawOf_eq_some_iff {vs : Values} {i : Input} (hnodup : (vs.map Prod.fst).Nodup)
    (htypes : ∀ v, (argId i.name, v) ∈ vs → v.type = wantedType i) {raw : String} :
    rawOf vs i = some raw ↔ Supplies vs i raw := by
  constructor
  · intro h
    obtain ⟨v, hlookup, hraw⟩ := Option.bind_eq_some_iff.mp h
    rw [ArgValue.rawAs] at hraw
    split at hraw
    case isTrue => exact ⟨v, mem_of_lookup hlookup, Option.some.inj hraw⟩
    case isFalse => cases hraw
  · rintro ⟨v, hv, rfl⟩
    exact rawOf_of_mem hnodup hv (htypes v hv)

theorem collectInputs_congr {vs vs' : Values} {is : List Input}
    (h : ∀ i ∈ is, rawOf vs i = rawOf vs' i) : collectInputs vs is = collectInputs vs' is := by
  induction is with
  | nil => rfl
  | cons i is ih =>
      obtain ⟨hi, his⟩ := List.forall_mem_cons.mp h
      cases hraw : rawOf vs i with
      | none =>
          rw [collectInputs_cons_of_none hraw, collectInputs_cons_of_none (hi ▸ hraw), ih his]
      | some raw =>
          rw [collectInputs_cons_of_some hraw, collectInputs_cons_of_some (hi ▸ hraw), ih his]

theorem collect_of_perm {vs vs' : Values} (hnodup : (vs.map Prod.fst).Nodup)
    (hperm : vs'.Perm vs) (e : Endpoint) : collect e vs' = collect e vs := by
  refine collectInputs_congr fun i _ => ?_
  rw [rawOf, rawOf, lookup_eq_of_perm hnodup hperm.symm]

theorem isRead_unique : Relator.RightUnique IsRead := by
  rintro entry ⟨id, v⟩ ⟨id', v'⟩ ⟨rfl, hread⟩ ⟨rfl, hread'⟩
  rw [hread] at hread'
  cases hread'
  rfl

/-- Texts for the same arguments in another order are read as the same values in another order. -/
theorem Reads.perm {said said' : List (Arg × String)} {vs vs' : Values} (h : Reads said vs)
    (h' : Reads said' vs') (hperm : said'.Perm said) : vs'.Perm vs := by
  obtain ⟨ws, hws, hwsPerm⟩ := List.perm_comp_forall₂ hperm h
  rwa [List.right_unique_forall₂' isRead_unique h' hws]

/-- A failure reports the first value that is refused, in the order of the inputs. -/
theorem exists_first_of_error {vs : Values} {is : List Input} {f : Failure}
    (h : collectInputs vs is = .error f) :
    ∃ before i after raw, is = before ++ i :: after ∧
      (∀ j ∈ before, ∀ text, rawOf vs j = some text → j.Allows text) ∧
      rawOf vs i = some raw ∧ ¬i.Allows raw ∧ f = .valueNotAllowed i.name raw i.choices := by
  have hrefused : ¬∀ i ∈ is, ∀ raw, rawOf vs i = some raw → i.Allows raw := by
    intro hall
    rw [collectInputs_eq_ok hall] at h
    cases h
  obtain ⟨before, i, after, raw, hsplit, hbefore, hraw, hnot, herror⟩ :=
    exists_first_refused hrefused
  exact ⟨before, i, after, raw, hsplit, hbefore, hraw, hnot, Except.error.inj (h.symm.trans herror)⟩

section Values

variable {s : Scope} {n : Node} {e : Endpoint} {vs : Values}

theorem guards_of_holds (hat : s.At n) (he : n.endpoint = some e)
    (hnames : (e.inputs.map fun i => i.name).Nodup) (hholds : Holds s vs) : Guards e vs := by
  have hsupplies : ∀ i ∈ e.inputs, ∀ raw, rawOf vs i = some raw ↔ Supplies vs i raw := by
    intro i hi raw
    exact rawOf_eq_some_iff hholds.nodup fun v hv => type_of_mem hat he hnames hholds hi hv
  refine ⟨?_, ?_, ?_, fun said said' vs' hreads hreads' hperm => ?_⟩
  · constructor
    · rintro ⟨f, hf⟩
      obtain ⟨before, i, after, raw, hsplit, _, hraw, hnot, _⟩ := exists_first_of_error hf
      have hi : i ∈ e.inputs := by simp [hsplit]
      exact ⟨i, hi, raw, (hsupplies i hi raw).mp hraw, not_allows_iff.mp hnot⟩
    · rintro ⟨i, hi, raw, hraw, hrefused⟩
      cases hcollect : collect e vs with
      | error f => exact ⟨f, rfl⟩
      | ok given =>
          have hallows := (allows_of_collectInputs hcollect).2 i hi raw
          exact (not_allows_iff.mpr hrefused (hallows ((hsupplies i hi raw).mpr hraw))).elim
  · intro f hf
    obtain ⟨before, i, after, raw, hsplit, hbefore, hraw, hnot, rfl⟩ := exists_first_of_error hf
    obtain ⟨hsome, hout⟩ := not_allows_iff.mp hnot
    have hinputs : ∀ j ∈ before ++ i :: after, j ∈ e.inputs := fun j hj => hsplit ▸ hj
    refine ⟨before, i, after, raw, hsplit, ?_, ?_, hsome, hout, rfl⟩
    · intro j hj text htext
      exact hbefore j hj text ((hsupplies j (hinputs j (List.mem_append_left _ hj)) text).mpr htext)
    · exact (hsupplies i (hinputs i (by simp)) raw).mp hraw
  · intro given hgiven
    obtain ⟨rfl, hall⟩ := allows_of_collectInputs hgiven
    have hsublist := names_filterMap_givenOf vs e.inputs
    refine ⟨hsublist, hnames.sublist hsublist, fun g => ?_, ?_⟩
    · rw [List.mem_filterMap]
      refine exists_congr fun i => and_congr_right fun hi => ?_
      rw [givenOf_eq_some_iff, hsupplies i hi]
    · intro i hi raw hraw
      exact hall i hi raw ((hsupplies i hi raw).mpr hraw)
  · exact collect_of_perm hholds.nodup (hreads.perm hreads' hperm) e

end Values

/-- Whatever words a node's command accepts, on its own or at the end of a command line, its
choices guard what is made of the values, and these are read from what the words say. -/
theorem guards_of_parse {n : Node} {e : Endpoint} (he : n.endpoint = some e)
    (hnames : (e.inputs.map fun i => i.name).Nodup) :
    (∀ (s : Scope) (words : List String) (m : Matches), s.At n →
      parseLevel s {} words = .ok m → Guards e m.values) ∧
    ∀ (t : Tree) (version : String) (words : List String) (m : Matches),
      parse (build t version) words = .ok m → findNode t m = some n →
        ∃ (s : Scope) (outer own : List String), s.At n ∧ words = outer ++ n.name :: own ∧
          Gives s own m.lastValues ∧ Guards e m.lastValues := by
  refine ⟨fun s words m hat hparse => ?_, fun t version words m hparse hnode => ?_⟩
  · exact guards_of_holds hat he hnames (accepted_of_parseLevel (Sound.start s) hparse).holds
  · obtain ⟨s, outer, own, hat, hwords, hgives, _⟩ :=
      (accepted_of_parse hparse).exists_level (over_build t version) hnode
    exact ⟨s, outer, own, hat, hwords, hgives, guards_of_holds hat he hnames hgives.holds⟩

/-- A document with choices for a text and for an integer, and with a switch. -/
def guardedDocument : List UInt8 := List.flatMap Text.Utf8.encode
  ["\x7b\"paths\":\x7b\"/api/v1/x\":\x7b\"get\":\x7b\"parameters\":[",
    "\x7b\"name\":\"mode\",\"in\":\"query\",\"schema\":\x7b\"enum\":[\"auto\",\"off\"]\x7d\x7d,",
    "\x7b\"name\":\"k\",\"in\":\"query\",\"schema\":\x7b\"type\":\"integer\",\"enum\":[1,2]\x7d\x7d,",
    "\x7b\"name\":\"on\",\"in\":\"query\",\"schema\":\x7b\"type\":\"boolean\"\x7d\x7d]",
    "\x7d\x7d\x7d\x7d"]

def guardedCommand : Command :=
  { name := "x", parent := "", short := "", long := "", method := "GET", path := "/api/v1/x"
    params := [{ name := "mode", location := .query, choices := ["auto", "off"] },
      { name := "k", type := .integer, location := .query, choices := ["1", "2"] },
      { name := "on", type := .boolean, location := .query }] }

theorem compile_guardedDocument :
    compile {} guardedDocument = .ok ([guardedCommand], [.compiled 1]) := by
  decide +kernel

def guardedEndpoint : Endpoint := ⟨"GET", "/api/v1/x", inputs guardedCommand.params⟩

/-- Two values that are refused, in the other order than their inputs. -/
def refusedValues : Values := [("param__k", .int64 3), ("param__on", .on), ("param__mode", .text "")]

theorem guards_of_parse_refused :
    compile {} guardedDocument = .ok ([guardedCommand], [.compiled 1]) ∧
    Guards guardedEndpoint refusedValues ∧
    ∃ (s : Scope) (outer own : List String), s.At (Node.ofCommand "x" guardedCommand) ∧
      ["x", "--k", "03", "--on", "--mode="] = outer ++ "x" :: own ∧
      Gives s own refusedValues ∧ Guards guardedEndpoint refusedValues := by
  obtain ⟨hlevel, hline⟩ :=
    guards_of_parse (n := Node.ofCommand "x" guardedCommand) (e := guardedEndpoint) rfl (by decide)
  refine ⟨compile_guardedDocument, ?_, ?_⟩
  · exact hlevel ⟨ofNode (Node.ofCommand "x" guardedCommand), []⟩ ["--k", "03", "--on", "--mode="]
      ⟨refusedValues, []⟩ ⟨rfl, by simp⟩ (by decide +kernel)
  · exact hline (Tree.ofCommands [guardedCommand]) "1" ["x", "--k", "03", "--on", "--mode="]
      ⟨[], [⟨"x", refusedValues⟩]⟩ (by decide +kernel) rfl

/-- The first input is reported, though the value of another one came first. -/
example : collect guardedEndpoint refusedValues =
    .error (.valueNotAllowed "mode" "" ["auto", "off"]) := by
  decide +kernel

end ApiCommands.Surface
