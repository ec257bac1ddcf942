import ApiCommands.Proofs.Surface.Guarded
import ApiCommands.Proofs.Surface.WellFormed

namespace ApiCommands.Surface

/-!
# What a refusal names

Only flags have choices in the commands of a document, so a value that is refused was given to a
flag. The message names it as its input, which is the long name of the flag unless a global flag
has that name.
-/

/-- The positional inputs of a compiled endpoint may be any text. -/
theorem mem_flags_of_choices {options : Compile.Options} {bytes : List UInt8}
    {commands : List Command} {notices : List Notice}
    (hcompile : compile options bytes = .ok (commands, notices)) {n : Node}
    (hn : n ∈ Tree.nodes (Tree.ofCommands commands)) {e : Endpoint} (he : n.endpoint = some e)
    {i : Input} (hi : i ∈ e.inputs) (hchoices : i.choices ≠ []) : i ∈ e.flags := by
  obtain ⟨d, site, _, c, _, rfl, rfl⟩ := exists_site_of_endpoint hcompile hn he
  refine List.mem_filter.mpr ⟨hi, ?_⟩
  cases hpositional : i.positional with
  | false => rfl
  | true =>
      have hmem := List.mem_filter.mpr ⟨hi, hpositional⟩
      rw [← Endpoint.positionals, positionals_eq_of_inputs rfl] at hmem
      obtain ⟨p, hp, rfl⟩ := List.mem_map.mp hmem
      have hfree : ∀ q ∈ (Compile.commandAt options d.schemas site).1.params,
          q.location = .path → q.choices = [] :=
        Compile.pathsFree_draft d.schemas site.method.name site.path _ site.operation
      exact (hchoices (Param.choices_of_mem_positionals hfree hp)).elim

/-- A failure reports a flag whose value is refused. One argument of the command stands for the
flag, under a long name that no global flag has. -/
structure Reports (n : Node) (e : Endpoint) (vs : Values) (f : Failure) (i : Input)
    (raw long : String) : Prop where
  flag : i ∈ e.flags
  given : rawOf vs i = some raw
  refused : i.choices ≠ [] ∧ raw ∉ i.choices
  failure : f = .valueNotAllowed i.name raw i.choices
  message : f.message = "invalid value " ++ Text.quote raw ++ " for --" ++ i.name ++
    ": must be one of: " ++ String.intercalate ", " i.choices
  registered : ∃ a : Arg, a.long = some long ∧
    ∀ b, b ∈ (ofNode n).args ∧ b.id = argId i.name ↔ b = a
  notGlobal : long ∉ reservedNames
  named : i.name = long ↔ i.name ∉ reservedNames

theorem Fits.exists_long {e : Endpoint} {args : List Arg} (h : Fits e args) {i : Input}
    (hi : i ∈ e.flags) : ∃ a long, IsFlagOf i a ∧ a.long = some long ∧
      ∀ b, b ∈ args ∧ b.id = argId i.name ↔ b = a := by
  obtain ⟨a, ha, hflag⟩ := exists_mem_of_forall₂ h.flags i hi
  obtain ⟨long, hlong, _⟩ := hflag.long
  have ha := (List.mem_filter.mp ha).1
  refine ⟨a, long, hflag, hlong, fun b => ⟨?_, ?_⟩⟩
  · rintro ⟨hb, hid⟩
    exact List.inj_on_of_nodup_map h.nodup hb ha (hid.trans hflag.id.symm)
  · rintro rfl
    exact ⟨ha, hflag.id⟩

/-- Whatever values are refused, the failure reports one of them by the name of its flag, which is
the long name of this flag exactly where no global flag has it. -/
theorem exists_reports {options : Compile.Options} {bytes : List UInt8}
    {commands : List Command} {notices : List Notice}
    (hcompile : compile options bytes = .ok (commands, notices)) {n : Node}
    (hn : n ∈ Tree.nodes (Tree.ofCommands commands)) {e : Endpoint} (he : n.endpoint = some e)
    {vs : Values} {f : Failure} (hf : collect e vs = .error f) :
    ∃ i raw long, Reports n e vs f i raw long := by
  obtain ⟨before, i, after, raw, hsplit, _, hraw, hnot, rfl⟩ := exists_first_of_error hf
  have hi : i ∈ e.inputs := by simp [hsplit]
  have hrefused := not_allows_iff.mp hnot
  have hflag := mem_flags_of_choices hcompile hn he hi hrefused.1
  obtain ⟨a, long, ha, hlong, honly⟩ :=
    ((serves_ofNode hcompile hn).endpoint e he).1.exists_long hflag
  obtain ⟨long', hlong', hnotGlobal, hown⟩ := ha.long
  obtain rfl : long = long' := Option.some.inj (hlong.symm.trans hlong')
  refine ⟨i, raw, long, hflag, hraw, hrefused, rfl, rfl, ⟨a, hlong, honly⟩, hnotGlobal, ?_⟩
  exact ⟨fun hname => hname ▸ hnotGlobal, fun hfree => (hown hfree).symm⟩

/-- A document with choices for a parameter that has the name of a global flag, and for one that
has the name which that flag would take instead. -/
def shadowedDocument : List UInt8 := List.flatMap Text.Utf8.encode
  ["\x7b\"paths\":\x7b\"/api/v1/x\":\x7b\"get\":\x7b\"parameters\":[",
    "\x7b\"name\":\"timeout\",\"in\":\"query\",\"schema\":\x7b\"enum\":[\"5\",\"10\"]\x7d\x7d,",
    "\x7b\"name\":\"timeout-param\",\"in\":\"query\",\"schema\":\x7b\"enum\":[\"a\",\"b\"]\x7d\x7d]",
    "\x7d\x7d\x7d\x7d"]

def shadowedCommand : Command :=
  { name := "x", parent := "", short := "", long := "", method := "GET", path := "/api/v1/x"
    params := [{ name := "timeout", location := .query, choices := ["5", "10"] },
      { name := "timeout-param", location := .query, choices := ["a", "b"] }] }

theorem compile_shadowedDocument :
    compile {} shadowedDocument = .ok ([shadowedCommand], [.compiled 1]) := by
  decide +kernel

def shadowedNode : Node := Node.ofCommand "x" shadowedCommand

def shadowedEndpoint : Endpoint := ⟨"GET", "/api/v1/x", inputs shadowedCommand.params⟩

theorem exists_reports_shadowed :
    collect shadowedEndpoint [("param__timeout-param", .text "c")] =
        .error (.valueNotAllowed "timeout-param" "c" ["a", "b"]) ∧
      ∃ i raw long, Reports shadowedNode shadowedEndpoint [("param__timeout-param", .text "c")]
        (.valueNotAllowed "timeout-param" "c" ["a", "b"]) i raw long := by
  have hcollect : collect shadowedEndpoint [("param__timeout-param", .text "c")] =
      .error (.valueNotAllowed "timeout-param" "c" ["a", "b"]) := by
    decide +kernel
  have hn : shadowedNode ∈ Tree.nodes (Tree.ofCommands [shadowedCommand]) :=
    List.mem_singleton_self _
  exact ⟨hcollect, exists_reports compile_shadowedDocument hn rfl hcollect⟩

/-- An accepted command line gives a flag a value that is refused, and the failure names another
flag, which is a global one. -/
def Misnames (t : Tree) (words : List String) (named long : String) : Prop :=
  ∃ m n e raw choices, parse (build t "1") words = .ok m ∧ findNode t m = some n ∧
    n.endpoint = some e ∧ collect e m.lastValues = .error (.valueNotAllowed named raw choices) ∧
    (∃ a ∈ (ofNode n).args, a.id = argId named ∧ a.long = some long) ∧ long ≠ named ∧
    ∃ g ∈ globalArgs, g.long = some named

theorem misnames_shadowed :
    compile {} shadowedDocument = .ok ([shadowedCommand], [.compiled 1]) ∧
      Misnames (Tree.ofCommands [shadowedCommand]) ["x", "--timeout-param-2=7"] "timeout"
        "timeout-param-2" := by
  refine ⟨compile_shadowedDocument, ⟨[], [⟨"x", [("param__timeout", .text "7")]⟩]⟩, shadowedNode,
    shadowedEndpoint, "7", ["5", "10"], by decide +kernel, rfl, rfl, by decide +kernel,
    ⟨flagArg "timeout-param-2" ⟨⟨"timeout", "", .string, false, .query, ["5", "10"]⟩, false⟩, ?_,
      rfl, rfl⟩, by decide, ?_⟩
  · decide +kernel
  · decide +kernel

end ApiCommands.Surface
