import ApiCommands.Proofs.Surface.Collected

namespace ApiCommands.Surface

/-!
# Values are looked up as they are declared

A look-up ends the program where no argument has the id that it asks for, or where the argument
declares values of another type than it asks for. Collecting never comes to that: each input has
one argument, which declares the type that the input wants.
-/

inductive LookupFault where
  | undefinedId
  | otherType
deriving DecidableEq, Repr

/-- The value of an argument as a wanted type, where the arguments tell what is declared. -/
def lookUp (args : List Arg) (values : Values) (id : String) (wanted : ValueType) :
    Except LookupFault (Option ArgValue) :=
  match args.find? (·.id == id) with
  | none => .error .undefinedId
  | some a =>
    if a.kind.type = wanted then
      match values.lookup id with
      | none => .ok none
      | some v => if v.type = wanted then .ok (some v) else .error .otherType
    else .error .otherType

/-- Collecting by look-ups that can end the program. A value that is refused ends the look-ups,
too. -/
def collectByLookups (args : List Arg) (values : Values) :
    List Input → Except LookupFault (Outcome (List Given))
  | [] => .ok (.ok [])
  | i :: rest => do
    match ← lookUp args values (argId i.name) (wantedType i) with
    | none => collectByLookups args values rest
    | some v =>
      match i.validate v.raw with
      | .error e => .ok (.error e)
      | .ok () =>
        let given ← collectByLookups args values rest
        .ok (given.map (⟨i.name, i.location, v.raw⟩ :: ·))

section Lookup

variable {args : List Arg} {vs : Values} {a : Arg} {id : String} {wanted : ValueType}
  {i : Input} {is : List Input}

theorem lookUp_eq_ok (ha : a ∈ args) (honly : ∀ b ∈ args, b.id = a.id → b = a)
    (htype : a.kind.type = wanted) (hvalue : ∀ v, (a.id, v) ∈ vs → v.type = wanted) :
    lookUp args vs a.id wanted = .ok (vs.lookup a.id) := by
  have hfind : args.find? (·.id == a.id) = some a := by
    cases hfind : args.find? (·.id == a.id) with
    | none => simpa using List.find?_eq_none.mp hfind a ha
    | some b =>
        have hid : b.id = a.id := by simpa using List.find?_some hfind
        rw [honly b (List.mem_of_find?_eq_some hfind) hid]
  rw [lookUp, hfind]
  dsimp only
  rw [if_pos htype]
  cases hlookup : vs.lookup a.id with
  | none => rfl
  | some v => exact if_pos (hvalue v (mem_of_lookup hlookup))

theorem type_of_lookUp {v : ArgValue} (h : lookUp args vs id wanted = .ok (some v)) :
    v.type = wanted := by
  rw [lookUp] at h
  split at h
  · cases h
  · split at h
    · split at h
      · cases h
      · split at h
        case isTrue htype =>
          cases h
          exact htype
        case isFalse => cases h
    · cases h

/-- A look-up that is answered has the value that is collected. -/
theorem rawOf_of_lookUp
    (h : lookUp args vs (argId i.name) (wantedType i) = .ok (vs.lookup (argId i.name))) :
    rawOf vs i = (vs.lookup (argId i.name)).map ArgValue.raw := by
  cases hlookup : vs.lookup (argId i.name) with
  | none => rw [rawOf, hlookup, Option.bind_none, Option.map_none]
  | some v =>
      have htype : v.type = wantedType i := type_of_lookUp (hlookup ▸ h)
      rw [rawOf, hlookup, Option.bind_some, ArgValue.rawAs, if_pos htype, Option.map_some]

theorem collectByLookups_eq_ok (h : ∀ i ∈ is,
    lookUp args vs (argId i.name) (wantedType i) = .ok (vs.lookup (argId i.name))) :
    collectByLookups args vs is = .ok (collectInputs vs is) := by
  induction is with
  | nil => rfl
  | cons i is ih =>
      have hi := h i List.mem_cons_self
      have his := ih fun j hj => h j (List.mem_cons_of_mem i hj)
      have hraw := rawOf_of_lookUp hi
      cases hlookup : vs.lookup (argId i.name) with
      | none =>
          rw [hlookup] at hi hraw
          rw [collectByLookups, hi, collectInputs_cons_of_none hraw, ← his]
          rfl
      | some v =>
          rw [hlookup] at hi hraw
          rw [collectByLookups, hi, collectInputs_cons_of_some hraw, his]
          dsimp only [bind, Except.bind]
          cases i.validate v.raw <;> rfl

end Lookup

/-- The arguments and the values of an endpoint agree in their types. -/
structure Typed (args : List Arg) (e : Endpoint) (vs : Values) : Prop where
  declared : ∀ i ∈ e.inputs, ∃ a ∈ args, a.id = argId i.name ∧
    (∀ b ∈ args, b.id = a.id → b = a) ∧ a.kind.type = wantedType i ∧
    (i.positional = true → a.kind = .text)
  answered : ∀ i ∈ e.inputs,
    lookUp args vs (argId i.name) (wantedType i) = .ok (vs.lookup (argId i.name))
  collected : collectByLookups args vs e.inputs = .ok (collect e vs)

section Values

variable {s : Scope} {n : Node} {e : Endpoint} {vs : Values}

theorem exists_mem_endpointArgs {i : Input} (hi : i ∈ e.inputs) :
    ∃ a ∈ endpointArgs e, a.id = argId i.name ∧ a.kind.type = wantedType i ∧
      (i.positional = true → a.kind = .text) := by
  by_cases hpositional : i.positional = true
  · have hmem : i ∈ e.positionals := List.mem_filter.mpr ⟨hi, hpositional⟩
    obtain ⟨j, hj⟩ := exists_mem_positionalArgs hmem 1
    exact ⟨_, List.mem_append_left _ hj, rfl, (wantedType_of_positional hpositional).symm,
      fun _ => rfl⟩
  · have hflag : i.positional = false := by simpa using hpositional
    have hmem : i ∈ e.flags := List.mem_filter.mpr ⟨hi, by simp [hflag]⟩
    obtain ⟨_, hown⟩ := exists_mem_flagArgs hmem (ownNames e)
    exact ⟨_, List.mem_append_right _ hown, rfl, type_flagKind hflag,
      fun h => (hpositional h).elim⟩

theorem typed_of_holds (hat : s.At n) (he : n.endpoint = some e)
    (hnames : (e.inputs.map fun i => i.name).Nodup) (hholds : Holds s vs) :
    Typed s.args e vs := by
  have hdeclared : ∀ i ∈ e.inputs, ∃ a ∈ s.args, a.id = argId i.name ∧
      (∀ b ∈ s.args, b.id = a.id → b = a) ∧ a.kind.type = wantedType i ∧
      (i.positional = true → a.kind = .text) := by
    intro i hi
    obtain ⟨a, ha, hid, htype, htext⟩ := exists_mem_endpointArgs hi
    refine ⟨a, mem_args_of_mem_endpointArgs hat he ha, hid, ?_, htype, htext⟩
    intro b hb hba
    exact eq_of_id_eq hat he hnames hb ha hba
  have hanswered : ∀ i ∈ e.inputs,
      lookUp s.args vs (argId i.name) (wantedType i) = .ok (vs.lookup (argId i.name)) := by
    intro i hi
    obtain ⟨a, ha, hid, honly, htype, _⟩ := hdeclared i hi
    rw [← hid]
    apply lookUp_eq_ok ha honly htype
    intro v hv
    -- The value was read by an argument of that id, and there is only the one.
    obtain ⟨b, hb, hba, text, hread⟩ := hholds.read a.id v hv
    obtain rfl := honly b hb hba
    rw [ValueKind.type_read hread, htype]
  exact ⟨hdeclared, hanswered, collectByLookups_eq_ok hanswered⟩

end Values

/-- Whatever words a node's command accepts, on its own, among global arguments or at the end of a
command line, its inputs are looked up as they are declared. What travels in the path is text,
whatever type is declared for it. -/
theorem typed_of_parse {n : Node} {e : Endpoint} (he : n.endpoint = some e)
    (hnames : (e.inputs.map fun i => i.name).Nodup) :
    (∀ (s : Scope) (words : List String) (m : Matches), s.At n →
      parseLevel s {} words = .ok m → Typed s.args e m.values) ∧
    (∀ (t : Tree) (version : String) (words : List String) (m : Matches),
      parse (build t version) words = .ok m → findNode t m = some n →
        ∃ s : Scope, s.At n ∧ Typed s.args e m.lastValues) ∧
    (∀ ps, e.inputs = inputs ps → ∀ i ∈ e.inputs, i.location = .path →
      i.positional = true ∧ wantedType i = .text) := by
  refine ⟨?_, ?_, ?_⟩
  · intro s words m hat hparse
    have haccepted := accepted_of_parseLevel (Sound.start s) hparse
    exact typed_of_holds hat he hnames haccepted.holds
  · intro t version words m hparse hnode
    obtain ⟨s, hat, hholds, _⟩ :=
      (accepted_of_parse hparse).exists_scope (over_build t version) hnode
    exact ⟨s, hat, typed_of_holds hat he hnames hholds⟩
  · intro ps hinputs i hi hpath
    have hpositional := positional_of_mem_inputs (hinputs ▸ hi) hpath
    exact ⟨hpositional, wantedType_of_positional hpositional⟩

/-- A document with a path parameter that is declared to be a number, and with flags of each
type. -/
def typedDocument : List UInt8 := List.flatMap Text.Utf8.encode
  ["\x7b\"paths\":\x7b\"/api/v1/x/\x7bid\x7d\":\x7b\"put\":\x7b\"parameters\":[",
    "\x7b\"name\":\"id\",\"in\":\"path\",\"schema\":\x7b\"type\":\"integer\"\x7d\x7d,",
    "\x7b\"name\":\"n\",\"in\":\"query\",\"schema\":\x7b\"type\":\"number\"\x7d\x7d,",
    "\x7b\"name\":\"k\",\"in\":\"query\",\"schema\":\x7b\"type\":\"integer\"\x7d\x7d,",
    "\x7b\"name\":\"on\",\"in\":\"query\",\"schema\":\x7b\"type\":\"boolean\"\x7d\x7d]",
    "\x7d\x7d\x7d\x7d"]

def typedCommand : Command :=
  { name := "x", parent := "", short := "", long := "", method := "PUT"
    path := "/api/v1/x/\x7bid\x7d"
    params := [{ name := "id", type := .integer, required := true, location := .path },
      { name := "n", type := .number, location := .query },
      { name := "k", type := .integer, location := .query },
      { name := "on", type := .boolean, location := .query }] }

theorem compile_typedDocument :
    compile {} typedDocument = .ok ([typedCommand], [.compiled 1]) := by
  decide +kernel

def typedEndpoint : Endpoint := ⟨"PUT", "/api/v1/x/\x7bid\x7d", inputs typedCommand.params⟩

def typedValues : Values :=
  [("param__id", .text "7"), ("param__on", .on), ("param__k", .int64 (-2))]

theorem typed_of_parse_path :
    compile {} typedDocument = .ok ([typedCommand], [.compiled 1]) ∧
    Typed (endpointArgs typedEndpoint) typedEndpoint typedValues ∧
    (∃ s : Scope, s.At (Node.ofCommand "x" typedCommand) ∧
      Typed s.args typedEndpoint typedValues) ∧
    (∀ i ∈ typedEndpoint.inputs, i.location = .path →
      i.positional = true ∧ wantedType i = .text) := by
  obtain ⟨hlevel, hline, hpath⟩ :=
    typed_of_parse (n := Node.ofCommand "x" typedCommand) (e := typedEndpoint) rfl (by decide)
  refine ⟨compile_typedDocument, ?_, ?_, hpath typedCommand.params rfl⟩
  · exact hlevel ⟨ofNode (Node.ofCommand "x" typedCommand), []⟩ ["7", "--on", "--k", "-2"]
      ⟨typedValues, []⟩ ⟨rfl, by simp⟩ (by decide +kernel)
  · exact hline (Tree.ofCommands [typedCommand]) "1" ["x", "7", "--on", "--k", "-2"]
      ⟨[], [⟨"x", typedValues⟩]⟩ (by decide +kernel) rfl

end ApiCommands.Surface
