import ApiCommands.Proofs.Command.Inputs
import ApiCommands.Proofs.Decimal.Reading
import ApiCommands.Proofs.Keys
import ApiCommands.Proofs.Surface.Collect
import ApiCommands.Proofs.Surface.Arguments
import Mathlib.Data.List.TakeWhile

namespace ApiCommands.Surface

/-!
# Writing a command line

Values are assigned to the inputs of an endpoint and written as words: the names that lead to the
node, the flags in some order, two dashes, and the positional values.
-/

/-- A value that an input can be given. Binary numbers are left out. -/
structure Suits (i : Input) (v : ArgValue) : Prop where
  type : v.type = wantedType i
  notBinary : v.type ≠ .binary64
  range : ∀ k, v = .int64 k → Decimal.IsInt64 k
  allows : i.Allows v.raw

/-- Values by the names of inputs: each suits its input, and none that has to be given is missing.
A switch never has to be given. -/
structure Assigns (e : Endpoint) (value : String → Option ArgValue) : Prop where
  suits : ∀ i ∈ e.inputs, ∀ v, value i.name = some v → Suits i v
  positional : ∀ i ∈ e.positionals, (value i.name).isSome = true
  required : ∀ i ∈ e.flags, i.required = true → i.type ≠ .boolean → (value i.name).isSome = true

/-- What is to be collected, in the order of the inputs. -/
def assigned (e : Endpoint) (value : String → Option ArgValue) : List Given :=
  e.inputs.filterMap fun i => (value i.name).map fun v => ⟨i.name, i.location, v.raw⟩

/-- The long name that the command of an endpoint has for an input. -/
def longOf (e : Endpoint) (i : Input) : String :=
  (((endpointArgs e).find? fun a => a.id == argId i.name).bind Arg.long).getD ""

def flagWord (long : String) : ArgValue → String
  | .on => "--" ++ long
  | v => "--" ++ long ++ "=" ++ v.raw

def flagWords (e : Endpoint) (value : String → Option ArgValue) (is : List Input) :
    List String :=
  is.filterMap fun i => (value i.name).map (flagWord (longOf e i))

def positionalWords (value : String → Option ArgValue) (is : List Input) : List String :=
  is.filterMap fun i => (value i.name).map ArgValue.raw

/-- The words for a node of some names, with its flags in some order. -/
def commandLine (names : List String) (e : Endpoint) (value : String → Option ArgValue)
    (order : List Input) : List String :=
  names ++ (flagWords e value order ++ "--" :: positionalWords value e.positionals)

/-- The words for a node are read as what they are written for: no long name ends before its end, a
switch has a name, and no word names a child. -/
structure Unambiguous (n : Node) (e : Endpoint) (value : String → Option ArgValue) : Prop where
  long : ∀ i ∈ e.flags, (value i.name).isSome = true → '=' ∉ (longOf e i).toList
  switch : ∀ i ∈ e.flags, value i.name = some .on → longOf e i ≠ ""
  child : ∀ word ∈ "--" :: flagWords e value e.flags, word ∉ n.children.map Node.name

/-- The values that the words leave at the level of the node. -/
def entries (value : String → Option ArgValue) (is : List Input) : Values :=
  is.filterMap fun i => (value i.name).map fun v => (argId i.name, v)

theorem type_eq_boolean {i : Input} (h : wantedType i = .switch) : i.type = .boolean := by
  rw [wantedType] at h
  split at h
  case isTrue => cases h
  case isFalse => split at h <;> first | assumption | cases h

theorem flagKind_of_switch {i : Input} (h : wantedType i = .switch) :
    (flagKind i).1 = .switch := by
  rw [flagKind, type_eq_boolean h]

theorem takesValue_flagKind {i : Input} (hflag : i.positional = false)
    (h : wantedType i ≠ .switch) : (flagKind i).1.takesValue = true := by
  rw [wantedType, hflag, if_neg (by decide)] at h
  cases hi : i.type with
  | boolean => simp [hi] at h
  | string =>
      rw [flagKind, hi]
      dsimp only
      split <;> rfl
  | _ =>
      rw [flagKind, hi]
      rfl

theorem flagKind_of_text {i : Input} (hflag : i.positional = false) (h : wantedType i = .text) :
    (flagKind i).1 = .text ∨ ∃ choices, (flagKind i).1 = .suggested choices := by
  rw [wantedType, hflag, if_neg (by decide)] at h
  cases hi : i.type with
  | string =>
      by_cases hchoices : i.choices = []
      · simp [flagKind, hi, hchoices]
      · simp [flagKind, hi, hchoices]
  | object => simp [flagKind, hi]
  | array => simp [flagKind, hi]
  | integer => simp [hi] at h
  | number => simp [hi] at h
  | boolean => simp [hi] at h

theorem flagKind_of_int64 {i : Input} (h : wantedType i = .int64) :
    (flagKind i).1 = .int64 := by
  rw [wantedType] at h
  split at h
  case isTrue => cases h
  case isFalse =>
    cases hi : i.type <;> simp [hi] at h
    simp [flagKind, hi]

theorem read_raw {i : Input} {v : ArgValue} (h : Suits i v) (hflag : i.positional = false)
    (hon : v ≠ .on) : (flagKind i).1.read v.raw = .ok v := by
  cases v with
  | on => exact (hon rfl).elim
  | text s =>
      rcases flagKind_of_text hflag h.type.symm with hkind | ⟨choices, hkind⟩
      · rw [hkind]
        rfl
      · rw [hkind]
        rfl
  | int64 k =>
      rw [flagKind_of_int64 h.type.symm]
      simp [ValueKind.read, ArgValue.raw, Decimal.readInt64_intText (h.range k rfl)]
  | nat64 n =>
      have htype := h.type
      rw [wantedType, hflag, if_neg (by decide)] at htype
      cases hi : i.type <;> simp [hi, ArgValue.type] at htype
  | binary64 x => exact (h.notBinary rfl).elim

theorem text_of_positional {i : Input} {v : ArgValue} (htype : v.type = wantedType i)
    (hpositional : i.positional = true) : v = .text v.raw := by
  rw [wantedType, if_pos hpositional] at htype
  cases v <;> simp [ArgValue.type] at htype
  rfl

/-- A text that is read as the value of an input. A switch has none. -/
structure Spells (i : Input) (text : String) (v : ArgValue) : Prop where
  type : v.type = wantedType i
  reads : i.positional = false → v ≠ .on → (flagKind i).1.read text = .ok v

/-- Values by the names of inputs, each with a text that spells it, and none missing that has to be
given. -/
structure Spelled (e : Endpoint) (text : String → String) (value : String → Option ArgValue) :
    Prop where
  spells : ∀ i ∈ e.inputs, ∀ v, value i.name = some v → Spells i (text i.name) v
  positional : ∀ i ∈ e.positionals, (value i.name).isSome = true
  required : ∀ i ∈ e.flags, i.required = true → i.type ≠ .boolean → (value i.name).isSome = true

def spelledWord (long text : String) (v : ArgValue) : String :=
  dashed long (if v = .on then none else some text)

def spelledWords (e : Endpoint) (text : String → String) (value : String → Option ArgValue)
    (is : List Input) : List String :=
  is.filterMap fun i => (value i.name).map (spelledWord (longOf e i) (text i.name))

/-- The words for a node of some names, with the texts of its flags in some order. -/
def spelledLine (names : List String) (e : Endpoint) (text : String → String)
    (value : String → Option ArgValue) (order : List Input) : List String :=
  names ++ (spelledWords e text value order ++ "--" :: positionalWords value e.positionals)

/-- The words of flags are read as what they are written for. -/
structure Clear (n : Node) (e : Endpoint) (text : String → String)
    (value : String → Option ArgValue) : Prop where
  long : ∀ i ∈ e.flags, (value i.name).isSome = true → '=' ∉ (longOf e i).toList
  switch : ∀ i ∈ e.flags, value i.name = some .on → longOf e i ≠ ""
  child : ∀ word ∈ "--" :: spelledWords e text value e.flags, word ∉ n.children.map Node.name

/-- Each value spelled as it is sent. -/
def rawText (value : String → Option ArgValue) (name : String) : String :=
  ((value name).map ArgValue.raw).getD ""

theorem rawText_of_some {value : String → Option ArgValue} {name : String} {v : ArgValue}
    (h : value name = some v) : rawText value name = v.raw := by
  rw [rawText, h, Option.map_some, Option.getD_some]

theorem Assigns.spelled {e : Endpoint} {value : String → Option ArgValue} (h : Assigns e value) :
    Spelled e (rawText value) value where
  spells i hi v hv := by
    have hsuits := h.suits i hi v hv
    exact ⟨hsuits.type, fun hflag hon => rawText_of_some hv ▸ read_raw hsuits hflag hon⟩
  positional := h.positional
  required := h.required

theorem exists_toList_dashed {long : String} (hlong : '=' ∉ long.toList) {text : Option String}
    (hempty : text = none → long ≠ "") :
    ∃ c cs, (dashed long text).toList = '-' :: '-' :: c :: cs ∧
      splitFlag (c :: cs) = (long, text) := by
  cases text with
  | none =>
      obtain ⟨c, cs, hcs⟩ : ∃ c cs, long.toList = c :: cs :=
        List.exists_cons_of_ne_nil fun hnil => hempty rfl (String.toList_eq_nil_iff.mp hnil)
      refine ⟨c, cs, by simp [dashed, hcs], ?_⟩
      rw [← hcs, splitFlag_of_notMem hlong, String.ofList_toList]
  | some text =>
      obtain ⟨c, cs, hcs⟩ : ∃ c cs, long.toList ++ '=' :: text.toList = c :: cs :=
        List.exists_cons_of_ne_nil (by simp)
      refine ⟨c, cs, by simp [dashed, ← hcs], ?_⟩
      rw [← hcs, splitFlag_append hlong, String.ofList_toList, String.ofList_toList]

theorem flagWord_eq_spelledWord (long : String) (v : ArgValue) :
    flagWord long v = spelledWord long v.raw v := by
  cases v <;> rfl

theorem flagWords_eq_spelledWords (e : Endpoint) (value : String → Option ArgValue)
    (is : List Input) : flagWords e value is = spelledWords e (rawText value) value is := by
  refine List.filterMap_congr fun i _ => ?_
  cases hvalue : value i.name with
  | none => rfl
  | some v =>
      rw [Option.map_some, Option.map_some, rawText_of_some hvalue, flagWord_eq_spelledWord]

theorem Unambiguous.clear {n : Node} {e : Endpoint} {value : String → Option ArgValue}
    (h : Unambiguous n e value) :
    Clear n e (rawText value) value :=
  ⟨h.long, h.switch, flagWords_eq_spelledWords e value e.flags ▸ h.child⟩

theorem entries_append (value : String → Option ArgValue) (is js : List Input) :
    entries value (is ++ js) = entries value is ++ entries value js :=
  List.filterMap_append

section Cons

variable {value : String → Option ArgValue} {i : Input}

theorem entries_cons_of_none (h : value i.name = none) (is : List Input) :
    entries value (i :: is) = entries value is := by
  simp [entries, h]

theorem entries_cons_of_some {v : ArgValue} (h : value i.name = some v) (is : List Input) :
    entries value (i :: is) = (argId i.name, v) :: entries value is := by
  simp [entries, h]

theorem spelledWords_cons_of_none (h : value i.name = none) (e : Endpoint)
    (text : String → String) (is : List Input) :
    spelledWords e text value (i :: is) = spelledWords e text value is := by
  simp [spelledWords, h]

theorem spelledWords_cons_of_some {v : ArgValue} (h : value i.name = some v) (e : Endpoint)
    (text : String → String) (is : List Input) :
    spelledWords e text value (i :: is) =
      spelledWord (longOf e i) (text i.name) v :: spelledWords e text value is := by
  simp [spelledWords, h]

theorem positionalWords_cons_of_some {v : ArgValue} (h : value i.name = some v)
    (is : List Input) : positionalWords value (i :: is) = v.raw :: positionalWords value is := by
  simp [positionalWords, h]

end Cons

theorem notMem_ids_concat {vs : Values} {i : Input} {is : List Input}
    (hi : argId i.name ∉ is.map fun j => argId j.name)
    (h : ∀ j ∈ is, argId j.name ∉ vs.map Prod.fst) (v : ArgValue) :
    ∀ j ∈ is, argId j.name ∉ (vs ++ [(argId i.name, v)]).map Prod.fst := by
  intro j hj hmem
  rw [List.map_append, List.mem_append] at hmem
  rcases hmem with hmem | hmem
  · exact h j hj hmem
  · have heq : argId j.name = argId i.name := by simpa using hmem
    exact hi (List.mem_map.mpr ⟨j, hj, heq⟩)

theorem mem_entries {value : String → Option ArgValue} {is : List Input} {id : String}
    {v : ArgValue} :
    (id, v) ∈ entries value is ↔ ∃ i ∈ is, value i.name = some v ∧ argId i.name = id := by
  simp [entries]

theorem ids_entries_sublist (value : String → Option ArgValue) (is : List Input) :
    ((entries value is).map Prod.fst).Sublist (is.map fun i => argId i.name) := by
  induction is with
  | nil => exact List.Sublist.refl _
  | cons i is ih =>
      cases hvalue : value i.name with
      | none => exact entries_cons_of_none hvalue is ▸ ih.cons (argId i.name)
      | some v => exact entries_cons_of_some hvalue is ▸ ih.cons_cons (argId i.name)

theorem lookup_entries {value : String → Option ArgValue} {is : List Input}
    (hnodup : (is.map fun i => argId i.name).Nodup) {i : Input} (hi : i ∈ is) :
    (entries value is).lookup (argId i.name) = value i.name := by
  cases hvalue : value i.name with
  | some v =>
      exact lookup_of_mem (hnodup.sublist (ids_entries_sublist value is))
        (mem_entries.mpr ⟨i, hi, hvalue, rfl⟩)
  | none =>
      refine Option.eq_none_iff_forall_ne_some.mpr fun v hlookup => ?_
      obtain ⟨j, _, hj, hid⟩ := mem_entries.mp (mem_of_lookup hlookup)
      rw [argId_injective hid, hvalue] at hj
      cases hj

end ApiCommands.Surface
