import ApiCommands.Proofs.Surface.Delivery
import Mathlib.Algebra.Order.BigOperators.Group.List
import Mathlib.Algebra.Order.Group.Nat

namespace ApiCommands.Surface

/-!
# Commands that can be invoked

A run of zeros is read as a value of any flag that takes one, and a long enough run is the name of
no child. So words with such runs for all that is required are accepted, where the nodes on the way
are well named. Only the name of a required flag with an equals sign in it cannot be written.
-/

variable {s : Scope} {n : Node} {e : Endpoint}

def zeros (k : Nat) : String := String.ofList (List.replicate (k + 1) '0')

theorem toList_zeros (k : Nat) : (zeros k).toList = '0' :: List.replicate k '0' := by
  rw [zeros, String.toList_ofList, List.replicate_succ]

theorem exists_read_zeros {i : Input} (htype : i.type ≠ .boolean) (k : Nat) :
    (flagKind i).1.takesValue = true ∧ ∃ v, (flagKind i).1.read (zeros k) = .ok v := by
  rw [flagKind]
  cases hi : i.type with
  | boolean => exact (htype hi).elim
  | integer => exact ⟨rfl, .int64 0, by simp [ValueKind.read, zeros, Decimal.readInt64_zeros]⟩
  | number =>
      obtain ⟨x, hx⟩ := Decimal.exists_readBinary64_zeros k
      exact ⟨rfl, .binary64 x, by simp [ValueKind.read, zeros, hx]⟩
  | object => exact ⟨rfl, _, rfl⟩
  | array => exact ⟨rfl, _, rfl⟩
  | string =>
      by_cases hchoices : i.choices.isEmpty = true
      · simp [hchoices, ValueKind.takesValue, ValueKind.read]
      · simp [hchoices, ValueKind.takesValue, ValueKind.read]

/-- Whether all names of children are at most so long. -/
def Outgrows (k : Nat) (n : Node) : Prop :=
  ∀ word : String, k < word.toList.length → word ∉ n.children.map Node.name

theorem exists_outgrows (n : Node) : ∃ k, Outgrows k n := by
  refine ⟨((n.children.map Node.name).map fun name => name.toList.length).sum, ?_⟩
  intro word hlong hmem
  have hlength : word.toList.length ∈
      (n.children.map Node.name).map fun name => name.toList.length := List.mem_map_of_mem hmem
  have hle := List.le_sum_of_mem hlength
  omega

theorem isPlaced_zeros (hat : s.At n) {k : Nat} (hk : Outgrows k n) :
    IsPlaced s false (zeros k) := by
  intro p htrailing hwaiting
  have hhelp : zeros k ≠ Scope.helpName := by
    intro heq
    have hlist := toList_zeros k
    rw [heq] at hlist
    simp [Scope.helpName] at hlist
  have hchild : zeros k ∉ n.children.map Node.name := hk _ (by simp [toList_zeros])
  rw [move_of_notMem hat htrailing hwaiting hhelp hchild, otherWord, toList_zeros]
  change plainWord s p (zeros k) = _
  rw [plainWord, hwaiting]

def fillerWord (e : Endpoint) (k : Nat) (i : Input) : String := dashed (longOf e i) (some (zeros k))

/-- Flags with zeros as their values are read one after the other. -/
theorem exists_parseLevel_fillerWords (hat : s.At n) (he : n.endpoint = some e)
    (hwf : e.WellFormed) {k : Nat} (hk : Outgrows k n) {is : List Input}
    (his : ∀ i ∈ is, i ∈ e.flags ∧ i.type ≠ .boolean ∧ '=' ∉ i.name.toList)
    (hnodup : (is.map fun i => argId i.name).Nodup) {p : Progress}
    (htrailing : p.trailing = false) (hpending : p.pending = none)
    (hnew : ∀ i ∈ is, argId i.name ∉ p.values.map Prod.fst) :
    ∃ vs : Values, vs.map Prod.fst = is.map (fun i => argId i.name) ∧
      ∀ words, parseLevel s p (is.map (fillerWord e k) ++ words) =
        parseLevel s { p with values := p.values ++ vs } words := by
  induction is generalizing p with
  | nil => exact ⟨[], rfl, fun words => by simp⟩
  | cons i is ih =>
      obtain ⟨⟨hi, htype, hequals⟩, his'⟩ := List.forall_mem_cons.mp his
      obtain ⟨hnotin, hnodup'⟩ := List.nodup_cons.mp (List.map_cons ▸ hnodup)
      obtain ⟨hfree, hnew'⟩ := List.forall_mem_cons.mp hnew
      obtain ⟨htakes, v, hread⟩ := exists_read_zeros htype k
      have hchild : fillerWord e k i ∉ n.children.map Node.name := by
        apply hk
        simp [fillerWord, dashed, toList_zeros]
        omega
      have hmove : move s p (fillerWord e k i) =
          .goOn { p with values := p.values ++ [(argId i.name, v)] } :=
        move_dashed_some hat he hwf hi (equals_notMem_longOf hwf hi hequals) hchild htrailing
          hpending htakes hread hfree
      obtain ⟨vs, hids, hrest⟩ := ih (p := { p with values := p.values ++ [(argId i.name, v)] })
        his' hnodup' htrailing hpending (notMem_ids_concat hnotin hnew' v)
      refine ⟨(argId i.name, v) :: vs, by rw [List.map_cons, hids, List.map_cons], ?_⟩
      intro words
      rw [List.map_cons, List.cons_append, parseLevel_cons_of_goOn hmove, hrest, List.append_assoc,
        List.singleton_append]

/-- The flags that have to be given. -/
def neededFlags (e : Endpoint) : List Input :=
  e.flags.filter fun i => i.required && i.type != .boolean

theorem mem_neededFlags {i : Input} :
    i ∈ neededFlags e ↔ i ∈ e.flags ∧ i.required = true ∧ i.type ≠ .boolean := by
  simp [neededFlags]

theorem ids_neededFlags_sublist (e : Endpoint) :
    ((neededFlags e).map fun i => argId i.name).Sublist (e.flags.map fun i => argId i.name) :=
  List.filter_sublist.map _

/-- Zeros for every input. -/
def zeroValue (k : Nat) (_ : String) : Option ArgValue := some (.text (zeros k))

/-- Values of the needed flags and of the positional inputs are all that a level requires. -/
theorem complete_of_needed (hat : s.At n) (he : n.endpoint = some e) {vs : Values}
    (hids : vs.map Prod.fst = (neededFlags e).map fun i => argId i.name) (k : Nat) :
    Complete s (vs ++ entries (zeroValue k) e.positionals) := by
  apply complete_of_given hat he
  · intro i hi
    have hentry : (argId i.name, .text (zeros k)) ∈ entries (zeroValue k) e.positionals :=
      mem_entries.mpr ⟨i, hi, rfl, rfl⟩
    exact List.mem_map_of_mem (List.mem_append_right vs hentry)
  · intro i hi hrequired htype
    have hmem : i ∈ neededFlags e := mem_neededFlags.mpr ⟨hi, hrequired, htype⟩
    rw [List.map_append, hids]
    exact List.mem_append_left _ (List.mem_map_of_mem hmem)

/-- Some words are accepted at the level of an endpoint. -/
theorem exists_parseLevel_of_endpoint (hat : s.At n) (he : n.endpoint = some e)
    (hwf : e.WellFormed)
    (hequals : ∀ i ∈ e.flags, i.required = true → i.type ≠ .boolean → '=' ∉ i.name.toList) :
    ∃ words vs, parseLevel s {} words = .ok ⟨vs, []⟩ := by
  obtain ⟨k, hk⟩ := exists_outgrows n
  have hnodup := nodup_ids_order hwf (List.Perm.refl e.flags)
  rw [List.map_append, List.nodup_append] at hnodup
  obtain ⟨hflags, hpositionals, hdisjoint⟩ := hnodup
  have hneeded : ∀ i ∈ neededFlags e, i ∈ e.flags ∧ i.type ≠ .boolean ∧ '=' ∉ i.name.toList := by
    intro i hi
    obtain ⟨hi, hrequired, htype⟩ := mem_neededFlags.mp hi
    exact ⟨hi, htype, hequals i hi hrequired htype⟩
  obtain ⟨vs, hids, hread⟩ := exists_parseLevel_fillerWords (p := {}) hat he hwf hk hneeded
    (hflags.sublist (ids_neededFlags_sublist e)) rfl rfl (by simp)
  -- The positional words stand without two dashes before them, for a child may have that name.
  have hplaced : ∀ word ∈ positionalWords (zeroValue k) e.positionals, IsPlaced s false word := by
    intro word hword
    obtain ⟨i, _, heq⟩ := List.mem_filterMap.mp hword
    obtain rfl : zeros k = word := Option.some.inj heq
    exact isPlaced_zeros hat hk
  have hnew : ∀ i ∈ e.positionals, argId i.name ∉ vs.map Prod.fst := by
    intro i hi hmem
    rw [hids] at hmem
    have hflag := (ids_neededFlags_sublist e).subset hmem
    exact hdisjoint _ hflag _ (List.mem_map_of_mem hi) rfl
  have hhelp : s.spec.helpWhenEmpty = false := by
    rw [hat.spec, helpWhenEmpty_ofNode, he]
    rfl
  have hsplit : e.positionals = [] ++ e.positionals := rfl
  refine ⟨(neededFlags e).map (fillerWord e k) ++ positionalWords (zeroValue k) e.positionals,
    vs ++ entries (zeroValue k) e.positionals, ?_⟩
  rw [hread, List.nil_append]
  exact parseLevel_positionalWords hat he hwf hsplit (fun i _ => ⟨zeros k, rfl⟩) hpositionals
    hplaced rfl rfl rfl hnew hhelp (complete_of_needed hat he hids k)

/-- The node of a compiled command is invoked by some words where the nodes on the way to it are
well named, unless a required flag has an equals sign in its name. -/
theorem exists_words_of_leadsTo {options : Compile.Options} {bytes : List UInt8}
    {commands : List Command} {notices : List Notice}
    (hcompile : compile options bytes = .ok (commands, notices)) (version : String)
    {names : List String} (hpath : (Tree.ofCommands commands).LeadsTo names n)
    (hnamed : (Tree.ofCommands commands).WellNamedAlong names) (he : n.endpoint = some e)
    (hequals : ∀ i ∈ e.flags, i.required = true → i.type ≠ .boolean → '=' ∉ i.name.toList) :
    ∃ words m, parse (build (Tree.ofCommands commands) version) words = .ok m ∧
      findNode (Tree.ofCommands commands) m = some n := by
  have hwf := wellFormed_of_endpoint hcompile hpath.mem_nodes he
  obtain ⟨words, vs, hwords⟩ := exists_parseLevel_of_endpoint (at_level n) he hwf hequals
  obtain ⟨m, hparse, hnode, _⟩ :=
    exists_matches_of_level (Tree.arrangement_ofCommands commands)
      (fun _ hn _ => wellFormed_of_endpoint hcompile hn) hpath hnamed version hwords
  exact ⟨names ++ words, m, hparse, hnode⟩

/-- A document with a required flag with an equals sign in its name, and a child with a required
number and a placeholder. -/
def hiddenDocument : List UInt8 := List.flatMap Text.Utf8.encode
  ["\x7b\"paths\":\x7b\"/api/v1/x\":\x7b\"get\":\x7b\"parameters\":[\x7b\"name\":\"a=b\",",
    "\"in\":\"query\",\"required\":true\x7d]\x7d\x7d,",
    "\"/api/v1/y/z/\x7bid\x7d\":\x7b\"get\":\x7b\"parameters\":[\x7b\"name\":\"output\",",
    "\"in\":\"query\",\"required\":true,\"schema\":\x7b\"type\":\"number\"\x7d\x7d]\x7d\x7d\x7d\x7d"]

def hiddenEquals : Command :=
  { name := "x", parent := "", short := "", long := "", method := "GET", path := "/api/v1/x"
    params := [{ name := "a=b", required := true, location := .query }] }

def seenChild : Command :=
  { name := "z", parent := "y", short := "", long := "", method := "GET"
    path := "/api/v1/y/z/\x7bid\x7d"
    params := [{ name := "id", required := true, location := .path },
      { name := "output", type := .number, required := true, location := .query }] }

theorem compile_hiddenDocument :
    compile {} hiddenDocument = .ok ([hiddenEquals, seenChild], [.compiled 2]) := by
  decide +kernel

def hiddenTree : Tree := Tree.ofCommands [hiddenEquals, seenChild]

theorem exists_words_of_leadsTo_child :
    ∃ words m, parse (build hiddenTree "1") words = .ok m ∧
      findNode hiddenTree m = some (Node.ofCommand "z" seenChild) :=
  exists_words_of_leadsTo compile_hiddenDocument "1"
    (.child (p := { Node.grouping "y" with children := [Node.ofCommand "z" seenChild] })
      (List.mem_of_getElem? (i := 1) rfl) List.mem_cons_self)
    (Tree.wellNamedAlong_of_forall (by decide +kernel) (by decide +kernel) _) rfl (by decide)

/-! ### Commands that no words lead to -/

/-- The flag of an input can be said, if only by a name without an equals sign. -/
def SaidPlainly (e : Endpoint) (i : Input) (a : Arg) : Prop :=
  a.id = argId i.name → '=' ∉ (longOf e i).toList

/-- The words of a level can say a flag only by its long name, up to an equals sign. -/
theorem saidPlainly_of_says (hat : s.At n) (he : n.endpoint = some e) (hwf : e.WellFormed)
    {i : Input} (hi : i ∈ e.flags) {ended : Bool} {k : Nat} {ws : List String}
    {said : List (Arg × String)} (hsaid : Says s ended k ws said) :
    ∀ entry ∈ said, SaidPlainly e i entry.1 := by
  have hown : flagArg (longOf e i) i ∈ endpointArgs e :=
    List.mem_append_right _ (flagArg_longOf_mem hwf hi)
  apply hsaid.forall_said (P := SaidPlainly e i)
  · intro name a hname ha
    have hflag : SaidPlainly e i a := by
      intro haid
      have hsame := eq_of_id_eq hat he hwf.nodup (s.mem_args_of_long? ha) hown haid
      have hlong : a.long = some name := by simpa using List.find?_some ha
      rw [hsame] at hlong
      exact Option.some.inj hlong ▸ hname
    exact ⟨hflag, fun haid => hflag ((s.leader_id a).symm.trans haid)⟩
  · intro a ha haid
    have hargs := s.mem_args_of_mem_positionals ha
    have hsame := eq_of_id_eq hat he hwf.nodup hargs hown ((s.leader_id a).symm.trans haid)
    have hpositional : Spec.isPositional a = true := (List.mem_filter.mp ha).2
    simp [hsame, Spec.isPositional, flagArg] at hpositional

/-- No accepted words lead to a node with a required flag whose long name holds an equals sign. -/
theorem equals_notMem_of_parse {t : Tree} {version : String} {words : List String} {m : Matches}
    (hparse : parse (build t version) words = .ok m) (hnode : findNode t m = some n)
    (he : n.endpoint = some e) (hwf : e.WellFormed) {i : Input} (hi : i ∈ e.flags)
    (hrequired : i.required = true) (htype : i.type ≠ .boolean) :
    '=' ∉ (longOf e i).toList := by
  obtain ⟨s, _, _, hat, _, hgives, hcomplete⟩ :=
    (accepted_of_parse hparse).exists_level (over_build t version) hnode
  have hown : flagArg (longOf e i) i ∈ endpointArgs e :=
    List.mem_append_right _ (flagArg_longOf_mem hwf hi)
  have hgiven := hcomplete.2 _ (mem_args_of_mem_endpointArgs hat he hown)
    (by simp [flagArg, hrequired, htype])
  obtain ⟨⟨id, v⟩, hv, heq⟩ := List.any_eq_true.mp hgiven
  obtain ⟨_, _, said, hsaid, hreads⟩ := hgives.spoken
  obtain ⟨b, text, hmem, hid, _⟩ := hreads.exists_mem hv
  exact saidPlainly_of_says hat he hwf hi hsaid _ hmem (hid.trans (eq_of_beq heq))

/-- Whether no words that are accepted lead to a node. -/
def IsHidden (t : Tree) (n : Node) : Prop :=
  ∀ version words m, parse (build t version) words = .ok m → findNode t m ≠ some n

/-- A node with names on the way that do not go together is hidden. -/
theorem isHidden_of_leadsTo {options : Compile.Options} {bytes : List UInt8}
    {commands : List Command} {notices : List Notice}
    (hcompile : compile options bytes = .ok (commands, notices))
    (h : ∀ names, (Tree.ofCommands commands).LeadsTo names n →
      ¬(Tree.ofCommands commands).WellNamedAlong names) :
    IsHidden (Tree.ofCommands commands) n := by
  intro version words m hparse hnode
  obtain ⟨names, hpath, hnamed⟩ := wellNamedAlong_of_parse (Tree.arrangement_ofCommands commands)
    (fun _ hn _ => wellFormed_of_endpoint hcompile hn) hparse hnode
  exact h names hpath hnamed

theorem isHidden_hidden :
    (compile {} hiddenDocument = .ok ([hiddenEquals, seenChild], [.compiled 2]) ∧
      Node.ofCommand "x" hiddenEquals ∈ Tree.nodes hiddenTree ∧
      IsHidden hiddenTree (Node.ofCommand "x" hiddenEquals)) ∧
    (compile {} helpDocument = .ok (helpCommands, [.compiled 2]) ∧
      ∀ n ∈ Tree.nodes (Tree.ofCommands helpCommands), IsHidden (Tree.ofCommands helpCommands) n) ∧
    (compile {} dashDocument = .ok ([dashCommand], [.compiled 1]) ∧
      ∀ n ∈ Tree.nodes (Tree.ofCommands [dashCommand]),
        IsHidden (Tree.ofCommands [dashCommand]) n) := by
  refine ⟨⟨compile_hiddenDocument, List.mem_of_getElem? (i := 0) rfl, ?_⟩,
    ⟨compile_helpDocument, fun n _ => ?_⟩, ⟨compile_dashDocument, fun n hn => ?_⟩⟩
  · intro version words m hparse hnode
    have hmem : Node.ofCommand "x" hiddenEquals ∈ Tree.nodes hiddenTree :=
      List.mem_of_getElem? (i := 0) rfl
    have hwf := wellFormed_of_endpoint compile_hiddenDocument hmem rfl
    have hlong := equals_notMem_of_parse hparse hnode rfl hwf
      (i := ⟨{ name := "a=b", required := true, location := .query }, false⟩)
      (List.mem_singleton_self _) rfl (by decide)
    exact hlong (by decide +kernel)
  · exact isHidden_of_leadsTo compile_helpDocument fun names _ hnamed =>
      hnamed.help (by decide +kernel)
  · have hnot : ∀ k ∈ Tree.nodes (Tree.ofCommands [dashCommand]), ¬k.WellNamed := by decide +kernel
    exact isHidden_of_leadsTo compile_dashDocument fun names hpath hnamed =>
      hnot n hn (hnamed.of_leadsTo hpath)

end ApiCommands.Surface
