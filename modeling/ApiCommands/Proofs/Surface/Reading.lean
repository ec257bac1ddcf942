import ApiCommands.Proofs.Surface.Levels
import ApiCommands.Proofs.Surface.Written

namespace ApiCommands.Surface

/-!
# Reading a command line that was written

Each word adds the value that it was written for: a flag at once, a positional value when the next
one comes or the level ends. So all words together leave the entries of the assigned values.
-/

variable {s : Scope} {n : Node} {e : Endpoint} {value : String → Option ArgValue}

theorem longOf_eq (hwf : e.WellFormed) {i : Input} {long : String}
    (h : flagArg long i ∈ flagArgs (ownNames e) e.flags) : longOf e i = long := by
  have hfind := find?_of_mem (nodup_ids_endpointArgs hwf.nodup)
    (List.mem_append_right (positionalArgs 1 e.positionals) h)
  have hid : (flagArg long i).id = argId i.name := rfl
  rw [longOf, ← hid]
  exact congrArg (fun a => (Option.bind a Arg.long).getD "") hfind

theorem flagArg_longOf_mem (hwf : e.WellFormed) {i : Input} (hi : i ∈ e.flags) :
    flagArg (longOf e i) i ∈ flagArgs (ownNames e) e.flags := by
  obtain ⟨_, hmem⟩ := exists_mem_flagArgs hi (ownNames e)
  rwa [longOf_eq hwf hmem]

theorem equals_notMem_longOf (hwf : e.WellFormed) {i : Input} (hi : i ∈ e.flags)
    (h : '=' ∉ i.name.toList) : '=' ∉ (longOf e i).toList := by
  obtain ⟨taken, hmem⟩ := exists_mem_flagArgs hi (ownNames e)
  rw [longOf_eq hwf hmem]
  exact equals_notMem_longName taken h

theorem long?_longOf (hat : s.At n) (he : n.endpoint = some e) (hwf : e.WellFormed) {i : Input}
    (hi : i ∈ e.flags) : s.long? (longOf e i) = some (flagArg (longOf e i) i) := by
  have hnone : (positionalArgs 1 e.positionals).find? (·.long == some (longOf e i)) = none := by
    refine List.find?_eq_none.mpr fun a ha => ?_
    obtain ⟨j, _, k, rfl⟩ := exists_of_mem_positionalArgs ha
    simp [positionalArg]
  have hfind : (flagArgs (ownNames e) e.flags).find? (·.long == some (longOf e i)) =
      some (flagArg (longOf e i) i) :=
    find?_of_mem (nodup_longs_endpoint hwf) (flagArg_longOf_mem hwf hi)
  rw [Scope.long?, Scope.args, hat.spec, args_ofNode_of_endpoint he, endpointArgs,
    List.append_assoc, List.find?_append, hnone, Option.none_or, List.find?_append, hfind,
    Option.some_or]

theorem leader_of_mem_endpointArgs (hat : s.At n) (he : n.endpoint = some e)
    (hwf : e.WellFormed) {a : Arg} (ha : a ∈ endpointArgs e) : s.leader a = a := by
  have hfind := find?_of_mem (nodup_ids_endpointArgs hwf.nodup) ha
  rw [Scope.leader, Scope.args, hat.spec, args_ofNode_of_endpoint he, List.find?_append, hfind,
    Option.some_or, Option.getD_some]

theorem positionals_of_at (hat : s.At n) (he : n.endpoint = some e) :
    s.spec.positionals = positionalArgs 1 e.positionals := by
  rw [Spec.positionals, hat.spec, args_ofNode_of_endpoint he, filter_isPositional_endpointArgs]

theorem waiting_of_pending {p : Progress} (h : p.pending = none) : p.waiting = none := by
  rw [Progress.waiting, h]

theorem move_of_notMem (hat : s.At n) {p : Progress} (htrailing : p.trailing = false)
    (hwaiting : p.waiting = none) {word : String} (hhelp : word ≠ Scope.helpName)
    (hchild : word ∉ n.children.map Node.name) : move s p word = otherWord s p word := by
  have hnone : Tree.find? word n.children = none := by
    refine List.find?_eq_none.mpr fun k hk heq => hchild ?_
    exact List.mem_map.mpr ⟨k, hk, eq_of_beq heq⟩
  have hsub : subcommandWord s word = none := by
    rw [subcommandWord, hat.spec, subcommand?_ofNode, hnone]
    simp [hhelp]
  simp [move, htrailing, hwaiting, hsub]

theorem longFlag_of_long? {p : Progress} {cs : List Char} {name : String}
    {text : Option String} {a : Arg} (hsplit : splitFlag cs = (name, text))
    (hlong : s.long? name = some a) : longFlag s p cs = knownFlag s p a text := by
  rw [longFlag, hsplit]
  dsimp only
  rw [hlong]

theorem knownFlag_some {p : Progress} {a : Arg} (h : a.kind.takesValue = true) (text : String) :
    knownFlag s p a (some text) = .ofExcept (p.settle.bind fun p => p.store a text) := by
  simp [knownFlag, h]

theorem knownFlag_none {p : Progress} {a : Arg} (h : a.kind.takesValue = false) :
    knownFlag s p a none = .ofExcept (p.settle.bind fun p => p.store a "") := by
  simp [knownFlag, h]

/-- The word of a flag is read as that flag, with the text after the equals sign. -/
theorem move_dashed (hat : s.At n) (he : n.endpoint = some e) (hwf : e.WellFormed) {i : Input}
    (hi : i ∈ e.flags) (hlong : '=' ∉ (longOf e i).toList) {text : Option String}
    (hempty : text = none → longOf e i ≠ "")
    (hchild : dashed (longOf e i) text ∉ n.children.map Node.name) {p : Progress}
    (htrailing : p.trailing = false) (hpending : p.pending = none) :
    move s p (dashed (longOf e i) text) = knownFlag s p (flagArg (longOf e i) i) text := by
  obtain ⟨c, cs, hword, hsplit⟩ := exists_toList_dashed hlong hempty
  have hhelp : dashed (longOf e i) text ≠ Scope.helpName := by
    intro heq
    rw [heq] at hword
    simp [Scope.helpName] at hword
  rw [move_of_notMem hat htrailing (waiting_of_pending hpending) hhelp hchild, otherWord, hword]
  exact longFlag_of_long? hsplit (long?_longOf hat he hwf hi)

theorem ofExcept_store {p : Progress} (hpending : p.pending = none) {a : Arg} {text : String}
    {v : ArgValue} (hread : a.kind.read text = .ok v) (hnew : a.id ∉ p.values.map Prod.fst) :
    Move.ofExcept (p.settle.bind fun p => p.store a text) =
      .goOn { p with values := p.values ++ [(a.id, v)] } := by
  have hsettle : p.settle = .ok p := by rw [Progress.settle, hpending]
  rw [ofExcept_eq_goOn_iff, hsettle]
  exact store_eq_ok_iff.mpr ⟨hnew, v, hread, rfl⟩

theorem move_dashed_some (hat : s.At n) (he : n.endpoint = some e) (hwf : e.WellFormed)
    {i : Input} (hi : i ∈ e.flags) (hlong : '=' ∉ (longOf e i).toList) {text : String}
    (hchild : dashed (longOf e i) (some text) ∉ n.children.map Node.name) {p : Progress}
    (htrailing : p.trailing = false) (hpending : p.pending = none)
    (htakes : (flagKind i).1.takesValue = true) {v : ArgValue}
    (hread : (flagKind i).1.read text = .ok v) (hnew : argId i.name ∉ p.values.map Prod.fst) :
    move s p (dashed (longOf e i) (some text)) =
      .goOn { p with values := p.values ++ [(argId i.name, v)] } := by
  rw [move_dashed hat he hwf hi hlong (by simp) hchild htrailing hpending, knownFlag_some htakes]
  exact ofExcept_store hpending hread hnew

theorem move_spelledWord (hat : s.At n) (he : n.endpoint = some e) (hwf : e.WellFormed)
    {i : Input} (hi : i ∈ e.flags) {text : String} {v : ArgValue} (hspells : Spells i text v)
    (hlong : '=' ∉ (longOf e i).toList) (hempty : v = .on → longOf e i ≠ "")
    (hchild : spelledWord (longOf e i) text v ∉ n.children.map Node.name) {p : Progress}
    (htrailing : p.trailing = false) (hpending : p.pending = none)
    (hnew : argId i.name ∉ p.values.map Prod.fst) :
    move s p (spelledWord (longOf e i) text v) =
      .goOn { p with values := p.values ++ [(argId i.name, v)] } := by
  have hflag : i.positional = false := by simpa using (List.mem_filter.mp hi).2
  rw [spelledWord] at hchild ⊢
  by_cases hon : v = .on
  · subst hon
    have hkind := flagKind_of_switch hspells.type.symm
    have hswitch : (flagArg (longOf e i) i).kind.takesValue = false := congrArg _ hkind
    have hread : (flagArg (longOf e i) i).kind.read "" = .ok .on :=
      congrArg (ValueKind.read · "") hkind
    rw [if_pos rfl] at hchild ⊢
    rw [move_dashed hat he hwf hi hlong (fun _ => hempty rfl) hchild htrailing hpending,
      knownFlag_none hswitch]
    exact ofExcept_store hpending hread hnew
  · have htakes : (flagKind i).1.takesValue = true := by
      refine takesValue_flagKind hflag fun hswitch => hon ?_
      have htype := hspells.type.trans hswitch
      cases v <;> first | rfl | cases htype
    rw [if_neg hon] at hchild ⊢
    exact move_dashed_some hat he hwf hi hlong hchild htrailing hpending htakes
      (hspells.reads hflag hon) hnew

theorem parseLevel_cons_of_goOn {p p' : Progress} {word : String}
    (h : move s p word = .goOn p') (words : List String) :
    parseLevel s p (word :: words) = parseLevel s p' words := by
  rw [parseLevel, h]

/-- The words of flags leave their entries. -/
theorem parseLevel_spelledWords (hat : s.At n) (he : n.endpoint = some e) (hwf : e.WellFormed)
    {text : String → String} (hspelled : Spelled e text value) (hclear : Clear n e text value)
    (words : List String) {is : List Input} (his : ∀ i ∈ is, i ∈ e.flags)
    (hnodup : (is.map fun i => argId i.name).Nodup) {p : Progress}
    (htrailing : p.trailing = false) (hpending : p.pending = none)
    (hnew : ∀ i ∈ is, argId i.name ∉ p.values.map Prod.fst) :
    parseLevel s p (spelledWords e text value is ++ words) =
      parseLevel s { p with values := p.values ++ entries value is } words := by
  induction is generalizing p with
  | nil => simp [spelledWords, entries]
  | cons i is ih =>
      obtain ⟨hi, his'⟩ := List.forall_mem_cons.mp his
      obtain ⟨hnotin, hnodup'⟩ := List.nodup_cons.mp (List.map_cons ▸ hnodup)
      obtain ⟨hfree, hnew'⟩ := List.forall_mem_cons.mp hnew
      cases hvalue : value i.name with
      | none =>
          rw [spelledWords_cons_of_none hvalue, entries_cons_of_none hvalue,
            ih his' hnodup' htrailing hpending hnew']
      | some v =>
          have hword : spelledWord (longOf e i) (text i.name) v ∈
              spelledWords e text value e.flags :=
            List.mem_filterMap.mpr ⟨i, hi, by rw [hvalue, Option.map_some]⟩
          have hinput : i ∈ e.inputs := List.mem_of_mem_filter hi
          have hmove := move_spelledWord hat he hwf hi (hspelled.spells i hinput v hvalue)
            (hclear.long i hi (by rw [hvalue]; rfl))
            (fun hon => hclear.switch i hi (hon ▸ hvalue))
            (hclear.child _ (List.mem_cons_of_mem _ hword)) htrailing hpending hfree
          have hrest := ih (p := { p with values := p.values ++ [(argId i.name, v)] }) his' hnodup'
            htrailing hpending (notMem_ids_concat hnotin hnew' v)
          rw [spelledWords_cons_of_some hvalue, List.cons_append, parseLevel_cons_of_goOn hmove,
            hrest, entries_cons_of_some hvalue, List.append_assoc, List.singleton_append]

theorem move_dashes (hat : s.At n) {p : Progress} (htrailing : p.trailing = false)
    (hpending : p.pending = none) (hchild : "--" ∉ n.children.map Node.name) :
    move s p "--" = .goOn { p with trailing := true } := by
  rw [move_of_notMem hat htrailing (waiting_of_pending hpending) (by decide) hchild]
  rfl

/-- The word of a positional value settles the one before it and waits. -/
theorem positional_eq_goOn (hat : s.At n) (he : n.endpoint = some e) (hwf : e.WellFormed)
    {before after : List Input} {i : Input} (hsplit : e.positionals = before ++ i :: after)
    {p : Progress} (hposition : p.position = before.length)
    {vs : Values} (hsettle : p.settle = .ok { p with values := vs, pending := none })
    (word : String) :
    ∃ k, positional s p word = .goOn
      { p with values := vs, pending := some (positionalArg k i, some word),
               position := p.position + 1 } := by
  have hget : e.positionals[p.position]? = some i := by
    rw [hsplit, hposition, List.getElem?_append_right (Nat.le_refl _), Nat.sub_self,
      List.getElem?_cons_zero]
  have harg : s.spec.positionals[p.position]? = some (positionalArg (1 + p.position) i) := by
    rw [positionals_of_at hat he, positionalArgs_getElem?, hget, Option.map_some]
  have hmem : positionalArg (1 + p.position) i ∈ endpointArgs e := by
    refine List.mem_append_left _ (List.mem_of_getElem? ?_ (i := p.position))
    rw [positionalArgs_getElem?, hget, Option.map_some]
  refine ⟨1 + p.position, ?_⟩
  rw [positional, harg]
  dsimp only
  rw [leader_of_mem_endpointArgs hat he hwf hmem, hsettle]
  rfl

theorem finish_of_complete {p p' : Progress} (hsettle : p.settle = .ok p')
    (hhelp : s.spec.helpWhenEmpty = false) (hcomplete : Complete s p'.values) :
    finish s p false = .ok p'.values := by
  have hnone : s.args.any (fun a => a.required && !isGiven p'.values a) = false := by
    refine List.any_eq_false.mpr fun a ha hmissing => ?_
    obtain ⟨hrequired, hnot⟩ := Bool.and_eq_true_iff.mp hmissing
    simp [hcomplete.2 a ha hrequired] at hnot
  simp [finish_of_settle hsettle, hhelp, hcomplete.1, hnone]

/-- Whether a word is read as a positional argument wherever flags may stand or not. -/
def IsPlaced (s : Scope) (trailing : Bool) (word : String) : Prop :=
  ∀ p : Progress, p.trailing = trailing → p.waiting = none → move s p word = positional s p word

theorem isPlaced_of_trailing (s : Scope) (word : String) : IsPlaced s true word := by
  intro p htrailing _
  rw [move, if_pos htrailing]

/-- The positional words end a level and leave their entries. -/
theorem parseLevel_positionalWords (hat : s.At n) (he : n.endpoint = some e)
    (hwf : e.WellFormed) {before is : List Input} (hsplit : e.positionals = before ++ is)
    (htexts : ∀ i ∈ is, ∃ text, value i.name = some (.text text))
    (hnodup : (is.map fun i => argId i.name).Nodup) {p : Progress}
    (hplaced : ∀ word ∈ positionalWords value is, IsPlaced s p.trailing word)
    (hwaiting : p.waiting = none) (hposition : p.position = before.length)
    {vs : Values} (hsettle : p.settle = .ok { p with values := vs, pending := none })
    (hnew : ∀ i ∈ is, argId i.name ∉ vs.map Prod.fst)
    (hhelp : s.spec.helpWhenEmpty = false) (hcomplete : Complete s (vs ++ entries value is)) :
    parseLevel s p (positionalWords value is) = .ok ⟨vs ++ entries value is, []⟩ := by
  induction is generalizing before p vs with
  | nil =>
      have hentries : entries value [] = [] := rfl
      rw [hentries, List.append_nil] at hcomplete ⊢
      exact Except.map_eq_ok_iff.mpr ⟨vs, finish_of_complete hsettle hhelp hcomplete, rfl⟩
  | cons i is ih =>
      obtain ⟨hnotin, hnodup'⟩ := List.nodup_cons.mp (List.map_cons ▸ hnodup)
      obtain ⟨hfree, hnew'⟩ := List.forall_mem_cons.mp hnew
      obtain ⟨⟨text, hvalue⟩, htexts'⟩ := List.forall_mem_cons.mp htexts
      rw [positionalWords_cons_of_some hvalue] at hplaced ⊢
      obtain ⟨hword, hplaced'⟩ := List.forall_mem_cons.mp hplaced
      have hassoc : vs ++ entries value (i :: is) =
          (vs ++ [(argId i.name, .text text)]) ++ entries value is := by
        rw [entries_cons_of_some hvalue, List.append_assoc, List.singleton_append]
      obtain ⟨k, hpositional⟩ := positional_eq_goOn hat he hwf hsplit hposition hsettle text
      have hmove := (hword p rfl hwaiting).trans hpositional
      rw [parseLevel_cons_of_goOn hmove, hassoc]
      have hsplit' : e.positionals = (before ++ [i]) ++ is := by
        rw [hsplit, List.append_assoc, List.singleton_append]
      have hposition' : p.position + 1 = (before ++ [i]).length := by
        rw [hposition, List.length_append, List.length_singleton]
      let p' : Progress :=
        { p with values := vs, pending := some (positionalArg k i, some text)
                 position := p.position + 1 }
      have hsettle' : p'.settle =
          .ok { p' with values := vs ++ [(argId i.name, .text text)], pending := none } :=
        store_eq_ok_iff.mpr ⟨hfree, .text text, rfl, rfl⟩
      exact ih (p := p') hsplit' htexts' hnodup' hplaced' rfl hposition' hsettle'
        (notMem_ids_concat hnotin hnew' _) (hassoc ▸ hcomplete)

end ApiCommands.Surface
