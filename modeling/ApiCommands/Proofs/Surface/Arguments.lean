import ApiCommands.Proofs.Command.Inputs
import ApiCommands.Proofs.Keys
import ApiCommands.Proofs.Naming
import ApiCommands.Surface.Build

namespace ApiCommands.Surface

/-!
# The arguments of an endpoint

Every input of an endpoint has one argument. No two arguments of an endpoint have an id or a long
name in common, and none has the id or the long name of a global argument.
-/

theorem argId_injective : Function.Injective argId := by
  intro a b h
  have hlists : "param__".toList ++ a.toList = "param__".toList ++ b.toList := by
    simpa [argId] using congrArg String.toList h
  exact String.toList_injective (List.append_cancel_left hlists)

theorem argId_ne_of_mem_globalArgs {a : Arg} (h : a ∈ globalArgs) (name : String) :
    a.id ≠ argId name := by
  have hmark : ∀ b ∈ globalArgs, ¬"param__".toList <+: b.id.toList := by decide +kernel
  intro heq
  refine hmark a h ?_
  rw [heq, argId, String.toList_append]
  exact List.prefix_append _ _

theorem required_of_mem_globalArgs {a : Arg} (h : a ∈ globalArgs) : a.required = false := by
  have hall : ∀ b ∈ globalArgs, b.required = false := by decide
  exact hall a h

theorem map_id_positionalArgs (k : Nat) (is : List Input) :
    (positionalArgs k is).map Arg.id = is.map fun i => argId i.name := by
  induction is generalizing k with
  | nil => rfl
  | cons i is ih => simp [positionalArgs, positionalArg, ih]

theorem map_id_flagArgs (taken : List String) (is : List Input) :
    (flagArgs taken is).map Arg.id = is.map fun i => argId i.name := by
  induction is generalizing taken with
  | nil => rfl
  | cons i is ih => simp [flagArgs, flagArg, ih]

theorem map_id_endpointArgs (e : Endpoint) :
    (endpointArgs e).map Arg.id = (e.positionals ++ e.flags).map fun i => argId i.name := by
  rw [endpointArgs, List.map_append, map_id_positionalArgs, map_id_flagArgs, List.map_append]

theorem nodup_ids_inputs {e : Endpoint} (h : (e.inputs.map fun i => i.name).Nodup) :
    (e.inputs.map fun i => argId i.name).Nodup := by
  have hids := h.map argId_injective
  rw [List.map_map] at hids
  exact hids

theorem nodup_ids_endpointArgs {e : Endpoint} (h : (e.inputs.map fun i => i.name).Nodup) :
    ((endpointArgs e).map Arg.id).Nodup := by
  have hperm : (e.positionals ++ e.flags).Perm e.inputs := List.filter_append_perm _ _
  rw [map_id_endpointArgs]
  exact (hperm.map fun i => argId i.name).nodup_iff.mpr (nodup_ids_inputs h)

theorem positionalArgs_getElem? (k j : Nat) (is : List Input) :
    (positionalArgs k is)[j]? = is[j]?.map (positionalArg (k + j)) := by
  induction is generalizing k j with
  | nil => simp [positionalArgs]
  | cons i is ih =>
      cases j with
      | zero => simp [positionalArgs]
      | succ j =>
          have hindex : k + 1 + j = k + (j + 1) := by omega
          simp [positionalArgs, ih, hindex]

theorem exists_of_mem_positionalArgs {k : Nat} {is : List Input} {a : Arg}
    (h : a ∈ positionalArgs k is) : ∃ i ∈ is, ∃ j, a = positionalArg j i := by
  obtain ⟨j, hj⟩ := List.mem_iff_getElem?.mp h
  obtain ⟨i, hi, rfl⟩ := Option.map_eq_some_iff.mp (positionalArgs_getElem? k j is ▸ hj)
  exact ⟨i, List.mem_of_getElem? hi, k + j, rfl⟩

theorem exists_mem_positionalArgs {is : List Input} {i : Input} (h : i ∈ is) (k : Nat) :
    ∃ j, positionalArg j i ∈ positionalArgs k is := by
  obtain ⟨j, hj⟩ := List.mem_iff_getElem?.mp h
  exact ⟨k + j, List.mem_of_getElem? (by rw [positionalArgs_getElem?, hj, Option.map_some])⟩

theorem exists_longName_of_mem_flagArgs {taken : List String} {is : List Input} {a : Arg}
    (h : a ∈ flagArgs taken is) :
    ∃ i ∈ is, ∃ taken', a = flagArg (longName taken' i.name).1 i := by
  induction is generalizing taken with
  | nil => simp [flagArgs] at h
  | cons i is ih =>
      rcases List.mem_cons.mp h with rfl | h
      · exact ⟨i, List.mem_cons_self, taken, rfl⟩
      · obtain ⟨j, hj, taken', heq⟩ := ih h
        exact ⟨j, List.mem_cons_of_mem i hj, taken', heq⟩

theorem exists_of_mem_flagArgs {taken : List String} {is : List Input} {a : Arg}
    (h : a ∈ flagArgs taken is) : ∃ i ∈ is, ∃ long, a = flagArg long i := by
  obtain ⟨i, hi, taken', rfl⟩ := exists_longName_of_mem_flagArgs h
  exact ⟨i, hi, _, rfl⟩

theorem exists_mem_flagArgs {is : List Input} {i : Input} (h : i ∈ is) (taken : List String) :
    ∃ taken', flagArg (longName taken' i.name).1 i ∈ flagArgs taken is := by
  induction is generalizing taken with
  | nil => simp at h
  | cons j is ih =>
      rcases List.mem_cons.mp h with rfl | h
      · exact ⟨taken, List.mem_cons_self⟩
      · obtain ⟨taken', hmem⟩ := ih h (longName taken j.name).2
        exact ⟨taken', List.mem_cons_of_mem _ hmem⟩

theorem filter_isPositional_endpointArgs (e : Endpoint) :
    (endpointArgs e).filter Spec.isPositional = positionalArgs 1 e.positionals := by
  have hpositional : (positionalArgs 1 e.positionals).filter Spec.isPositional =
      positionalArgs 1 e.positionals := by
    refine List.filter_eq_self.mpr fun a ha => ?_
    obtain ⟨i, _, k, rfl⟩ := exists_of_mem_positionalArgs ha
    rfl
  have hflags : (flagArgs (ownNames e) e.flags).filter Spec.isPositional = [] := by
    refine List.filter_eq_nil_iff.mpr fun a ha => ?_
    obtain ⟨i, _, long, rfl⟩ := exists_of_mem_flagArgs ha
    simp [Spec.isPositional, flagArg]
  rw [endpointArgs, List.filter_append, hpositional, hflags, List.append_nil]

theorem global_of_mem_endpointArgs {e : Endpoint} {a : Arg} (h : a ∈ endpointArgs e) :
    a.global = false := by
  rcases List.mem_append.mp h with h | h
  · obtain ⟨i, _, j, rfl⟩ := exists_of_mem_positionalArgs h
    rfl
  · obtain ⟨i, _, long, rfl⟩ := exists_of_mem_flagArgs h
    rfl

theorem longName_of_mem {name : String} (h : name ∈ reservedNames) (taken : List String) :
    longName taken name = (Naming.firstFree taken (name ++ "-param"),
      Naming.firstFree taken (name ++ "-param") :: taken) := by
  simp [longName, h]

theorem longName_of_notMem {name : String} (h : name ∉ reservedNames) (taken : List String) :
    longName taken name = (name, taken) := by
  simp [longName, h]

theorem equals_notMem_longName (taken : List String) {name : String} (h : '=' ∉ name.toList) :
    '=' ∉ (longName taken name).1.toList := by
  by_cases hreserved : name ∈ reservedNames
  · rw [longName_of_mem hreserved]
    exact Naming.notMem_firstFree (by decide) (by decide) taken (by simpa using h)
  · rwa [longName_of_notMem hreserved]

/-- A long name begins as the name of its input does. -/
theorem head?_longName (taken : List String) (name : String) :
    (longName taken name).1.toList.head? = name.toList.head? := by
  by_cases hreserved : name ∈ reservedNames
  · have hsome : ∀ r ∈ reservedNames, r.toList.head?.isSome = true := by decide
    obtain ⟨c, hc⟩ := Option.isSome_iff_exists.mp (hsome name hreserved)
    obtain ⟨suffix, hsuffix⟩ := Naming.exists_firstFree_eq_append taken (name ++ "-param")
    rw [longName_of_mem hreserved, hsuffix]
    simp [hc]
  · rw [longName_of_notMem hreserved]

/-- No flag of an endpoint has the long name of a global one. -/
theorem longName_notMem_reservedNames (taken : List String) (name : String) :
    (longName taken name).1 ∉ reservedNames := by
  by_cases h : name ∈ reservedNames
  · have hmark : ∀ r ∈ reservedNames, ¬"-param".toList <:+: r.toList := by decide +kernel
    obtain ⟨suffix, hsuffix⟩ := Naming.exists_firstFree_eq_append taken (name ++ "-param")
    rw [longName_of_mem h]
    intro hmem
    refine hmark _ hmem ?_
    rw [hsuffix, String.toList_append, String.toList_append]
    exact List.infix_append _ _ _
  · rwa [longName_of_notMem h]

/-- A long name is the name of its input, or else it was free. -/
theorem name_or_notMem_of_long {taken : List String} {is : List Input} {a : Arg} {long : String}
    (h : a ∈ flagArgs taken is) (hlong : a.long = some long) :
    (long ∈ is.map (fun i => i.name) ∧ long ∉ reservedNames) ∨ long ∉ taken := by
  induction is generalizing taken with
  | nil => simp [flagArgs] at h
  | cons i is ih =>
      by_cases hi : i.name ∈ reservedNames
      · rw [flagArgs, longName_of_mem hi] at h
        rcases List.mem_cons.mp h with rfl | h
        · cases hlong
          exact Or.inr (Naming.firstFree_notMem taken _)
        · rcases ih h with ⟨hname, hown⟩ | hfree
          · exact Or.inl ⟨List.mem_cons_of_mem _ hname, hown⟩
          · exact Or.inr fun hmem => hfree (List.mem_cons_of_mem _ hmem)
      · rw [flagArgs, longName_of_notMem hi] at h
        rcases List.mem_cons.mp h with rfl | h
        · cases hlong
          exact Or.inl ⟨List.mem_cons_self, hi⟩
        · rcases ih h with ⟨hname, hown⟩ | hfree
          · exact Or.inl ⟨List.mem_cons_of_mem _ hname, hown⟩
          · exact Or.inr hfree

theorem nodup_longs_flagArgs {taken : List String} {is : List Input}
    (hnames : (is.map fun i => i.name).Nodup)
    (hown : ∀ i ∈ is, i.name ∉ reservedNames → i.name ∈ taken) :
    ((flagArgs taken is).map Arg.long).Nodup := by
  induction is generalizing taken with
  | nil => exact List.nodup_nil
  | cons i is ih =>
      obtain ⟨hi, his⟩ := List.nodup_cons.mp (List.map_cons ▸ hnames)
      have hrest := fun j hj => hown j (List.mem_cons_of_mem i hj)
      by_cases hreserved : i.name ∈ reservedNames
      · rw [flagArgs, longName_of_mem hreserved, List.map_cons, List.nodup_cons]
        refine ⟨fun hmem => ?_, ih his fun j hj h => List.mem_cons_of_mem _ (hrest j hj h)⟩
        obtain ⟨a, ha, hlong⟩ := List.mem_map.mp hmem
        rcases name_or_notMem_of_long ha hlong with ⟨hname, hnot⟩ | hfree
        · obtain ⟨j, hj, heq⟩ := List.mem_map.mp hname
          exact Naming.firstFree_notMem taken _ (heq ▸ hrest j hj (heq ▸ hnot))
        · exact hfree List.mem_cons_self
      · rw [flagArgs, longName_of_notMem hreserved, List.map_cons, List.nodup_cons]
        refine ⟨fun hmem => ?_, ih his hrest⟩
        obtain ⟨a, ha, hlong⟩ := List.mem_map.mp hmem
        rcases name_or_notMem_of_long ha hlong with ⟨hname, _⟩ | hfree
        · exact hi hname
        · exact hfree (hown i List.mem_cons_self hreserved)

theorem nodup_longs_endpoint {e : Endpoint} (h : e.WellFormed) :
    ((flagArgs (ownNames e) e.flags).map Arg.long).Nodup := by
  refine nodup_longs_flagArgs (h.nodup.sublist (List.filter_sublist.map _)) fun i hi hown => ?_
  exact List.mem_filter.mpr ⟨List.mem_map_of_mem hi, by simp [hown]⟩

end ApiCommands.Surface
