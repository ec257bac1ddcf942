import ApiCommands.Proofs.Text.Firsts

namespace ApiCommands.Text.Template

/-!
# Scanning and filling templates

A template is text, closed placeholders and at most one open brace that is never closed. Filling
one placeholder after the other is one substitution in which all take place at once, as long as
the names and the values hold no opening brace.
-/

/-- Induction over a template from left to right. -/
@[elab_as_elim] theorem scan_induction {motive : List Char → Prop} (nil : motive [])
    (text : ∀ c cs, c ≠ '{' → motive cs → motive (c :: cs))
    (closed : ∀ name cs, '}' ∉ name → motive cs → motive (group name ++ cs))
    (unclosed : ∀ cs, '}' ∉ cs → motive ('{' :: cs)) (cs : List Char) : motive cs := by
  induction hlen : cs.length using Nat.strongRecOn generalizing cs with
  | ind n ih =>
      cases cs with
      | nil => exact nil
      | cons c cs =>
          rw [List.length_cons] at hlen
          by_cases hc : c = '{'
          · subst hc
            by_cases hclose : '}' ∈ cs
            · obtain ⟨name, rest, rfl, hname⟩ := List.eq_append_cons_of_mem hclose
              have hrest : motive rest := by
                refine ih rest.length ?_ rest rfl
                rw [List.length_append, List.length_cons] at hlen
                omega
              simpa [group] using closed name rest hname hrest
            · exact unclosed cs hclose
          · exact text c cs hc (ih cs.length (by omega) cs rfl)

theorem group_append (name cs : List Char) : group name ++ cs = '{' :: (name ++ '}' :: cs) := by
  simp [group]

theorem groups_some_append {name : List Char} (h : '}' ∉ name) (inside cs : List Char) :
    groups (some inside) (name ++ '}' :: cs) = (inside.reverse ++ name) :: groups none cs := by
  induction name generalizing inside with
  | nil => simp [groups]
  | cons c name ih =>
      obtain ⟨hc, hname⟩ := not_or.mp (mt List.mem_cons.mpr h)
      simp [groups, Ne.symm hc, ih hname]

theorem groups_some_of_notMem {cs : List Char} (h : '}' ∉ cs) (inside : List Char) :
    groups (some inside) cs = [] := by
  induction cs generalizing inside with
  | nil => rfl
  | cons c cs ih =>
      obtain ⟨hc, hcs⟩ := not_or.mp (mt List.mem_cons.mpr h)
      simp [groups, Ne.symm hc, ih hcs]

theorem groups_group_append {name : List Char} (h : '}' ∉ name) (cs : List Char) :
    groups none (group name ++ cs) = name :: groups none cs := by
  simpa [group, groups] using groups_some_append h [] cs

theorem groups_unclosed {cs : List Char} (h : '}' ∉ cs) : groups none ('{' :: cs) = [] := by
  simpa [groups] using groups_some_of_notMem h []

theorem groups_append_of_notMem {pre : List Char} (h : '{' ∉ pre) (cs : List Char) :
    groups none (pre ++ cs) = groups none cs := by
  induction pre with
  | nil => rfl
  | cons c pre ih =>
      obtain ⟨hc, hpre⟩ := not_or.mp (mt List.mem_cons.mpr h)
      rw [List.cons_append, groups_cons_of_ne (Ne.symm hc), ih hpre]

theorem notMem_of_mem_groups {cs name : List Char} (h : name ∈ groups none cs) : '}' ∉ name := by
  induction cs using scan_induction with
  | nil => simp at h
  | text c cs hc ih => exact ih (groups_cons_of_ne hc cs ▸ h)
  | closed g cs hg ih =>
      rcases List.mem_cons.mp (groups_group_append hg cs ▸ h) with rfl | h
      · exact hg
      · exact ih h
  | unclosed cs hcs => simp [groups_unclosed hcs] at h

theorem groups_of_notMem {cs : List Char} (h : '}' ∉ cs) : groups none cs = [] := by
  induction cs with
  | nil => rfl
  | cons c cs ih =>
      have hcs : '}' ∉ cs := fun hmem => h (List.mem_cons_of_mem c hmem)
      by_cases hc : c = '{'
      · rw [hc, groups_unclosed hcs]
      · rw [groups_cons_of_ne hc, ih hcs]

/-- A placeholder is not lost by what stands before it, unless it ends one that begins there. -/
theorem groups_subset_append {pre cs : List Char}
    (h : ∀ name ∈ groups none (pre ++ cs), '{' ∉ name) :
    groups none cs ⊆ groups none (pre ++ cs) := by
  induction pre using scan_induction with
  | nil => exact List.Subset.refl _
  | text c pre hc ih =>
      rw [List.cons_append, groups_cons_of_ne hc] at h ⊢
      exact ih h
  | closed name pre hname ih =>
      rw [List.append_assoc, groups_group_append hname] at h ⊢
      exact List.subset_cons_of_subset name (ih fun g hg => h g (List.mem_cons_of_mem name hg))
  | unclosed pre hpre =>
      by_cases hclose : '}' ∈ cs
      · obtain ⟨before, after, rfl, hbefore⟩ := List.eq_append_cons_of_mem hclose
        have hname : '}' ∉ pre ++ before := by simp [hpre, hbefore]
        have hwhole : groups none ('{' :: pre ++ (before ++ '}' :: after)) =
            (pre ++ before) :: groups none after := by
          have hgroup := groups_group_append hname after
          rwa [group_append, List.append_assoc] at hgroup
        have hclean : '{' ∉ before := by
          intro hmem
          refine h (pre ++ before) ?_ (List.mem_append_right pre hmem)
          rw [hwhole]
          exact List.mem_cons_self
        rw [hwhole, groups_append_of_notMem hclean, groups_cons_of_ne (by decide)]
        exact List.subset_cons_self _ _
      · rw [groups_of_notMem hclose]
        exact List.nil_subset _

theorem mem_names {template name : String} :
    name ∈ names template ↔ name.toList ∈ groups none template.toList ∧ name ≠ "" := by
  rw [names, mem_firsts]
  constructor
  · rintro ⟨h, _⟩
    obtain ⟨g, hg, rfl⟩ := List.mem_map.mp h
    obtain ⟨hg, hne⟩ := List.mem_filter.mp hg
    refine ⟨String.toList_ofList ▸ hg, fun h => ?_⟩
    have hnil : g = [] := by simpa using congrArg String.toList h
    simp [hnil] at hne
  · rintro ⟨hg, hne⟩
    refine ⟨List.mem_map.mpr ⟨name.toList, List.mem_filter.mpr ⟨hg, ?_⟩, by simp⟩, by simp⟩
    simpa using hne

theorem ofList_mem_names {template : String} {name : List Char}
    (h : name ∈ groups none template.toList) (hne : name ≠ []) :
    String.ofList name ∈ names template :=
  mem_names.mpr ⟨by simpa using h, fun heq => hne (by simpa using congrArg String.toList heq)⟩

theorem nodup_names (template : String) : (names template).Nodup := nodup_firsts _ _

theorem names_append_of_notMem {pre : String} (h : '{' ∉ pre.toList) (template : String) :
    names (pre ++ template) = names template := by
  rw [names, String.toList_append, groups_append_of_notMem h, names]

theorem names_subset_append {pre template : String}
    (h : ∀ name ∈ groups none (pre ++ template).toList, '{' ∉ name) :
    names template ⊆ names (pre ++ template) := by
  intro name hname
  obtain ⟨hgroup, hne⟩ := mem_names.mp hname
  rw [String.toList_append] at h
  refine mem_names.mpr ⟨?_, hne⟩
  rw [String.toList_append]
  exact groups_subset_append h hgroup

theorem closeBrace_notMem_of_mem_names {template name : String} (h : name ∈ names template) :
    '}' ∉ name.toList :=
  notMem_of_mem_groups (mem_names.mp h).1

theorem openBrace_notMem_groups {template : String}
    (h : ∀ name ∈ names template, '{' ∉ name.toList) :
    ∀ name ∈ groups none template.toList, '{' ∉ name := by
  intro name hname
  by_cases hempty : name = []
  · simp [hempty]
  · simpa using h _ (ofList_mem_names hname hempty)

/-- When some groups go, their names do. -/
theorem names_eq_filter {template other : String} {p : String → Bool}
    (h : groups none other.toList =
      (groups none template.toList).filter fun name => p (String.ofList name)) :
    names other = (names template).filter p := by
  rw [names, names, h, List.filter_comm,
    show (fun name => p (String.ofList name)) = p ∘ String.ofList from rfl, ← List.filter_map,
    firsts_filter fun _ _ => Iff.rfl]

/-- Puts values in the place of the placeholders that have one, in one scan. -/
def substitute (value : List Char → Option (List Char)) : Option (List Char) → List Char → List Char
  | none, [] => []
  | some inside, [] => '{' :: inside.reverse
  | none, c :: rest =>
    if c = '{' then substitute value (some []) rest else c :: substitute value none rest
  | some inside, c :: rest =>
    if c = '}' then
      (value inside.reverse).getD (group inside.reverse) ++ substitute value none rest
    else substitute value (some (c :: inside)) rest

variable {value : List Char → Option (List Char)}

theorem substitute_cons_of_ne {c : Char} (h : c ≠ '{') (cs : List Char) :
    substitute value none (c :: cs) = c :: substitute value none cs := by
  simp [substitute, h]

theorem substitute_some_append {name : List Char} (h : '}' ∉ name) (inside cs : List Char) :
    substitute value (some inside) (name ++ '}' :: cs) =
      (value (inside.reverse ++ name)).getD (group (inside.reverse ++ name)) ++
        substitute value none cs := by
  induction name generalizing inside with
  | nil => simp [substitute]
  | cons c name ih =>
      obtain ⟨hc, hname⟩ := not_or.mp (mt List.mem_cons.mpr h)
      simp [substitute, Ne.symm hc, ih hname]

theorem substitute_some_of_notMem {cs : List Char} (h : '}' ∉ cs) (inside : List Char) :
    substitute value (some inside) cs = '{' :: inside.reverse ++ cs := by
  induction cs generalizing inside with
  | nil => simp [substitute]
  | cons c cs ih =>
      obtain ⟨hc, hcs⟩ := not_or.mp (mt List.mem_cons.mpr h)
      simp [substitute, Ne.symm hc, ih hcs]

theorem substitute_group_append {name : List Char} (h : '}' ∉ name) (cs : List Char) :
    substitute value none (group name ++ cs) =
      (value name).getD (group name) ++ substitute value none cs := by
  simpa [group, substitute] using substitute_some_append h [] cs

theorem substitute_unclosed {cs : List Char} (h : '}' ∉ cs) :
    substitute value none ('{' :: cs) = '{' :: cs := by
  simpa [substitute] using substitute_some_of_notMem h []

theorem substitute_append_of_notMem {pre : List Char} (h : '{' ∉ pre) (cs : List Char) :
    substitute value none (pre ++ cs) = pre ++ substitute value none cs := by
  induction pre with
  | nil => rfl
  | cons c pre ih =>
      obtain ⟨hc, hpre⟩ := not_or.mp (mt List.mem_cons.mpr h)
      rw [List.cons_append, substitute_cons_of_ne (Ne.symm hc), ih hpre, List.cons_append]

theorem substitute_none (cs : List Char) : substitute (fun _ => none) none cs = cs := by
  induction cs using scan_induction with
  | nil => rfl
  | text c cs hc ih => rw [substitute_cons_of_ne hc, ih]
  | closed name cs hname ih => rw [substitute_group_append hname, ih, Option.getD_none]
  | unclosed cs hcs => exact substitute_unclosed hcs

theorem groups_substitute (hvalue : ∀ name x, value name = some x → '{' ∉ x) (cs : List Char) :
    groups none (substitute value none cs) =
      (groups none cs).filter fun name => (value name).isNone := by
  induction cs using scan_induction with
  | nil => rfl
  | text c cs hc ih => rw [substitute_cons_of_ne hc, groups_cons_of_ne hc, groups_cons_of_ne hc, ih]
  | closed name cs hname ih =>
      rw [substitute_group_append hname, groups_group_append hname]
      cases hx : value name with
      | none => simp [groups_group_append hname, ih, hx]
      | some x => simp [groups_append_of_notMem (hvalue name x hx), ih, hx]
  | unclosed cs hcs => simp [substitute_unclosed hcs, groups_unclosed hcs]

/-- Two substitutions, one after the other, are one in which the first comes first. -/
theorem substitute_substitute {value' : List Char → Option (List Char)}
    (hvalue : ∀ name x, value name = some x → '{' ∉ x) (cs : List Char) :
    substitute value' none (substitute value none cs) =
      substitute (fun name => (value name).or (value' name)) none cs := by
  induction cs using scan_induction with
  | nil => rfl
  | text c cs hc ih =>
      rw [substitute_cons_of_ne hc, substitute_cons_of_ne hc, substitute_cons_of_ne hc, ih]
  | closed name cs hname ih =>
      rw [substitute_group_append hname, substitute_group_append hname]
      cases hx : value name with
      | none => simp [substitute_group_append hname, ih]
      | some x => simp [substitute_append_of_notMem (hvalue name x hx), ih]
  | unclosed cs hcs => simp [substitute_unclosed hcs]

/-- The text outside the placeholders. -/
def outside (cs : List Char) : List Char := substitute (fun _ => some []) none cs

/-- Only the text outside the placeholders counts, unless a value holds the character or a
placeholder that holds it has no value. -/
theorem count_substitute {c : Char} (hopen : c ≠ '{') (hclose : c ≠ '}')
    (hvalue : ∀ name x, value name = some x → c ∉ x) {cs : List Char}
    (hnone : ∀ name ∈ groups none cs, value name = none → c ∉ name) :
    (substitute value none cs).count c = (outside cs).count c := by
  induction cs using scan_induction with
  | nil => rfl
  | text d cs hd ih =>
      rw [groups_cons_of_ne hd] at hnone
      rw [outside, substitute_cons_of_ne hd, substitute_cons_of_ne hd, List.count_cons,
        List.count_cons, ih hnone, outside]
  | closed name cs hname ih =>
      rw [groups_group_append hname] at hnone
      have hrest := ih fun other hother => hnone other (List.mem_cons_of_mem _ hother)
      have hcount : ((value name).getD (group name)).count c = 0 := by
        rw [List.count_eq_zero]
        cases hx : value name with
        | none => simp [group, hopen, hclose, hnone name List.mem_cons_self hx]
        | some x => exact hvalue name x hx
      rw [outside, substitute_group_append hname, substitute_group_append hname,
        List.count_append, hcount, hrest, outside]
      simp
  | unclosed cs hcs => rw [outside, substitute_unclosed hcs, substitute_unclosed hcs]

/-! ### Filling one placeholder -/

def only (name x : List Char) (other : List Char) : Option (List Char) :=
  if other = name then some x else none

theorem openBrace_notMem_of_only {name x other y : List Char} (hx : '{' ∉ x)
    (h : only name x other = some y) : '{' ∉ y := by
  rw [only] at h
  split at h
  case isTrue => exact Option.some.inj h ▸ hx
  case isFalse => cases h

theorem replaceFrom_eq_drop (old new : List Char) (skip : Nat) (cs : List Char) :
    replaceFrom old new skip cs = replaceFrom old new 0 (cs.drop skip) := by
  induction skip generalizing cs with
  | zero => rfl
  | succ skip ih =>
      cases cs with
      | nil => rfl
      | cons c cs => simpa [replaceFrom] using ih cs

theorem replaceAll_of_isPrefixOf {old : List Char} {c : Char} {cs : List Char}
    (h : old.isPrefixOf (c :: cs) = true) (new : List Char) :
    replaceAll old new (c :: cs) = new ++ replaceAll old new (cs.drop (old.length - 1)) := by
  rw [replaceAll, replaceFrom, if_pos h, replaceFrom_eq_drop, replaceAll]

theorem replaceAll_cons {old : List Char} {c : Char} {cs : List Char}
    (h : old.isPrefixOf (c :: cs) = false) (new : List Char) :
    replaceAll old new (c :: cs) = c :: replaceAll old new cs := by
  rw [replaceAll, replaceFrom, if_neg (by simp [h]), replaceAll]

theorem replaceAll_append_of_notMem {pre : List Char} (h : '{' ∉ pre) (name new cs : List Char) :
    replaceAll (group name) new (pre ++ cs) = pre ++ replaceAll (group name) new cs := by
  induction pre with
  | nil => rfl
  | cons c pre ih =>
      obtain ⟨hc, hpre⟩ := not_or.mp (mt List.mem_cons.mpr h)
      have hno : (group name).isPrefixOf (c :: (pre ++ cs)) = false := by
        simp [group, List.isPrefixOf, hc]
      rw [List.cons_append, replaceAll_cons hno, ih hpre, List.cons_append]

theorem mem_replaceFrom {old new : List Char} {skip : Nat} {c : Char} {cs : List Char}
    (h : c ∈ replaceFrom old new skip cs) : c ∈ new ∨ c ∈ cs := by
  fun_induction replaceFrom old new skip cs with
  | case1 => cases h
  | case2 skip d rest ih => exact (ih h).imp_right (List.mem_cons_of_mem d)
  | case3 d rest hpre ih =>
      rcases List.mem_append.mp h with h | h
      · exact Or.inl h
      · exact (ih h).imp_right (List.mem_cons_of_mem d)
  | case4 d rest hpre ih =>
      rcases List.mem_cons.mp h with rfl | h
      · exact Or.inr List.mem_cons_self
      · exact (ih h).imp_right (List.mem_cons_of_mem d)

theorem append_isPrefixOf_append {name other : List Char} (hname : '}' ∉ name)
    (hother : '}' ∉ other) (cs : List Char) :
    (name ++ ['}']).isPrefixOf (other ++ '}' :: cs) = decide (other = name) := by
  induction name generalizing other with
  | nil => cases other <;> simp_all [List.isPrefixOf]
  | cons c name ih =>
      obtain ⟨hc, hname⟩ := not_or.mp (mt List.mem_cons.mpr hname)
      cases other with
      | nil => simp [List.isPrefixOf, Ne.symm hc]
      | cons d other =>
          obtain ⟨_, hother⟩ := not_or.mp (mt List.mem_cons.mpr hother)
          rw [List.cons_append, List.cons_append, List.isPrefixOf, ih hname hother]
          by_cases hcd : c = d
          · simp [hcd]
          · simp [hcd, Ne.symm hcd]

theorem group_isPrefixOf {name other : List Char} (hname : '}' ∉ name) (hother : '}' ∉ other)
    (cs : List Char) :
    (group name).isPrefixOf ('{' :: (other ++ '}' :: cs)) = decide (other = name) := by
  simpa only [group, List.cons_append, List.isPrefixOf, BEq.rfl, Bool.true_and] using
    append_isPrefixOf_append hname hother cs

theorem not_group_isPrefixOf {cs : List Char} (h : '}' ∉ cs) (name : List Char) :
    (group name).isPrefixOf cs = false := by
  by_contra hpre
  have hmem : '}' ∈ group name := by simp [group]
  exact h ((List.isPrefixOf_iff_prefix.mp (by simpa using hpre)).subset hmem)

theorem replaceAll_of_notMem {cs : List Char} (h : '}' ∉ cs) (name new : List Char) :
    replaceAll (group name) new cs = cs := by
  induction cs with
  | nil => rfl
  | cons c cs ih =>
      rw [replaceAll_cons (not_group_isPrefixOf h name),
        ih fun hmem => h (List.mem_cons_of_mem c hmem)]

/-- A placeholder of this name begins inside another one, with which it ends. -/
def HidesIn (name other : List Char) : Prop := '{' :: name <:+ other

instance (name other : List Char) : Decidable (HidesIn name other) :=
  inferInstanceAs (Decidable ('{' :: name <:+ other))

theorem not_hidesIn_of_notMem {other : List Char} (h : '{' ∉ other) (name : List Char) :
    ¬HidesIn name other := fun hsuffix => h (hsuffix.subset List.mem_cons_self)

/-- The braced name begins nowhere in the rest of a placeholder, unless it hides there. -/
theorem group_isPrefixOf_suffix {name other tail : List Char} (hname : '}' ∉ name)
    (hother : '}' ∉ other) (hapart : ¬HidesIn name other) (htail : tail <:+ other)
    (cs : List Char) : (group name).isPrefixOf (tail ++ '}' :: cs) = false := by
  cases tail with
  | nil => simp [group, List.isPrefixOf]
  | cons c tail =>
      by_cases hc : c = '{'
      · subst hc
        have hclean : '}' ∉ tail := fun hmem => hother (htail.subset (List.mem_cons_of_mem _ hmem))
        have hne : tail ≠ name := fun heq => hapart (heq ▸ htail)
        rw [List.cons_append, group_isPrefixOf hname hclean, decide_eq_false hne]
      · simp [group, List.isPrefixOf, Ne.symm hc]

theorem replaceAll_suffix {name other tail : List Char} (hname : '}' ∉ name)
    (hother : '}' ∉ other) (hapart : ¬HidesIn name other) (htail : tail <:+ other)
    (new cs : List Char) :
    replaceAll (group name) new (tail ++ '}' :: cs) =
      tail ++ '}' :: replaceAll (group name) new cs := by
  induction tail with
  | nil => exact replaceAll_cons (group_isPrefixOf_suffix hname hother hapart htail cs) new
  | cons c tail ih =>
      have hno := group_isPrefixOf_suffix hname hother hapart htail cs
      rw [List.cons_append] at hno ⊢
      rw [replaceAll_cons hno, ih ((List.suffix_cons c tail).trans htail), List.cons_append]

/-- Replacing the text of a placeholder finds it exactly where the scan does, unless it hides in
another one. -/
theorem replaceAll_group {name cs : List Char} (hname : '}' ∉ name)
    (hcs : ∀ other ∈ groups none cs, ¬HidesIn name other) (new : List Char) :
    replaceAll (group name) new cs = substitute (only name new) none cs := by
  induction cs using scan_induction with
  | nil => rfl
  | text c cs hc ih =>
      rw [substitute_cons_of_ne hc, ← ih (groups_cons_of_ne hc cs ▸ hcs)]
      have hpre : '{' ∉ [c] := by simpa using Ne.symm hc
      exact replaceAll_append_of_notMem hpre name new cs
  | closed other cs hother ih =>
      rw [groups_group_append hother] at hcs
      have hrest := ih fun g hg => hcs g (List.mem_cons_of_mem _ hg)
      have hpre := group_isPrefixOf hname hother cs
      rw [substitute_group_append hother, ← hrest, group_append]
      by_cases heq : other = name
      · subst heq
        have hdrop : (other ++ '}' :: cs).drop ((group other).length - 1) = cs := by
          simp [group, List.drop_append]
        rw [replaceAll_of_isPrefixOf (by simpa using hpre), hdrop, only, if_pos rfl,
          Option.getD_some]
      · rw [replaceAll_cons (by simpa [heq] using hpre),
          replaceAll_suffix hname hother (hcs other List.mem_cons_self) List.suffix_rfl, only,
          if_neg heq, Option.getD_none, group_append]
  | unclosed cs hopen =>
      rw [substitute_unclosed hopen]
      exact replaceAll_of_notMem (by simpa using hopen) name new

end ApiCommands.Text.Template
