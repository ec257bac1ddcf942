import ApiCommands.Proofs.Text.Template

namespace ApiCommands.Text.Template

/-!
# The scan for placeholders

The scan goes in rounds, each of which reads one group further and leaves less text. It comes to an
end with a text in which no group is left. If that text holds no opening brace, whatever is added to
the template is read like a template of its own.
-/

/-- A scan on its way: the text that is still to be read, and the names that have been kept. -/
@[ext] structure Scan where
  rest : List Char
  kept : List String

def Scan.start (template : String) : Scan := ⟨template.toList, []⟩

/-- A name is kept unless it is empty or has been kept before. -/
def keep (kept : List String) (name : String) : List String :=
  if name = "" ∨ name ∈ kept then kept else kept ++ [name]

/-- One round reads up to the first opening brace, then the name up to the next closing brace, and
leaves what stands after that. -/
structure Round (s : Scan) (name : String) (t : Scan) : Prop where
  read : ∃ before, '{' ∉ before ∧ s.rest = before ++ (group name.toList ++ t.rest)
  closed : '}' ∉ name.toList
  kept : t.kept = keep s.kept name

/-- No brace is left that opens, or none that closes the first of those. -/
def Ended (rest : List Char) : Prop :=
  '{' ∉ rest ∨ ∃ before after, '{' ∉ before ∧ '}' ∉ after ∧ rest = before ++ '{' :: after

/-- Round after round, until the scan ends; the names are those that are read. -/
inductive Runs : Scan → List String → Scan → Prop
  | ended {s : Scan} (h : Ended s.rest) : Runs s [] s
  | round {s t u : Scan} {name : String} {found : List String} (h : Round s name t)
      (hrest : Runs t found u) : Runs s (name :: found) u

variable {s t u : Scan} {name : String} {found : List String}

theorem append_cons_inj_of_notMem {α : Type} [DecidableEq α] {c : α} {xs xs' ys ys' : List α}
    (h : c ∉ xs) (h' : c ∉ xs') (heq : xs ++ c :: ys = xs' ++ c :: ys') : xs = xs' ∧ ys = ys' := by
  have hindex := congrArg (List.idxOf c) heq
  rw [List.idxOf_append_of_notMem h, List.idxOf_append_of_notMem h', List.idxOf_cons_self,
    List.idxOf_cons_self] at hindex
  obtain ⟨rfl, hcons⟩ := List.append_inj heq (Nat.add_right_cancel hindex)
  exact ⟨rfl, (List.cons.inj hcons).2⟩

theorem Ended.groups_eq {rest : List Char} (h : Ended rest) : groups none rest = [] := by
  rcases h with hopen | ⟨before, after, hopen, hclose, rfl⟩
  · simpa using groups_append_of_notMem hopen []
  · rw [groups_append_of_notMem hopen, groups_unclosed hclose]

/-- Once the brace that is left open is closed, one group more is read. -/
theorem Ended.exists_closed {rest : List Char} (h : Ended rest) (hopen : '{' ∈ rest) :
    ∃ after, ∀ cs, '}' ∉ cs → groups none (rest ++ (cs ++ ['}'])) = [after ++ cs] := by
  obtain hnone | ⟨before, after, hbefore, hafter, rfl⟩ := h
  · exact (hnone hopen).elim
  · refine ⟨after, fun cs hcs => ?_⟩
    have hname : '}' ∉ after ++ cs := by simp [hafter, hcs]
    rw [List.append_assoc, groups_append_of_notMem hbefore]
    simpa [group] using groups_group_append hname []

theorem Round.groups_append (h : Round s name t) (cs : List Char) :
    groups none (s.rest ++ cs) = name.toList :: groups none (t.rest ++ cs) := by
  obtain ⟨before, hopen, hread⟩ := h.read
  rw [hread, List.append_assoc, List.append_assoc, groups_append_of_notMem hopen,
    groups_group_append h.closed]

theorem Round.not_ended (h : Round s name t) : ¬Ended s.rest := by
  intro hended
  have hgroups := h.groups_append []
  rw [List.append_nil, hended.groups_eq] at hgroups
  cases hgroups

theorem Round.length_le (h : Round s name t) : t.rest.length + 2 ≤ s.rest.length := by
  obtain ⟨before, -, hread⟩ := h.read
  rw [hread]
  simp only [group, List.length_append, List.length_cons]
  omega

theorem Round.braced (h : Round s name t) : group name.toList <:+: s.rest := by
  obtain ⟨before, -, hread⟩ := h.read
  exact ⟨before, t.rest, by rw [hread, List.append_assoc]⟩

theorem Round.suffix (h : Round s name t) : t.rest <:+ s.rest := by
  obtain ⟨before, -, hread⟩ := h.read
  exact ⟨before ++ group name.toList, by rw [hread, List.append_assoc]⟩

theorem Round.unique {other : String} (h : Round s name t) (h' : Round s other u) :
    other = name ∧ u = t := by
  obtain ⟨before, hopen, hread⟩ := h.read
  obtain ⟨before', hopen', hread'⟩ := h'.read
  rw [hread', group_append, group_append] at hread
  obtain ⟨rfl, hinside⟩ := append_cons_inj_of_notMem hopen' hopen hread
  obtain ⟨hname, hrest⟩ := append_cons_inj_of_notMem h'.closed h.closed hinside
  obtain rfl := String.toList_inj.mp hname
  exact ⟨rfl, Scan.ext hrest (h'.kept.trans h.kept.symm)⟩

theorem ended_or_round (s : Scan) : Ended s.rest ∨ ∃ name t, Round s name t := by
  by_cases hopen : '{' ∈ s.rest
  · obtain ⟨before, inside, hrest, hbefore⟩ := List.eq_append_cons_of_mem hopen
    by_cases hclose : '}' ∈ inside
    · obtain ⟨name, after, rfl, hname⟩ := List.eq_append_cons_of_mem hclose
      refine .inr ⟨String.ofList name, ⟨after, keep s.kept (String.ofList name)⟩, ?_, ?_, rfl⟩
      · exact ⟨before, hbefore, by rw [hrest, String.toList_ofList, group_append]⟩
      · rwa [String.toList_ofList]
    · exact .inl (.inr ⟨before, inside, hbefore, hclose, hrest⟩)
  · exact .inl (.inl hopen)

/-- Every round shortens the text, so every scan comes to its end. -/
theorem exists_runs (s : Scan) : ∃ found t, Runs s found t := by
  induction hlen : s.rest.length using Nat.strongRecOn generalizing s with
  | ind n ih =>
      rcases ended_or_round s with hended | ⟨name, t, hround⟩
      · exact ⟨[], s, .ended hended⟩
      · have hlt : t.rest.length < n := by
          have := hround.length_le
          omega
        obtain ⟨found, u, hruns⟩ := ih t.rest.length hlt t rfl
        exact ⟨name :: found, u, .round hround hruns⟩

theorem Runs.unique {found' : List String} {t' : Scan} (h : Runs s found t)
    (h' : Runs s found' t') : found' = found ∧ t' = t := by
  induction h generalizing found' with
  | ended hended =>
      cases h' with
      | ended => exact ⟨rfl, rfl⟩
      | round hround => exact (hround.not_ended hended).elim
  | round hround _ ih =>
      cases h' with
      | ended hended => exact (hround.not_ended hended).elim
      | round hround' hrest' =>
          obtain ⟨rfl, rfl⟩ := hround.unique hround'
          obtain ⟨rfl, rfl⟩ := ih hrest'
          exact ⟨rfl, rfl⟩

theorem Runs.ended_rest (h : Runs s found t) : Ended t.rest := by
  induction h with
  | ended hended => exact hended
  | round _ _ ih => exact ih

theorem Runs.length_le (h : Runs s found t) :
    2 * found.length + t.rest.length ≤ s.rest.length := by
  induction h with
  | ended => simp
  | round hround _ ih =>
      have hle := hround.length_le
      rw [List.length_cons]
      omega

theorem Runs.groups_append (h : Runs s found t) (cs : List Char) :
    groups none (s.rest ++ cs) = found.map String.toList ++ groups none (t.rest ++ cs) := by
  induction h with
  | ended => rfl
  | round hround _ ih => rw [hround.groups_append, ih, List.map_cons, List.cons_append]

theorem Runs.groups_eq (h : Runs s found t) : groups none s.rest = found.map String.toList := by
  have hgroups := h.groups_append []
  rwa [List.append_nil, List.append_nil, h.ended_rest.groups_eq, List.append_nil] at hgroups

theorem Runs.braced (h : Runs s found t) {name : String} (hname : name ∈ found) :
    group name.toList <:+: s.rest := by
  induction h with
  | ended => cases hname
  | round hround _ ih =>
      rcases List.mem_cons.mp hname with rfl | hname
      · exact hround.braced
      · exact (ih hname).trans hround.suffix.isInfix

theorem keep_eq (kept : List String) (name : String) :
    keep kept name = kept ++ firsts kept ([name].filter (· ≠ "")) := by
  by_cases hempty : name = ""
  · simp [keep, hempty]
  · by_cases hname : name ∈ kept <;> simp [keep, firsts, hempty, hname]

theorem Runs.kept_eq (h : Runs s found t) :
    t.kept = s.kept ++ firsts s.kept (found.filter (· ≠ "")) := by
  induction h with
  | ended => simp
  | @round s t u name found hround _ ih =>
      have hseen : ∀ x, x ∈ keep s.kept name ↔ x ∈ s.kept ++ [name].filter (· ≠ "") := by
        intro x
        rw [keep_eq, List.mem_append, List.mem_append, mem_firsts]
        tauto
      rw [ih, hround.kept, firsts_congr hseen, keep_eq, List.append_assoc, ← firsts_append,
        ← List.filter_append, List.singleton_append]

theorem names_of_groups_eq {template : String}
    (h : groups none template.toList = found.map String.toList) :
    names template = firsts [] (found.filter (· ≠ "")) := by
  have hempty : ((fun cs : List Char => !cs.isEmpty) ∘ String.toList) = (· ≠ "") := by
    funext name
    by_cases hname : name = "" <;> simp [hname]
  rw [names, h, List.filter_map, hempty, List.map_map]
  simp [Function.comp_def]

theorem Runs.names_eq_firsts {template : String} (h : Runs (.start template) found t) :
    names template = firsts [] (found.filter (· ≠ "")) :=
  names_of_groups_eq h.groups_eq

theorem Runs.kept_eq_names {template : String} (h : Runs (.start template) found t) :
    t.kept = names template := by
  rw [h.kept_eq, h.names_eq_firsts]
  rfl

theorem Runs.mem_names {template : String} (h : Runs (.start template) found t) :
    name ∈ names template ↔ name ∈ found ∧ name ≠ "" := by
  simp [h.names_eq_firsts, mem_firsts]

theorem names_of_notMem {template : String} (h : '{' ∉ template.toList) : names template = [] := by
  have hgroups := groups_append_of_notMem h []
  rw [List.append_nil, groups_nil] at hgroups
  rw [names, hgroups]
  rfl

theorem Runs.names_append {template : String} (h : Runs (.start template) found t)
    (hclosed : '{' ∉ t.rest) (other : String) :
    names (template ++ other) = names template ++ (names other).filter (· ∉ names template) := by
  obtain ⟨found', u, hother⟩ := exists_runs (.start other)
  have hgroups : groups none (template ++ other).toList = (found ++ found').map String.toList := by
    have happend := h.groups_append other.toList
    rw [groups_append_of_notMem hclosed] at happend
    rw [String.toList_append, List.map_append, ← hother.groups_eq]
    exact happend
  have hseen : ∀ name ∈ names other, decide (name ∉ found.filter (· ≠ "")) =
      decide (name ∉ names template) := by
    intro name _
    simp [h.mem_names]
  rw [names_of_groups_eq hgroups, List.filter_append, firsts_append, List.nil_append,
    firsts_eq_filter (found.filter _), ← hother.names_eq_firsts, ← h.names_eq_firsts,
    List.filter_congr hseen]

/-- A name stands in the template with a brace before and after it. -/
theorem Runs.length_name_le {template : String} (h : Runs (.start template) found t)
    (hname : name ∈ names template) : name.length + 2 ≤ template.length := by
  have hle := (h.braced (h.mem_names.mp hname).1).length_le
  simp only [Scan.start, group, List.length_append, List.length_cons, List.length_nil,
    String.length_toList] at hle
  omega

/-- Letters that outnumber those of a template. -/
def filler (template : String) : List Char := List.replicate (template.length + 1) 'a'

/-- A text that closes a brace, with more in it than a template holds. -/
def closing (template : String) : String := String.ofList (filler template ++ ['}'])

theorem names_closing (template : String) : names (closing template) = [] :=
  names_of_notMem (by simp [closing, filler])

theorem length_lt_length_filled (template : String) (after : List Char) :
    template.length < (String.ofList (after ++ filler template)).length := by
  rw [String.length_ofList, List.length_append, filler, List.length_replicate]
  omega

/-- What follows can close the brace that a scan leaves open, with a name that is longer than the
template. -/
theorem Runs.names_append_closing_ne {template : String} (h : Runs (.start template) found t)
    (hopen : '{' ∈ t.rest) :
    names (template ++ closing template) ≠
      names template ++ (names (closing template)).filter (· ∉ names template) := by
  obtain ⟨after, hafter⟩ := h.ended_rest.exists_closed hopen
  have hgroups : groups none (template ++ closing template).toList =
      (found ++ [String.ofList (after ++ filler template)]).map String.toList := by
    have happend := h.groups_append (filler template ++ ['}'])
    rw [hafter (filler template) (by simp [filler])] at happend
    simpa [Scan.start, closing] using happend
  have hlong := length_lt_length_filled template after
  have hmem : String.ofList (after ++ filler template) ∈ names (template ++ closing template) := by
    refine Template.mem_names.mpr ⟨?_, fun hempty => ?_⟩
    · rw [hgroups]
      exact List.mem_map_of_mem (List.mem_append_right found List.mem_cons_self)
    · simp [hempty] at hlong
  intro hnames
  rw [hnames, names_closing, List.filter_nil, List.append_nil] at hmem
  have hle := h.length_name_le hmem
  omega

/-- What a scan makes of a template: the texts that it finds between braces, in order, and the text
that it leaves. The names are those texts, less the empty ones and all repetitions. -/
structure Reads (template : String) (found : List String) (left : List Char) : Prop where
  runs : Runs (.start template) found ⟨left, names template⟩
  only : ∀ {found' : List String} {t : Scan}, Runs (.start template) found' t →
    found' = found ∧ t = ⟨left, names template⟩
  rounds : 2 * found.length + left.length ≤ template.length
  names_eq : names template = (found.filter (· ≠ "")).eraseDups
  nodup : (names template).Nodup
  ordered : (names template).Pairwise fun name other => found.idxOf name < found.idxOf other
  braced : ∀ name ∈ names template,
    name ≠ "" ∧ '}' ∉ name.toList ∧ group name.toList <:+: template.toList

theorem Runs.reads {template : String} (h : Runs (.start template) found t) :
    Reads template found t.rest := by
  have hend : (⟨t.rest, names template⟩ : Scan) = t := by rw [← h.kept_eq_names]
  refine ⟨hend ▸ h, fun h' => hend ▸ h.unique h', ?_, ?_, nodup_names template, ?_, ?_⟩
  · have hle := h.length_le
    rwa [Scan.start, String.length_toList] at hle
  · rw [h.names_eq_firsts, firsts_eq_eraseDups]
  · rw [h.names_eq_firsts, firsts_filter fun _ _ => Iff.rfl]
    exact (pairwise_idxOf_firsts [] found).sublist List.filter_sublist
  · intro name hname
    obtain ⟨hfound, hne⟩ := h.mem_names.mp hname
    exact ⟨hne, closeBrace_notMem_of_mem_names hname, h.braced hfound⟩

/-- Every template is read to its end, group by group from the left. Text without an opening brace
before it changes nothing. What comes after it adds the names of its own that are new exactly if the
scan leaves no brace open. -/
theorem names_leftmost (template : String) : ∃ found left, Reads template found left ∧
    (∀ text : String, '{' ∉ text.toList → names (text ++ template) = names template) ∧
    ('{' ∉ left ↔ ∀ other, names (template ++ other) =
      names template ++ (names other).filter (· ∉ names template)) := by
  obtain ⟨found, t, h⟩ := exists_runs (.start template)
  refine ⟨found, t.rest, h.reads, fun text htext => names_append_of_notMem htext template, ?_⟩
  constructor
  · exact h.names_append
  · exact fun hall hopen => h.names_append_closing_ne hopen (hall _)

/-- A template with an empty name, a name that holds a brace and a name that comes twice. -/
def crowdedTemplate : String := "/{a}{}{b{c}}/{a}/"

theorem names_leftmost_crowded :
    Reads crowdedTemplate ["a", "", "b\x7bc", "a"] ['/'] ∧ '{' ∉ "x\x7d".toList ∧
      names ("x\x7d" ++ crowdedTemplate) = ["a", "b\x7bc"] ∧
      names (crowdedTemplate ++ "{d}{a}") = ["a", "b\x7bc", "d"] := by
  have hrepeated : Runs ⟨"\x7d/{a}/".toList, ["a", "b\x7bc"]⟩ ["a"] ⟨['/'], ["a", "b\x7bc"]⟩ :=
    .round ⟨⟨['}', '/'], by decide, by decide +kernel⟩, by decide, by decide⟩
      (.ended (.inl (by decide)))
  have hbraced : Runs ⟨"{b{c}}/{a}/".toList, ["a"]⟩ ["b\x7bc", "a"] _ :=
    .round ⟨⟨[], by decide, by decide +kernel⟩, by decide, by decide⟩ hrepeated
  have hempty : Runs ⟨"{}{b{c}}/{a}/".toList, ["a"]⟩ ["", "b\x7bc", "a"] _ :=
    .round ⟨⟨[], by decide, by decide +kernel⟩, by decide, by decide⟩ hbraced
  have hruns : Runs (.start crowdedTemplate) ["a", "", "b\x7bc", "a"] _ :=
    .round ⟨⟨['/'], by decide, by decide +kernel⟩, by decide, by decide⟩ hempty
  obtain ⟨found, left, hreads, hbefore, hafter⟩ := names_leftmost crowdedTemplate
  obtain ⟨rfl, hend⟩ := hreads.only hruns
  obtain rfl : ['/'] = left := congrArg Scan.rest hend
  have hnames : names crowdedTemplate = ["a", "b\x7bc"] := (congrArg Scan.kept hend).symm
  have hother : names "{d}{a}" = ["d", "a"] := by decide +kernel
  have htext : '{' ∉ "x\x7d".toList := by decide
  refine ⟨hreads, htext, (hbefore _ htext).trans hnames, ?_⟩
  rw [hafter.mp (by decide) "{d}{a}", hnames, hother]
  decide

/-- A brace that a template leaves open takes in what comes after it. -/
example : names "/\x7ba/" = [] ∧ names "\x7bx\x7d" = ["x"] ∧
    names ("/\x7ba/" ++ "\x7bx\x7d") = ["a/\x7bx"] := by decide +kernel

end ApiCommands.Text.Template
