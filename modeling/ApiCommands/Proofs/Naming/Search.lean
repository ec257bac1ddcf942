import ApiCommands.Proofs.Surface.Arguments
import ApiCommands.Proofs.Tree.Siblings

namespace ApiCommands.Naming

/-!
# The search for a free name

A search looks at one candidate after the other until one is free, and a counter tells the number
of the next one. Nothing in the search itself bounds it: it ends because the candidates differ, and
so at most as many of them are passed as there are taken names.
-/

/-- The candidate that is looked at, and the number of the one after it. -/
structure Search where
  candidate : String
  counter : Nat

namespace Search

def start (stem : String) : Search := ⟨stem, 2⟩

def next (stem : String) (s : Search) : Search := ⟨numberedName stem s.counter, s.counter + 1⟩

/-- The state in which a search has passed some candidates. -/
def nth (stem : String) (k : Nat) : Search := ⟨Naming.candidate stem k, k + 2⟩

theorem start_eq_nth (stem : String) : start stem = nth stem 0 := rfl

theorem next_nth (stem : String) (k : Nat) : (nth stem k).next stem = nth stem (k + 1) := rfl

end Search

/-- From one state to another a search looks at `n` candidates, of which the last one only is free.
It is stuck where the counter has come to the largest number that it can hold. -/
inductive Runs (taken : List String) (stem : String) (largest : Nat) :
    Search → Nat → Search → Prop
  | found {s : Search} (hfree : s.candidate ∉ taken) : Runs taken stem largest s 1 s
  | passed {s t : Search} {n : Nat} (htaken : s.candidate ∈ taken) (hfits : s.counter < largest)
      (hrest : Runs taken stem largest (s.next stem) n t) : Runs taken stem largest s (n + 1) t

theorem Runs.unique {taken : List String} {stem : String} {largest largest' n m : Nat}
    {s t u : Search} (h : Runs taken stem largest s n t) (h' : Runs taken stem largest' s m u) :
    m = n ∧ u = t := by
  induction h generalizing m with
  | found hfree =>
      cases h' with
      | found => exact ⟨rfl, rfl⟩
      | passed htaken => exact (hfree htaken).elim
  | passed htaken _ _ ih =>
      cases h' with
      | found hfree => exact (hfree htaken).elim
      | passed _ _ hrest =>
          obtain ⟨rfl, rfl⟩ := ih hrest
          exact ⟨rfl, rfl⟩

/-- The induction is on the candidates that are still to be passed. -/
theorem runs_nth {taken : List String} {stem : String} {largest : Nat} (k : Nat) {j : Nat}
    (hfree : candidate stem (j + k) ∉ taken)
    (hbefore : ∀ i, j ≤ i → i < j + k → candidate stem i ∈ taken) (hlargest : j + k + 2 ≤ largest) :
    Runs taken stem largest (Search.nth stem j) (k + 1) (Search.nth stem (j + k)) := by
  induction k generalizing j with
  | zero => exact .found hfree
  | succ k ih =>
      have hshift : j + (k + 1) = j + 1 + k := by omega
      have hfits : j + 2 < largest := by omega
      refine .passed (hbefore j (Nat.le_refl j) (by omega)) hfits ?_
      rw [Search.next_nth, hshift]
      exact ih (hshift ▸ hfree) (fun i hi hlt => hbefore i (by omega) (by omega)) (by omega)

/-- How a search ends. Whatever its counter can hold, it looks at `n` candidates and finds one
name if it ends at all, and it does end if the counter can hold the number after `n`. The name is
the first candidate that is free, whose number is that of the candidates looked at. -/
structure Ends (taken : List String) (stem : String) (n : Nat) (name : String) : Prop where
  runs : ∀ largest, n + 1 ≤ largest → ∃ t, Runs taken stem largest (.start stem) n t
  only : ∀ {largest m : Nat} {t : Search}, Runs taken stem largest (.start stem) m t →
    m = n ∧ t = ⟨name, n + 1⟩
  free : name ∉ taken
  own : stem ∉ taken → n = 1 ∧ name = stem
  least : stem ∈ taken → 2 ≤ n ∧ name = numberedName stem n ∧
    ∀ k, 2 ≤ k → k < n → numberedName stem k ∈ taken

theorem IsFirstFree.ends {taken : List String} {stem : String} {k : Nat}
    (h : IsFirstFree taken stem k) : Ends taken stem (k + 1) (firstFree taken stem) := by
  have hruns : ∀ largest, k + 1 + 1 ≤ largest →
      Runs taken stem largest (.start stem) (k + 1) (.nth stem k) := by
    intro largest hlargest
    have hrun : Runs taken stem largest (.nth stem 0) (k + 1) (.nth stem (0 + k)) :=
      runs_nth k (by simpa using h.1) (fun i _ hi => h.2 i (by omega)) (by omega)
    rwa [Nat.zero_add, ← Search.start_eq_nth] at hrun
  rw [h.firstFree_eq]
  refine ⟨fun largest hlargest => ⟨_, hruns largest hlargest⟩, fun hrun => ?_, h.1, ?_, ?_⟩
  · exact (hruns (k + 2) (Nat.le_refl _)).unique hrun
  · intro hstem
    cases k with
    | zero => exact ⟨rfl, rfl⟩
    | succ k => exact (hstem (h.2 0 (Nat.succ_pos k))).elim
  · intro hstem
    cases k with
    | zero => exact (h.1 hstem).elim
    | succ k =>
        refine ⟨by omega, rfl, fun i hi hlt => ?_⟩
        obtain ⟨j, rfl⟩ := Nat.exists_eq_add_of_le' hi
        exact h.2 (j + 1) (by omega)

/-- The own name of a command, which is taken, is no candidate for another, so one candidate less
is passed than there are siblings. -/
theorem IsFirstFree.lt_length {taken : List String} {base method : String} (hbase : base ∈ taken)
    {k : Nat} (h : IsFirstFree taken (base ++ "-" ++ method) k) : k + 1 ≤ taken.length := by
  have hne (i : Nat) : candidate (base ++ "-" ++ method) i ≠ base := by
    obtain ⟨suffix, hsuffix⟩ := exists_candidate_eq_append (base ++ "-" ++ method) i
    intro heq
    have hlists := congrArg String.toList (hsuffix.symm.trans heq)
    simp at hlists
  have hle : k ≤ (taken.toFinset.erase base).card := by
    refine le_card_of_candidates fun i hi => Finset.mem_erase.mpr ⟨hne i, ?_⟩
    exact List.mem_toFinset.mpr (h.2 i hi)
  have hmem : base ∈ taken.toFinset := List.mem_toFinset.mpr hbase
  have hcard := Finset.card_erase_add_one hmem
  have hlength := List.toFinset_card_le taken
  omega

/-- How a command is named among siblings: by its own name where that is free, else by the
search from its name and method on, so that no more candidates than siblings and one are looked
at, the own name among them. -/
structure NamesSibling (siblings : List Node) (c : Command) (name : String) : Prop where
  free : name ∉ siblings.map Node.name
  own : c.name ∉ siblings.map Node.name → name = c.name
  searched : c.name ∈ siblings.map Node.name → ∃ n, 1 + n ≤ siblings.length + 1 ∧
    Ends (siblings.map Node.name) (c.name ++ "-" ++ Text.asciiLower c.method) n name

/-- How a flag with the name of a global one is named: by the search from its name and a mark on.
The name that is found is the only one that is taken after it. -/
structure NamesFlag (taken : List String) (name : String) : Prop where
  searched : ∃ n, n ≤ taken.toFinset.card + 1 ∧
    Ends taken (name ++ "-param") n (Surface.longName taken name).1
  added : ∀ other, other ∈ (Surface.longName taken name).2 ↔
    other = (Surface.longName taken name).1 ∨ other ∈ taken
  notReserved : (Surface.longName taken name).1 ∉ Surface.reservedNames

/-- The searches for the name of a node and of a flag end, each with the first free candidate. -/
theorem searches_end :
    (∀ (siblings : List Node) (c : Command),
      NamesSibling siblings c (Tree.uniqueName (siblings.map Node.name) c)) ∧
    ∀ (taken : List String) (name : String), name ∈ Surface.reservedNames →
      NamesFlag taken name := by
  refine ⟨fun siblings c => ⟨Tree.uniqueName_notMem _ c, Tree.uniqueName_of_notMem, ?_⟩, ?_⟩
  · intro htaken
    obtain ⟨k, hk⟩ := exists_isFirstFree (siblings.map Node.name)
      (c.name ++ "-" ++ Text.asciiLower c.method)
    have hlength := hk.lt_length htaken
    rw [List.length_map] at hlength
    refine ⟨k + 1, by omega, ?_⟩
    rw [Tree.uniqueName, if_pos (by simpa using htaken)]
    exact hk.ends
  · intro taken name hname
    obtain ⟨k, hk⟩ := exists_isFirstFree taken (name ++ "-param")
    have hle := le_card_of_candidates fun i hi => List.mem_toFinset.mpr (hk.2 i hi)
    refine ⟨⟨k + 1, by omega, ?_⟩, fun other => ?_,
      Surface.longName_notMem_reservedNames taken name⟩
    · rw [Surface.longName_of_mem hname]
      exact hk.ends
    · rw [Surface.longName_of_mem hname]
      exact List.mem_cons

/-- Siblings that have the name of a command, and its first two other names. -/
def likeNamedSiblings : List Node := ["x", "x-get", "x-get-2"].map Node.grouping

def likeNamedCommand : Command :=
  { name := "x", parent := "", short := "", long := "", method := "GET", path := "/x"
    params := [] }

theorem searches_end_like_named :
    NamesSibling likeNamedSiblings likeNamedCommand "x-get-3" ∧ "timeout" ∈ Surface.reservedNames ∧
    NamesFlag ["timeout-param", "timeout-param-2"] "timeout" := by
  have hname : Tree.uniqueName (likeNamedSiblings.map Node.name) likeNamedCommand = "x-get-3" := by
    decide +kernel
  have hreserved : "timeout" ∈ Surface.reservedNames := by decide
  exact ⟨hname ▸ searches_end.1 likeNamedSiblings likeNamedCommand, hreserved,
    searches_end.2 ["timeout-param", "timeout-param-2"] "timeout" hreserved⟩

end ApiCommands.Naming
