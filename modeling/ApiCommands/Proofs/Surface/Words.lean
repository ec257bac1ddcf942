import ApiCommands.Proofs.Surface.Steps
import Mathlib.Data.List.Forall2

namespace ApiCommands.Surface

/-!
# What words say

The words of a level say texts for arguments, each in one word or two. Whatever has been read of a
level, its values are those texts, read in order, and at most the last one is not read yet. So
no word is passed over.
-/

/-- Texts for arguments that words say, whether two dashes have ended the flags, and how many
positional arguments there are. -/
inductive Says (s : Scope) : Bool → Nat → List String → List (Arg × String) → Prop where
  | nil : Says s false 0 [] []
  | dashes {k : Nat} {ws : List String} {said : List (Arg × String)} (h : Says s false k ws said) :
      Says s true k (ws ++ ["--"]) said
  | flag {k : Nat} {ws : List String} {said : List (Arg × String)} {a : Arg} {name : String}
      {text : Option String} (h : Says s false k ws said) (hname : '=' ∉ name.toList)
      (ha : s.long? name = some a) (htakes : a.kind.takesValue = text.isSome) :
      Says s false k (ws ++ [dashed name text]) (said ++ [(a, text.getD "")])
  | apart {k : Nat} {ws : List String} {said : List (Arg × String)} {a : Arg} {name : String}
      (h : Says s false k ws said) (hname : '=' ∉ name.toList) (ha : s.long? name = some a)
      (htakes : a.kind.takesValue = true) (text : String) :
      Says s false k (ws ++ [dashed name none, text]) (said ++ [(s.leader a, text)])
  | positional {ended : Bool} {k : Nat} {ws : List String} {said : List (Arg × String)} {a : Arg}
      {word : String} (h : Says s ended k ws said) (hplain : ended = true ∨ IsPlain word)
      (ha : s.spec.positionals[k]? = some a) :
      Says s ended (k + 1) (ws ++ [word]) (said ++ [(s.leader a, word)])

/-- A text that is read as the value of its argument. -/
def IsRead (entry : Arg × String) (value : String × ArgValue) : Prop :=
  value.1 = entry.1.id ∧ entry.1.kind.read entry.2 = .ok value.2

abbrev Reads (said : List (Arg × String)) (vs : Values) : Prop := List.Forall₂ IsRead said vs

/-- Progress at a level that comes from words. An argument whose value is still to come was named
by the last word, and once two dashes have come it gets none. -/
inductive Spoken (s : Scope) (ws : List String) (p : Progress) : Prop where
  | settled {said : List (Arg × String)} (hsaid : Says s p.trailing p.position ws said)
      (hread : Reads said p.values) (hpending : p.pending = none)
  | unread {said : List (Arg × String)} {a : Arg} {text : String}
      (hsaid : Says s p.trailing p.position ws (said ++ [(a, text)]))
      (hread : Reads said p.values) (hpending : p.pending = some (a, some text))
  | waiting {said : List (Arg × String)} (before : List String) {a : Arg} {name : String}
      (hpending : p.pending = some (s.leader a, none)) (hname : '=' ∉ name.toList)
      (ha : s.long? name = some a) (htakes : a.kind.takesValue = true)
      (hread : Reads said p.values)
      (hsaid : p.trailing = false →
        ws = before ++ [dashed name none] ∧ Says s false p.position before said)

theorem Spoken.start (s : Scope) : Spoken s [] {} := .settled .nil .nil rfl

variable {s : Scope} {ws : List String} {p p₁ p₂ : Progress}

theorem store_eq_ok_iff {a : Arg} {text : String} :
    p.store a text = .ok p₁ ↔ a.id ∉ p.values.map Prod.fst ∧
      ∃ v, a.kind.read text = .ok v ∧ p₁ = { p with values := p.values ++ [(a.id, v)] } := by
  rw [Progress.store]
  by_cases h : a.id ∈ p.values.map Prod.fst
  · have hany : p.values.any (·.1 == a.id) = true := by simpa using h
    simp [hany, h]
  · have hany : p.values.any (·.1 == a.id) = false := by
      rw [List.any_eq_false]
      intro x hx heq
      exact h (eq_of_beq heq ▸ List.mem_map_of_mem hx)
    rw [if_neg (by simp [hany]), Except.map_eq_ok_iff]
    constructor
    · rintro ⟨v, hv, rfl⟩
      exact ⟨h, v, hv, rfl⟩
    · rintro ⟨_, v, hv, rfl⟩
      exact ⟨v, hv, rfl⟩

theorem waiting_eq_some_iff {a : Arg} : p.waiting = some a ↔ p.pending = some (a, none) := by
  rw [Progress.waiting]
  split
  case h_1 b hb => simp [hb]
  case h_2 hne =>
    constructor
    · simp
    · exact fun h => (hne a h).elim

theorem Reads.concat {said : List (Arg × String)} {vs : Values} (h : Reads said vs) {a : Arg}
    {text : String} {v : ArgValue} (hread : a.kind.read text = .ok v) :
    Reads (said ++ [(a, text)]) (vs ++ [(a.id, v)]) :=
  List.rel_append h (.cons ⟨rfl, hread⟩ .nil)

theorem Reads.exists_mem {said : List (Arg × String)} {vs : Values} (h : Reads said vs)
    {id : String} {v : ArgValue} (hv : (id, v) ∈ vs) :
    ∃ a text, (a, text) ∈ said ∧ a.id = id ∧ a.kind.read text = .ok v := by
  induction h with
  | nil => simp at hv
  | @cons entry value said vs hentry _ ih =>
      rcases List.mem_cons.mp hv with rfl | hv
      · exact ⟨entry.1, entry.2, List.mem_cons_self, hentry.1.symm, hentry.2⟩
      · obtain ⟨a, text, hmem, hid, hread⟩ := ih hv
        exact ⟨a, text, List.mem_cons_of_mem entry hmem, hid, hread⟩

/-- What is settled has no text that is not read. -/
theorem Spoken.settle (h : Spoken s ws p) (hsettle : p.settle = .ok p₁) :
    p₁.trailing = p.trailing ∧ p₁.position = p.position ∧ p₁.pending = none ∧
      ∃ said, Says s p.trailing p.position ws said ∧ Reads said p₁.values := by
  rw [Progress.settle] at hsettle
  cases h with
  | @settled said hsaid hread hpending =>
      rw [hpending] at hsettle
      cases hsettle
      exact ⟨rfl, rfl, hpending, said, hsaid, hread⟩
  | @unread said a text hsaid hread hpending =>
      rw [hpending] at hsettle
      obtain ⟨_, v, hv, rfl⟩ := store_eq_ok_iff.mp hsettle
      exact ⟨rfl, rfl, rfl, said ++ [(a, text)], hsaid, hread.concat hv⟩
  | waiting _ hpending =>
      rw [hpending] at hsettle
      cases hsettle

theorem Spoken.stored (h : Spoken s ws p) (hopen : p.trailing = false) {a : Arg} {name : String}
    {text : Option String} (hname : '=' ∉ name.toList) (ha : s.long? name = some a)
    (htakes : a.kind.takesValue = text.isSome) (hsettle : p.settle = .ok p₁)
    (hstore : p₁.store a (text.getD "") = .ok p₂) : Spoken s (ws ++ [dashed name text]) p₂ := by
  obtain ⟨htrailing, hposition, hpending, said, hsaid, hread⟩ := h.settle hsettle
  obtain ⟨_, v, hv, rfl⟩ := store_eq_ok_iff.mp hstore
  rw [hopen] at hsaid
  refine .settled ?_ (hread.concat hv) hpending
  rw [htrailing, hopen, hposition]
  exact hsaid.flag hname ha htakes

theorem Spoken.placed (h : Spoken s ws p) {a : Arg} {word : String}
    (hplain : p.trailing = true ∨ IsPlain word) (ha : s.spec.positionals[p.position]? = some a)
    (hsettle : p.settle = .ok p₁) :
    Spoken s (ws ++ [word])
      { p₁ with pending := some (s.leader a, some word), position := p₁.position + 1 } := by
  obtain ⟨htrailing, hposition, _, said, hsaid, hread⟩ := h.settle hsettle
  refine .unread ?_ hread rfl
  dsimp only
  rw [htrailing, hposition]
  exact hsaid.positional hplain ha

theorem Spoken.answered (h : Spoken s ws p) (hopen : p.trailing = false) {a : Arg}
    (hwaiting : p.waiting = some a) (word : String) :
    Spoken s (ws ++ [word]) { p with pending := some (a, some word) } := by
  have hpending := waiting_eq_some_iff.mp hwaiting
  cases h with
  | settled _ _ hnone => simp [hnone] at hpending
  | unread _ _ hsome => simp [hsome] at hpending
  | @waiting said before b name hwaits hname hb htakes hread hsaid =>
      obtain rfl : s.leader b = a := by simpa [hwaits] using hpending
      obtain ⟨rfl, hbefore⟩ := hsaid hopen
      refine .unread ?_ hread rfl
      rw [List.append_assoc, hopen]
      exact hbefore.apart hname hb htakes word

theorem Spoken.trailing (h : Spoken s ws p) (hopen : p.trailing = false) :
    Spoken s (ws ++ ["--"]) { p with trailing := true } := by
  cases h with
  | settled hsaid hread hpending => exact .settled (hopen ▸ hsaid).dashes hread hpending
  | unread hsaid hread hpending => exact .unread (hopen ▸ hsaid).dashes hread hpending
  | waiting _ hpending hname ha htakes hread hsaid =>
      -- No word can be the awaited value any more, so what stands before the flag does not matter.
      exact .waiting [] hpending hname ha htakes hread (by simp)

theorem Spoken.reading (h : Spoken s ws p) {word : String} (hreading : Reading s p word p₂) :
    Spoken s (ws ++ [word]) p₂ := by
  cases hreading with
  | trailing hopen => exact h.trailing hopen
  | stored hopen hname ha htakes hsettle hstore =>
      exact h.stored hopen hname ha htakes hsettle hstore
  | waits hopen hname ha htakes hsettle =>
      obtain ⟨_, hposition, _, said, hsaid, hread⟩ := h.settle hsettle
      rw [hopen, ← hposition] at hsaid
      exact .waiting _ rfl hname ha htakes hread fun _ => ⟨rfl, hsaid⟩
  | placed hplain ha hsettle => exact h.placed hplain ha hsettle
  | answered hopen hwaiting word => exact h.answered hopen hwaiting word

/-- An argument is said by its long name or by its place. -/
theorem Says.forall_said {P : Arg → Prop}
    (hlong : ∀ name a, '=' ∉ name.toList → s.long? name = some a → P a ∧ P (s.leader a))
    (hplace : ∀ a ∈ s.spec.positionals, P (s.leader a)) {ended : Bool} {k : Nat}
    {said : List (Arg × String)} (h : Says s ended k ws said) : ∀ entry ∈ said, P entry.1 := by
  induction h with
  | nil => simp
  | dashes _ ih => exact ih
  | flag _ hname ha _ ih =>
      exact List.forall_mem_append.mpr ⟨ih, List.forall_mem_singleton.mpr (hlong _ _ hname ha).1⟩
  | apart _ hname ha _ text ih =>
      exact List.forall_mem_append.mpr ⟨ih, List.forall_mem_singleton.mpr (hlong _ _ hname ha).2⟩
  | positional _ _ ha ih =>
      have hplaced := hplace _ (List.mem_of_getElem? ha)
      exact List.forall_mem_append.mpr ⟨ih, List.forall_mem_singleton.mpr hplaced⟩

theorem Says.mem_args {ended : Bool} {k : Nat} {said : List (Arg × String)}
    (h : Says s ended k ws said) : ∀ entry ∈ said, entry.1 ∈ s.args := by
  apply h.forall_said (P := (· ∈ s.args))
  · intro name a _ ha
    have hmem := s.mem_args_of_long? ha
    exact ⟨hmem, s.leader_mem_args hmem⟩
  · intro a ha
    exact s.leader_mem_args (s.mem_args_of_mem_positionals ha)

end ApiCommands.Surface
