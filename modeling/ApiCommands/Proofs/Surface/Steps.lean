import ApiCommands.Failure
import ApiCommands.Surface.Parse
import Mathlib.Data.List.Nodup
import Mathlib.Data.List.TakeWhile

namespace ApiCommands

/-!
# What one word can do

A word ends the flags, gives an argument of the level a value, lets an argument wait for its value,
or names a subcommand. Nothing else changes how far a level has been read, and each change tells
what the word was.
-/

namespace Surface

namespace Scope

theorem mem_args_of_mem_positionals {s : Scope} {a : Arg} (h : a ∈ s.spec.positionals) :
    a ∈ s.args :=
  List.mem_append_left _ (List.mem_of_mem_filter h)

theorem mem_args_of_long? {s : Scope} {name : String} {a : Arg} (h : s.long? name = some a) :
    a ∈ s.args :=
  List.mem_of_find?_eq_some h

theorem leader_mem_args {s : Scope} {a : Arg} (h : a ∈ s.args) : s.leader a ∈ s.args := by
  rw [leader]
  cases hfind : s.args.find? (·.id == a.id) with
  | none => exact h
  | some b => exact List.mem_of_find?_eq_some hfind

theorem leader_id (s : Scope) (a : Arg) : (s.leader a).id = a.id := by
  rw [leader]
  cases hfind : s.args.find? (·.id == a.id) with
  | none => rfl
  | some b => simpa using List.find?_some hfind

end Scope

theorem splitFlag_of_notMem {cs : List Char} (h : '=' ∉ cs) :
    splitFlag cs = (String.ofList cs, none) := by
  have hall : ∀ c ∈ cs, (c != '=') = true := fun c hc => by
    simpa using fun heq : c = '=' => h (heq ▸ hc)
  rw [splitFlag, List.dropWhile_eq_nil_iff.mpr hall, List.takeWhile_eq_self_iff.mpr hall]

theorem splitFlag_append {cs : List Char} (h : '=' ∉ cs) (text : List Char) :
    splitFlag (cs ++ '=' :: text) = (String.ofList cs, some (String.ofList text)) := by
  have hall : ∀ c ∈ cs, (c != '=') = true := fun c hc => by
    simpa using fun heq : c = '=' => h (heq ▸ hc)
  rw [splitFlag, List.takeWhile_append_of_pos hall, List.dropWhile_append_of_pos hall]
  simp

/-- The word of a long flag, with a value after an equals sign or without one. -/
def dashed (name : String) : Option String → String
  | none => "--" ++ name
  | some text => "--" ++ name ++ "=" ++ text

/-- The name of a long flag ends at the first equals sign, so it holds none. -/
theorem dashed_of_splitFlag {cs : List Char} {name : String} {value : Option String}
    (h : splitFlag cs = (name, value)) :
    '=' ∉ name.toList ∧ String.ofList ('-' :: '-' :: cs) = dashed name value := by
  by_cases hmem : '=' ∈ cs
  · obtain ⟨before, after, rfl, hbefore⟩ := List.eq_append_cons_of_mem hmem
    rw [splitFlag_append hbefore] at h
    cases h
    refine ⟨by simpa using hbefore, String.toList_injective ?_⟩
    simp [dashed]
  · rw [splitFlag_of_notMem hmem] at h
    cases h
    refine ⟨by simpa using hmem, String.toList_injective ?_⟩
    simp [dashed]

/-- A word that cannot be a flag. One dash alone is such a word. -/
def IsPlain (word : String) : Prop := ∀ c cs, word.toList ≠ '-' :: c :: cs

/-- The changes that a word can make at a level. -/
inductive Reading (s : Scope) (p : Progress) : String → Progress → Prop where
  | trailing (hopen : p.trailing = false) : Reading s p "--" { p with trailing := true }
  | stored {p₁ p₂ : Progress} {a : Arg} {name : String} {text : Option String}
      (hopen : p.trailing = false) (hname : '=' ∉ name.toList) (ha : s.long? name = some a)
      (htakes : a.kind.takesValue = text.isSome) (hsettle : p.settle = .ok p₁)
      (hstore : p₁.store a (text.getD "") = .ok p₂) : Reading s p (dashed name text) p₂
  | waits {p₁ : Progress} {a : Arg} {name : String} (hopen : p.trailing = false)
      (hname : '=' ∉ name.toList) (ha : s.long? name = some a)
      (htakes : a.kind.takesValue = true) (hsettle : p.settle = .ok p₁) :
      Reading s p (dashed name none) { p₁ with pending := some (s.leader a, none) }
  | placed {p₁ : Progress} {a : Arg} {word : String} (hplain : p.trailing = true ∨ IsPlain word)
      (ha : s.spec.positionals[p.position]? = some a) (hsettle : p.settle = .ok p₁) :
      Reading s p word
        { p₁ with pending := some (s.leader a, some word), position := p₁.position + 1 }
  | answered {a : Arg} (hopen : p.trailing = false) (hwaiting : p.waiting = some a)
      (word : String) : Reading s p word { p with pending := some (a, some word) }

theorem ofExcept_eq_goOn_iff {x : Except Rejection Progress} {p : Progress} :
    Move.ofExcept x = .goOn p ↔ x = .ok p := by
  cases x <;> simp [Move.ofExcept]

theorem ofExcept_ne_enter (x : Except Rejection Progress) (sub : Spec) :
    Move.ofExcept x ≠ .enter sub := by
  cases x <;> simp [Move.ofExcept]

theorem entered_ne_goOn (s : Scope) (sub : Spec) (p : Progress) : entered s sub ≠ .goOn p := by
  rw [entered]
  split <;> simp

theorem entered_eq_enter_iff {s : Scope} {sub sub' : Spec} :
    entered s sub = .enter sub' ↔ sub = sub' ∧ (s.enter sub).WellNamed := by
  rw [entered]
  split <;> simp [*]

theorem asked_ne_goOn (p p' : Progress) (r : Rejection) : asked p r ≠ .goOn p' := by
  rw [asked]
  cases p.settle <;> simp

theorem asked_ne_enter (p : Progress) (r : Rejection) (sub : Spec) : asked p r ≠ .enter sub := by
  rw [asked]
  cases p.settle <;> simp

section GoOn

variable {s : Scope} {p p' : Progress}

theorem reading_of_knownFlag {a : Arg} {name : String} {text : Option String}
    (hopen : p.trailing = false) (hname : '=' ∉ name.toList) (ha : s.long? name = some a)
    (h : knownFlag s p a text = .goOn p') : Reading s p (dashed name text) p' := by
  unfold knownFlag at h
  split at h
  case isTrue htakes =>
    cases text with
    | some text =>
        obtain ⟨p₁, hsettle, hstore⟩ := Except.bind_eq_ok_iff.mp (ofExcept_eq_goOn_iff.mp h)
        exact .stored hopen hname ha htakes hsettle hstore
    | none =>
        obtain ⟨p₁, hsettle, rfl⟩ := Except.map_eq_ok_iff.mp (ofExcept_eq_goOn_iff.mp h)
        exact .waits hopen hname ha htakes hsettle
  case isFalse htakes =>
    cases text with
    | some text => cases h
    | none =>
        obtain ⟨p₁, hsettle, hstore⟩ := Except.bind_eq_ok_iff.mp (ofExcept_eq_goOn_iff.mp h)
        exact .stored hopen hname ha (by simpa using htakes) hsettle hstore

theorem reading_of_longFlag {cs : List Char} (hopen : p.trailing = false)
    (h : longFlag s p cs = .goOn p') : Reading s p (String.ofList ('-' :: '-' :: cs)) p' := by
  rcases hsplit : splitFlag cs with ⟨name, text⟩
  obtain ⟨hname, hword⟩ := dashed_of_splitFlag hsplit
  rw [longFlag, hsplit] at h
  dsimp only at h
  rw [hword]
  split at h
  case h_1 a ha => exact reading_of_knownFlag hopen hname ha h
  case h_2 =>
    split at h
    case h_1 => cases h
    case h_2 => cases h
    case h_3 => exact (asked_ne_goOn _ _ _ h).elim

theorem reading_of_positional {word : String} (hplain : p.trailing = true ∨ IsPlain word)
    (h : positional s p word = .goOn p') : Reading s p word p' := by
  rw [positional] at h
  split at h
  case h_1 a ha =>
    obtain ⟨p₁, hsettle, rfl⟩ := Except.map_eq_ok_iff.mp (ofExcept_eq_goOn_iff.mp h)
    exact .placed hplain ha hsettle
  case h_2 => cases h

theorem reading_of_plainWord {word : String} (hopen : p.trailing = false)
    (hplain : p.waiting = none → IsPlain word) (h : plainWord s p word = .goOn p') :
    Reading s p word p' := by
  rw [plainWord] at h
  split at h
  case h_1 a hwaiting =>
    cases h
    exact .answered hopen hwaiting word
  case h_2 hnone => exact reading_of_positional (Or.inr (hplain hnone)) h

theorem shortFlag_ne_goOn (c : Char) : shortFlag s p c ≠ .goOn p' := by
  rw [shortFlag]
  split
  · exact asked_ne_goOn _ _ _
  · split
    · exact asked_ne_goOn _ _ _
    · simp

theorem reading_of_otherWord {word : String} (hopen : p.trailing = false)
    (h : otherWord s p word = .goOn p') : Reading s p word p' := by
  rw [otherWord] at h
  split at h
  case h_1 hword =>
    cases h
    have hdashes : word = "--" := String.toList_injective hword
    exact hdashes ▸ .trailing hopen
  case h_2 cs _ hword =>
    have hlist : word = String.ofList ('-' :: '-' :: cs) := by rw [← hword, String.ofList_toList]
    exact hlist ▸ reading_of_longFlag hopen h
  case h_3 =>
    split at h
    case isTrue hnumber =>
      -- A dash begins no plain word, but a number may come after it when a value is awaited.
      refine reading_of_plainWord hopen (fun hnone => ?_) h
      simp [hnone] at hnumber
    case isFalse => exact (shortFlag_ne_goOn _ h).elim
  case h_4 hdash =>
    refine reading_of_plainWord hopen (fun _ c cs hword => ?_) h
    exact hdash c cs hword

theorem reading_of_move {word : String} (h : move s p word = .goOn p') : Reading s p word p' := by
  rw [move] at h
  split at h
  case isTrue htrailing => exact reading_of_positional (Or.inl htrailing) h
  case isFalse htrailing =>
    have hopen : p.trailing = false := by simpa using htrailing
    split at h
    case isTrue => exact reading_of_otherWord hopen h
    case isFalse =>
      rw [subcommandWord] at h
      split at h
      case isTrue => cases h
      case isFalse =>
        cases hsub : s.spec.subcommand? word with
        | some sub => exact (entered_ne_goOn s sub p' (by simpa [hsub] using h)).elim
        | none => exact reading_of_otherWord hopen (by simpa [hsub] using h)

end GoOn

section Enter

variable {s : Scope} {p : Progress} {sub : Spec}

theorem positional_ne_enter (word : String) : positional s p word ≠ .enter sub := by
  rw [positional]
  split
  · exact ofExcept_ne_enter _ _
  · simp

theorem plainWord_ne_enter (word : String) : plainWord s p word ≠ .enter sub := by
  rw [plainWord]
  split
  · simp
  · exact positional_ne_enter word

theorem longFlag_ne_enter (cs : List Char) : longFlag s p cs ≠ .enter sub := by
  rcases hsplit : splitFlag cs with ⟨name, value⟩
  rw [longFlag, hsplit]
  dsimp only
  split
  · unfold knownFlag
    split
    · cases value <;> exact ofExcept_ne_enter _ _
    · cases value
      · exact ofExcept_ne_enter _ _
      · simp
  · split
    · simp
    · simp
    · exact asked_ne_enter _ _ _

theorem shortFlag_ne_enter (c : Char) : shortFlag s p c ≠ .enter sub := by
  rw [shortFlag]
  split
  · exact asked_ne_enter _ _ _
  · split
    · exact asked_ne_enter _ _ _
    · simp

theorem otherWord_ne_enter (word : String) : otherWord s p word ≠ .enter sub := by
  rw [otherWord]
  split
  · simp
  · exact longFlag_ne_enter _
  · split
    · exact plainWord_ne_enter word
    · exact shortFlag_ne_enter _
  · exact plainWord_ne_enter word

/-- A subcommand is entered by its name, and only where its own names go together. -/
theorem subcommand?_of_move {word : String} (h : move s p word = .enter sub) :
    s.spec.subcommand? word = some sub ∧ (s.enter sub).WellNamed := by
  rw [move] at h
  split at h
  case isTrue => exact (positional_ne_enter word h).elim
  case isFalse =>
    split at h
    case isTrue => exact (otherWord_ne_enter word h).elim
    case isFalse =>
      rw [subcommandWord] at h
      split at h
      case isTrue => cases h
      case isFalse =>
        cases hsub : s.spec.subcommand? word with
        | none => exact (otherWord_ne_enter word (by simpa [hsub] using h)).elim
        | some sub' =>
            have hentered : entered s sub' = .enter sub := by simpa [hsub] using h
            obtain ⟨rfl, hnamed⟩ := entered_eq_enter_iff.mp hentered
            exact ⟨rfl, hnamed⟩

end Enter

end Surface

end ApiCommands
