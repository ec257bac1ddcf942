import ApiCommands.Proofs.Surface.Words

namespace ApiCommands.Surface

/-!
# Accepted command lines

Whatever words are accepted, the values of a level are what its words say, read from a text, each
argument once; and the last level has all values that it requires.
-/

/-- Values of arguments of a level, each read from a text, and no argument twice. -/
structure Holds (s : Scope) (vs : Values) : Prop where
  nodup : (vs.map Prod.fst).Nodup
  read : ∀ id v, (id, v) ∈ vs → ∃ a ∈ s.args, a.id = id ∧ ∃ text, a.kind.read text = .ok v

/-- Values that the words of a level say, none of them twice. -/
structure Gives (s : Scope) (ws : List String) (vs : Values) : Prop where
  nodup : (vs.map Prod.fst).Nodup
  spoken : ∃ ended k said, Says s ended k ws said ∧ Reads said vs

theorem Gives.holds {s : Scope} {ws : List String} {vs : Values} (h : Gives s ws vs) :
    Holds s vs where
  nodup := h.nodup
  read := by
    intro id v hv
    obtain ⟨_, _, said, hsaid, hreads⟩ := h.spoken
    obtain ⟨a, text, hmem, hid, hread⟩ := hreads.exists_mem hv
    exact ⟨a, hsaid.mem_args _ hmem, hid, text, hread⟩

/-- Nothing that a level requires is missing. -/
def Complete (s : Scope) (vs : Values) : Prop :=
  s.spec.subcommandRequired = false ∧ ∀ a ∈ s.args, a.required = true → isGiven vs a = true

/-- The words of a command line and what they say. Between the words of a level and those of the
next stands the name of a subcommand, whose own names go together. -/
inductive Accepted : Scope → List String → Matches → Prop where
  | last {s : Scope} {ws : List String} {vs : Values} (hgives : Gives s ws vs)
      (hcomplete : Complete s vs) : Accepted s ws ⟨vs, []⟩
  | enter {s : Scope} {ws rest : List String} {vs : Values} {sub : Spec} {below : Matches}
      (hgives : Gives s ws vs) (hsub : s.spec.subcommand? sub.name = some sub)
      (hnamed : (s.enter sub).WellNamed) (hbelow : Accepted (s.enter sub) rest below) :
      Accepted s (ws ++ sub.name :: rest) ⟨vs, ⟨sub.name, below.values⟩ :: below.steps⟩

/-- Progress at a level that words have made, with no argument given twice. -/
structure Sound (s : Scope) (ws : List String) (p : Progress) : Prop where
  nodup : (p.values.map Prod.fst).Nodup
  spoken : Spoken s ws p

theorem Sound.start (s : Scope) : Sound s [] {} := ⟨List.nodup_nil, .start s⟩

variable {s : Scope} {ws : List String} {p p₁ p₂ : Progress}

theorem nodup_of_store (h : (p.values.map Prod.fst).Nodup) {a : Arg} {text : String}
    (hstore : p.store a text = .ok p₁) : (p₁.values.map Prod.fst).Nodup := by
  obtain ⟨hnew, v, hv, rfl⟩ := store_eq_ok_iff.mp hstore
  rw [List.map_append, List.map_singleton, List.nodup_append]
  refine ⟨h, List.nodup_singleton _, ?_⟩
  rintro id hid other hother rfl
  have heq : id = a.id := List.mem_singleton.mp hother
  exact hnew (heq ▸ hid)

theorem nodup_of_settle (h : (p.values.map Prod.fst).Nodup) (hsettle : p.settle = .ok p₁) :
    (p₁.values.map Prod.fst).Nodup := by
  rw [Progress.settle] at hsettle
  split at hsettle
  case h_1 =>
    cases hsettle
    exact h
  case h_2 => cases hsettle
  case h_3 a text hpending => exact nodup_of_store (p := { p with pending := none }) h hsettle

theorem Sound.reading (h : Sound s ws p) {word : String} (hreading : Reading s p word p₁) :
    Sound s (ws ++ [word]) p₁ := by
  refine ⟨?_, h.spoken.reading hreading⟩
  cases hreading with
  | trailing => exact h.nodup
  | stored _ _ _ _ hsettle hstore => exact nodup_of_store (nodup_of_settle h.nodup hsettle) hstore
  | waits _ _ _ _ hsettle =>
      have hnodup := nodup_of_settle h.nodup hsettle
      exact hnodup
  | placed _ _ hsettle =>
      have hnodup := nodup_of_settle h.nodup hsettle
      exact hnodup
  | answered => exact h.nodup

theorem Sound.gives (h : Sound s ws p) (hsettle : p.settle = .ok p₁) : Gives s ws p₁.values := by
  obtain ⟨_, _, _, said, hsaid, hreads⟩ := h.spoken.settle hsettle
  exact ⟨nodup_of_settle h.nodup hsettle, _, _, said, hsaid, hreads⟩

theorem finish_of_settle {hasSub : Bool} (hsettle : p.settle = .ok p₁) :
    finish s p hasSub =
      if !hasSub && s.spec.helpWhenEmpty && p₁.values.isEmpty then .error .helpForMissing
      else if !hasSub && s.spec.subcommandRequired then .error .missingSubcommand
      else if !(hasSub && s.spec.subcommandWaives) &&
          s.args.any (fun a => a.required && !isGiven p₁.values a) then .error .missingRequired
      else .ok p₁.values := by
  rw [finish, hsettle]
  rfl

theorem finish_eq_ok {vs : Values} {hasSub : Bool} (h : Sound s ws p)
    (hfinish : finish s p hasSub = .ok vs) :
    Gives s ws vs ∧ (hasSub = false → Complete s vs) := by
  obtain ⟨p', hsettle, hrest⟩ := Except.bind_eq_ok_iff.mp hfinish
  have hgives := h.gives hsettle
  split at hrest
  case isTrue => cases hrest
  case isFalse =>
    split at hrest
    case isTrue => cases hrest
    case isFalse hrequired =>
      split at hrest
      case isTrue => cases hrest
      case isFalse hgiven =>
        cases hrest
        refine ⟨hgives, fun hsub => ⟨by simpa [hsub] using hrequired, fun a ha hreq => ?_⟩⟩
        simp only [hsub, Bool.false_and, Bool.not_false, Bool.true_and, Bool.not_eq_true,
          List.any_eq_false] at hgiven
        simpa [hreq] using hgiven a ha

theorem accepted_of_parseLevel {words : List String} {m : Matches} (h : Sound s ws p)
    (hparse : parseLevel s p words = .ok m) : Accepted s (ws ++ words) m := by
  -- The words that are left get fewer; those that are read already are what the progress tells.
  induction words generalizing s ws p m with
  | nil =>
      obtain ⟨vs, hfinish, rfl⟩ := Except.map_eq_ok_iff.mp hparse
      obtain ⟨hgives, hcomplete⟩ := finish_eq_ok h hfinish
      rw [List.append_nil]
      exact .last hgives (hcomplete rfl)
  | cons word words ih =>
      rw [parseLevel] at hparse
      split at hparse
      case h_1 p' hmove =>
        rw [List.append_cons]
        exact ih (h.reading (reading_of_move hmove)) hparse
      case h_2 sub hmove =>
        obtain ⟨below, hbelow, hrest⟩ := Except.bind_eq_ok_iff.mp hparse
        obtain ⟨vs, hfinish, hm⟩ := Except.bind_eq_ok_iff.mp hrest
        cases hm
        obtain ⟨hsub, hnamed⟩ := subcommand?_of_move hmove
        obtain rfl : sub.name = word := by simpa using List.find?_some hsub
        exact .enter (finish_eq_ok h hfinish).1 hsub hnamed (ih (Sound.start _) hbelow)
      case h_3 => cases hparse
      case h_4 => cases hparse

theorem parse_eq_ok_iff {c : Spec} {words : List String} {m : Matches} :
    parse c words = .ok m ↔
      Scope.WellNamed ⟨c, []⟩ ∧ parseLevel ⟨c, []⟩ {} words = .ok m := by
  rw [parse]
  split <;> simp [*]

theorem accepted_of_parse {c : Spec} {words : List String} {m : Matches}
    (h : parse c words = .ok m) : Accepted ⟨c, []⟩ words m :=
  accepted_of_parseLevel (Sound.start _) (parse_eq_ok_iff.mp h).2

theorem Accepted.holds {m : Matches} (h : Accepted s ws m) : Holds s m.values := by
  cases h with
  | last hgives => exact hgives.holds
  | enter hgives => exact hgives.holds

end ApiCommands.Surface
