import ApiCommands.Proofs.Surface.Steps
import ApiCommands.Surface.Invocation

namespace ApiCommands

/-!
# Collecting values

What is collected are the values of the inputs, in the order of the inputs. Collecting fails
exactly where a value is outside the choices of its input.
-/

/-- A value is among the choices of an input, or the input has none. -/
def Input.Allows (i : Input) (raw : String) : Prop := i.choices ≠ [] → raw ∈ i.choices

theorem Input.validate_eq_ok {i : Input} {raw : String} (h : i.Allows raw) :
    i.validate raw = .ok () := by
  refine if_pos ?_
  by_cases hnone : i.choices = []
  · simp [hnone]
  · simp [h hnone]

theorem Input.validate_eq_error {i : Input} {raw : String} (h : ¬i.Allows raw) :
    i.validate raw = .error (.valueNotAllowed i.name raw i.choices) := by
  refine if_neg fun hany => h fun hne => ?_
  simpa [hne] using hany

namespace Surface

def givenOf (values : Values) (i : Input) : Option Given :=
  (rawOf values i).map (⟨i.name, i.location, ·⟩)

theorem givenOf_eq_some_iff {values : Values} {i : Input} {g : Given} :
    givenOf values i = some g ↔
      g.name = i.name ∧ g.location = i.location ∧ rawOf values i = some g.raw := by
  obtain ⟨name, location, raw⟩ := g
  simp only [givenOf, Option.map_eq_some_iff, Given.mk.injEq]
  constructor
  · rintro ⟨_, hraw, rfl, rfl, rfl⟩
    exact ⟨rfl, rfl, hraw⟩
  · rintro ⟨rfl, rfl, hraw⟩
    exact ⟨raw, hraw, rfl, rfl, rfl⟩

section Collect

variable {values : Values} {i : Input} {is : List Input} {raw : String}

theorem collectInputs_cons_of_none (h : rawOf values i = none) :
    collectInputs values (i :: is) = collectInputs values is := by
  rw [collectInputs, h]

theorem collectInputs_cons_of_some (h : rawOf values i = some raw) :
    collectInputs values (i :: is) = (i.validate raw).bind fun _ =>
      (collectInputs values is).map (⟨i.name, i.location, raw⟩ :: ·) := by
  have hsteps : collectInputs values (i :: is) =
      (i.validate raw).bind fun _ => (collectInputs values is).bind fun given =>
        .ok (⟨i.name, i.location, raw⟩ :: given) := by
    rw [collectInputs, h]
    rfl
  rw [hsteps]
  cases i.validate raw with
  | error => rfl
  | ok => cases collectInputs values is <;> rfl

theorem collectInputs_eq_ok (h : ∀ i ∈ is, ∀ raw, rawOf values i = some raw → i.Allows raw) :
    collectInputs values is = .ok (is.filterMap (givenOf values)) := by
  induction is with
  | nil => rfl
  | cons i is ih =>
      have hrest := ih fun j hj => h j (List.mem_cons_of_mem i hj)
      cases hraw : rawOf values i with
      | none =>
          have hgiven : givenOf values i = none := by rw [givenOf, hraw, Option.map_none]
          rw [collectInputs_cons_of_none hraw, hrest, List.filterMap_cons_none hgiven]
      | some raw =>
          have hgiven : givenOf values i = some ⟨i.name, i.location, raw⟩ := by
            rw [givenOf, hraw, Option.map_some]
          have hallows := h i List.mem_cons_self raw hraw
          rw [collectInputs_cons_of_some hraw, Input.validate_eq_ok hallows, hrest,
            List.filterMap_cons_some hgiven]
          rfl

/-- The first value that is refused ends the collecting. -/
theorem exists_first_refused
    (h : ¬∀ i ∈ is, ∀ raw, rawOf values i = some raw → i.Allows raw) :
    ∃ before i after raw, is = before ++ i :: after ∧
      (∀ j ∈ before, ∀ raw, rawOf values j = some raw → j.Allows raw) ∧
      rawOf values i = some raw ∧ ¬i.Allows raw ∧
      collectInputs values is = .error (.valueNotAllowed i.name raw i.choices) := by
  induction is with
  | nil => simp at h
  | cons i is ih =>
      by_cases hi : ∀ raw, rawOf values i = some raw → i.Allows raw
      · have hrest : ¬∀ j ∈ is, ∀ raw, rawOf values j = some raw → j.Allows raw := by
          intro hall
          exact h (List.forall_mem_cons.mpr ⟨hi, hall⟩)
        obtain ⟨before, j, after, raw, rfl, hbefore, hraw, hnot, herror⟩ := ih hrest
        refine ⟨i :: before, j, after, raw, rfl, List.forall_mem_cons.mpr ⟨hi, hbefore⟩, hraw, hnot,
          ?_⟩
        cases hfirst : rawOf values i with
        | none => rw [collectInputs_cons_of_none hfirst, herror]
        | some first =>
            rw [collectInputs_cons_of_some hfirst, Input.validate_eq_ok (hi first hfirst), herror]
            rfl
      · push Not at hi
        obtain ⟨raw, hraw, hnot⟩ := hi
        refine ⟨[], i, is, raw, rfl, by simp, hraw, hnot, ?_⟩
        rw [collectInputs_cons_of_some hraw, Input.validate_eq_error hnot]
        rfl

theorem collectInputs_eq_error
    (h : ¬∀ i ∈ is, ∀ raw, rawOf values i = some raw → i.Allows raw) :
    ∃ i ∈ is, ∃ raw, rawOf values i = some raw ∧ ¬i.Allows raw ∧
      collectInputs values is = .error (.valueNotAllowed i.name raw i.choices) := by
  obtain ⟨before, i, after, raw, rfl, _, hraw, hnot, herror⟩ := exists_first_refused h
  exact ⟨i, List.mem_append_right _ List.mem_cons_self, raw, hraw, hnot, herror⟩

theorem allows_of_collectInputs {given : List Given} (h : collectInputs values is = .ok given) :
    given = is.filterMap (givenOf values) ∧
      ∀ i ∈ is, ∀ raw, rawOf values i = some raw → i.Allows raw := by
  by_cases hall : ∀ i ∈ is, ∀ raw, rawOf values i = some raw → i.Allows raw
  · rw [collectInputs_eq_ok hall] at h
    exact ⟨(Except.ok.inj h).symm, hall⟩
  · obtain ⟨_, _, _, _, _, herror⟩ := collectInputs_eq_error hall
    simp [herror] at h

theorem names_filterMap_givenOf (values : Values) (is : List Input) :
    ((is.filterMap (givenOf values)).map Given.name).Sublist (is.map fun i => i.name) := by
  induction is with
  | nil => exact .slnil
  | cons i is ih =>
      cases hgiven : givenOf values i with
      | none =>
          rw [List.filterMap_cons_none hgiven]
          exact ih.cons i.name
      | some g =>
          rw [List.filterMap_cons_some hgiven, List.map_cons, List.map_cons,
            (givenOf_eq_some_iff.mp hgiven).1]
          exact ih.cons_cons i.name

end Collect

end Surface

end ApiCommands
