import ApiCommands.Command.Naming
import Mathlib.Data.Finset.Card
import Mathlib.Data.Nat.Find
import Mathlib.Tactic.Push

namespace ApiCommands.Naming

/-!
# Free names

Numbered names differ for different numbers, so among more candidates than there are taken names
one is free. The search finds the first of them.
-/

def numberedName (stem : String) (k : Nat) : String := stem ++ "-" ++ toString k

theorem toString_injective : Function.Injective (toString : Nat → String) := by
  intro a b h
  have hdigits : Nat.toDigits 10 a = Nat.toDigits 10 b := by
    simpa only [Nat.toString_eq_repr, Nat.toList_repr] using congrArg String.toList h
  simpa using congrArg (fun digits => Nat.ofDigitChars 10 digits 0) hdigits

theorem numberedName_injective (stem : String) : Function.Injective (numberedName stem) := by
  intro a b h
  have hlists : (stem ++ "-").toList ++ (toString a).toList =
      (stem ++ "-").toList ++ (toString b).toList := by
    simpa [numberedName] using congrArg String.toList h
  exact toString_injective (String.toList_injective (List.append_cancel_left hlists))

/-- The candidates for a name: its stem, and then the numbered names from 2 on. -/
def candidate (stem : String) : Nat → String
  | 0 => stem
  | k + 1 => numberedName stem (k + 2)

theorem numberedName_ne_stem (stem : String) (k : Nat) : numberedName stem k ≠ stem := by
  intro h
  have hlists : stem.toList ++ ("-".toList ++ (toString k).toList) = stem.toList ++ [] := by
    simpa [numberedName] using congrArg String.toList h
  simpa using List.append_cancel_left hlists

theorem candidate_injective (stem : String) : Function.Injective (candidate stem) := by
  intro a b h
  cases a with
  | zero =>
      cases b with
      | zero => rfl
      | succ b => exact (numberedName_ne_stem stem (b + 2) h.symm).elim
  | succ a =>
      cases b with
      | zero => exact (numberedName_ne_stem stem (a + 2) h).elim
      | succ b => simpa using numberedName_injective stem h

theorem exists_candidate_eq_append (stem : String) (k : Nat) :
    ∃ suffix, candidate stem k = stem ++ suffix := by
  cases k with
  | zero => exact ⟨"", (String.append_empty).symm⟩
  | succ k => exact ⟨"-" ++ toString (k + 2), by rw [candidate, numberedName, String.append_assoc]⟩

/-- Candidates differ, so no more of them are taken than there are taken names. -/
theorem le_card_of_candidates {names : Finset String} {stem : String} {k : Nat}
    (h : ∀ i < k, candidate stem i ∈ names) : k ≤ names.card := by
  have hsub : (Finset.range k).image (candidate stem) ⊆ names := by
    intro name hname
    obtain ⟨i, hi, rfl⟩ := Finset.mem_image.mp hname
    exact h i (Finset.mem_range.mp hi)
  have hcard := Finset.card_le_card hsub
  rwa [Finset.card_image_of_injective _ (candidate_injective stem), Finset.card_range] at hcard

/-- A candidate that is free, after candidates that are all taken. -/
def IsFirstFree (taken : List String) (stem : String) (k : Nat) : Prop :=
  candidate stem k ∉ taken ∧ ∀ i < k, candidate stem i ∈ taken

theorem exists_isFirstFree (taken : List String) (stem : String) :
    ∃ k, IsFirstFree taken stem k := by
  classical
  have hexists : ∃ k, candidate stem k ∉ taken := by
    by_contra hall
    push Not at hall
    have hle : taken.toFinset.card + 1 ≤ taken.toFinset.card :=
      le_card_of_candidates fun i _ => List.mem_toFinset.mpr (hall i)
    omega
  exact ⟨Nat.find hexists, Nat.find_spec hexists,
    fun i hi => not_not.mp (Nat.find_min hexists hi)⟩

theorem numbered_eq (taken : List String) (stem : String) (limit k j : Nat) (hkj : k ≤ j)
    (hjk : j < k + limit) (hfree : numberedName stem j ∉ taken)
    (hbefore : ∀ i, k ≤ i → i < j → numberedName stem i ∈ taken) :
    numbered taken stem limit k = numberedName stem j := by
  induction limit generalizing k with
  | zero => omega
  | succ limit ih =>
      have hstep : numbered taken stem (limit + 1) k =
          if taken.contains (numberedName stem k) then numbered taken stem limit (k + 1)
          else numberedName stem k := rfl
      rcases Nat.eq_or_lt_of_le hkj with rfl | hlt
      · rw [hstep, if_neg (by simpa using hfree)]
      · have htaken : numberedName stem k ∈ taken := hbefore k (Nat.le_refl k) hlt
        rw [hstep, if_pos (by simpa using htaken)]
        exact ih (k + 1) hlt (by omega) fun i hi => hbefore i (Nat.le_of_succ_le hi)

theorem firstFree_of_notMem {taken : List String} {stem : String} (h : stem ∉ taken) :
    firstFree taken stem = stem := by
  simp [firstFree, h]

theorem IsFirstFree.firstFree_eq {taken : List String} {stem : String} {k : Nat}
    (h : IsFirstFree taken stem k) : firstFree taken stem = candidate stem k := by
  obtain ⟨hfree, hbefore⟩ := h
  cases k with
  | zero => exact firstFree_of_notMem hfree
  | succ k =>
      have hle : k + 1 ≤ taken.length :=
        (le_card_of_candidates fun i hi => List.mem_toFinset.mpr (hbefore i hi)).trans
          (List.toFinset_card_le taken)
      have hstem : stem ∈ taken := hbefore 0 (Nat.succ_pos k)
      rw [firstFree, if_pos (by simpa using hstem)]
      refine numbered_eq taken stem _ 2 (k + 2) (by omega) (by omega) hfree fun i hi hlt => ?_
      obtain ⟨j, rfl⟩ := Nat.exists_eq_add_of_le' hi
      exact hbefore (j + 1) (by omega)

/-- A stem that is taken gets the least number that makes it free. -/
theorem exists_firstFree_eq {taken : List String} {stem : String} (h : stem ∈ taken) :
    ∃ k, 2 ≤ k ∧ firstFree taken stem = numberedName stem k ∧ numberedName stem k ∉ taken ∧
      ∀ i, 2 ≤ i → i < k → numberedName stem i ∈ taken := by
  obtain ⟨k, hk⟩ := exists_isFirstFree taken stem
  cases k with
  | zero => exact (hk.1 h).elim
  | succ k =>
      refine ⟨k + 2, by omega, hk.firstFree_eq, hk.1, fun i hi hlt => ?_⟩
      obtain ⟨j, rfl⟩ := Nat.exists_eq_add_of_le' hi
      exact hk.2 (j + 1) (by omega)

theorem exists_firstFree_eq_append (taken : List String) (stem : String) :
    ∃ suffix, firstFree taken stem = stem ++ suffix := by
  obtain ⟨k, hk⟩ := exists_isFirstFree taken stem
  exact hk.firstFree_eq ▸ exists_candidate_eq_append stem k

theorem firstFree_notMem (taken : List String) (stem : String) : firstFree taken stem ∉ taken := by
  obtain ⟨k, hk⟩ := exists_isFirstFree taken stem
  exact hk.firstFree_eq ▸ hk.1

/-- Nothing but a dash and digits is put to a stem. -/
theorem notMem_firstFree {c : Char} (hdash : c ≠ '-') (hdigit : c.isDigit = false)
    (taken : List String) {stem : String} (h : c ∉ stem.toList) :
    c ∉ (firstFree taken stem).toList := by
  by_cases htaken : stem ∈ taken
  · obtain ⟨j, _, heq, _⟩ := exists_firstFree_eq htaken
    have hnumber : c ∉ (toString j).toList := by
      intro hmem
      rw [Nat.toString_eq_repr, Nat.toList_repr] at hmem
      simp [Nat.isDigit_of_mem_toDigits (by decide) (by decide) hmem] at hdigit
    rw [heq, numberedName]
    simpa [h, hdash] using hnumber
  · rwa [firstFree_of_notMem htaken]

end ApiCommands.Naming
