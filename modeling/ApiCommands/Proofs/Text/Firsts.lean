import ApiCommands.Text.Template
import Mathlib.Data.List.Nodup

namespace ApiCommands.Text.Template

/-!
# The first of equal elements

What is kept of a list depends only on which elements have been seen. It has no repetitions and
misses nothing that is new.
-/

variable {α : Type} [DecidableEq α]

@[simp] theorem firsts_nil (seen : List α) : firsts seen [] = [] := rfl

theorem firsts_cons_of_mem {seen : List α} {x : α} (h : x ∈ seen) (xs : List α) :
    firsts seen (x :: xs) = firsts seen xs := by
  simp [firsts, h]

theorem firsts_cons_of_notMem {seen : List α} {x : α} (h : x ∉ seen) (xs : List α) :
    firsts seen (x :: xs) = x :: firsts (x :: seen) xs := by
  simp [firsts, h]

theorem mem_firsts {seen xs : List α} {x : α} : x ∈ firsts seen xs ↔ x ∈ xs ∧ x ∉ seen := by
  induction xs generalizing seen with
  | nil => simp
  | cons y xs ih =>
      by_cases hy : y ∈ seen
      · rw [firsts_cons_of_mem hy, ih, List.mem_cons]
        constructor
        · exact fun ⟨hx, hnew⟩ => ⟨Or.inr hx, hnew⟩
        · rintro ⟨rfl | hx, hnew⟩
          · exact (hnew hy).elim
          · exact ⟨hx, hnew⟩
      · rw [firsts_cons_of_notMem hy, List.mem_cons, ih, List.mem_cons, List.mem_cons]
        by_cases hxy : x = y
        · simp [hxy, hy]
        · simp [hxy]

theorem nodup_firsts (seen xs : List α) : (firsts seen xs).Nodup := by
  induction xs generalizing seen with
  | nil => exact List.nodup_nil
  | cons y xs ih =>
      by_cases hy : y ∈ seen
      · rw [firsts_cons_of_mem hy]
        exact ih seen
      · rw [firsts_cons_of_notMem hy, List.nodup_cons]
        exact ⟨fun h => (mem_firsts.mp h).2 List.mem_cons_self, ih (y :: seen)⟩

theorem firsts_congr {seen seen' : List α} (h : ∀ x, x ∈ seen ↔ x ∈ seen') (xs : List α) :
    firsts seen xs = firsts seen' xs := by
  induction xs generalizing seen seen' with
  | nil => rfl
  | cons y xs ih =>
      by_cases hy : y ∈ seen
      · rw [firsts_cons_of_mem hy, firsts_cons_of_mem ((h y).mp hy), ih h]
      · rw [firsts_cons_of_notMem hy, firsts_cons_of_notMem (mt (h y).mpr hy)]
        have hcons : ∀ x, x ∈ y :: seen ↔ x ∈ y :: seen' := by
          intro x
          simp only [List.mem_cons, h x]
        rw [ih hcons]

theorem mem_append_cons_of_mem {seen : List α} {x : α} (h : x ∈ seen) (xs : List α) (z : α) :
    z ∈ seen ++ xs ↔ z ∈ seen ++ x :: xs := by
  by_cases hz : z = x <;> simp [hz, h]

omit [DecidableEq α] in
theorem mem_cons_append_iff (seen : List α) (x : α) (xs : List α) (z : α) :
    z ∈ x :: (seen ++ xs) ↔ z ∈ seen ++ x :: xs := by
  simp only [List.mem_cons, List.mem_append]
  tauto

theorem firsts_append (seen xs ys : List α) :
    firsts seen (xs ++ ys) = firsts seen xs ++ firsts (seen ++ xs) ys := by
  induction xs generalizing seen with
  | nil => simp
  | cons x xs ih =>
      by_cases hx : x ∈ seen
      · rw [List.cons_append, firsts_cons_of_mem hx, firsts_cons_of_mem hx, ih seen,
          firsts_congr (mem_append_cons_of_mem hx xs)]
      · rw [List.cons_append, firsts_cons_of_notMem hx, firsts_cons_of_notMem hx, ih (x :: seen),
          List.cons_append, firsts_congr (mem_cons_append_iff seen x xs), List.cons_append]

/-- Leaving elements out before or after makes no difference. -/
theorem firsts_filter {p : α → Bool} {seen seen' : List α}
    (h : ∀ x, p x = true → (x ∈ seen ↔ x ∈ seen')) (xs : List α) :
    firsts seen' (xs.filter p) = (firsts seen xs).filter p := by
  induction xs generalizing seen seen' with
  | nil => rfl
  | cons y xs ih =>
      by_cases hp : p y = true
      · rw [List.filter_cons_of_pos hp]
        by_cases hy : y ∈ seen
        · rw [firsts_cons_of_mem hy, firsts_cons_of_mem ((h y hp).mp hy), ih h]
        · have hcons : ∀ x, p x = true → (x ∈ y :: seen ↔ x ∈ y :: seen') := by
            intro x hx
            simp only [List.mem_cons, h x hx]
          rw [firsts_cons_of_notMem hy, firsts_cons_of_notMem (mt (h y hp).mpr hy), ih hcons,
            List.filter_cons_of_pos hp]
      · rw [List.filter_cons_of_neg hp]
        by_cases hy : y ∈ seen
        · rw [firsts_cons_of_mem hy, ih h]
        · have hcons : ∀ x, p x = true → (x ∈ y :: seen ↔ x ∈ seen') := by
            intro x hx
            have hne : x ≠ y := fun heq => hp (heq ▸ hx)
            rw [List.mem_cons, ← h x hx, or_iff_right hne]
          rw [firsts_cons_of_notMem hy, List.filter_cons_of_neg hp, ih hcons]

/-- What has been seen before is left out, and nothing else. -/
theorem firsts_eq_filter (seen xs : List α) : firsts seen xs = (firsts [] xs).filter (· ∉ seen) := by
  have hseen : ∀ x, decide (x ∉ seen) = true → (x ∈ [] ↔ x ∈ seen) := by simp
  have hnew : (firsts seen xs).filter (· ∉ seen) = firsts seen xs :=
    List.filter_eq_self.mpr fun x hx => by simpa using (mem_firsts.mp hx).2
  rw [← firsts_filter hseen, ← hnew, firsts_filter fun _ _ => Iff.rfl]

theorem firsts_eq_eraseDups (xs : List α) : firsts [] xs = xs.eraseDups := by
  induction hlen : xs.length using Nat.strongRecOn generalizing xs with
  | ind n ih =>
      cases xs with
      | nil => rfl
      | cons x xs =>
          have hshorter : (xs.filter fun y => !y == x).length < n :=
            hlen ▸ Nat.lt_succ_of_le (List.length_filter_le _ xs)
          rw [firsts_cons_of_notMem List.not_mem_nil, List.eraseDups_cons, ← ih _ hshorter _ rfl,
            firsts_eq_filter, firsts_filter fun _ _ => Iff.rfl]
          congr 2
          funext y
          simp [beq_eq_decide]

theorem pairwise_idxOf_firsts (seen xs : List α) :
    (firsts seen xs).Pairwise fun x y => xs.idxOf x < xs.idxOf y := by
  induction xs generalizing seen with
  | nil => exact .nil
  | cons x xs ih =>
      -- Behind the first element all indices grow by one.
      have htail {seen : List α} (hx : x ∈ seen) :
          (firsts seen xs).Pairwise fun y z => (x :: xs).idxOf y < (x :: xs).idxOf z := by
        refine (ih seen).imp_of_mem fun hy hz hlt => ?_
        have hne {y : α} (hy : y ∈ firsts seen xs) : x ≠ y :=
          fun heq => (mem_firsts.mp hy).2 (heq ▸ hx)
        rw [List.idxOf_cons_ne _ (hne hy), List.idxOf_cons_ne _ (hne hz)]
        exact Nat.succ_lt_succ hlt
      by_cases hx : x ∈ seen
      · rw [firsts_cons_of_mem hx]
        exact htail hx
      · rw [firsts_cons_of_notMem hx]
        refine .cons (fun y hy => ?_) (htail List.mem_cons_self)
        have hne : x ≠ y := fun heq => (mem_firsts.mp hy).2 (heq ▸ List.mem_cons_self)
        rw [List.idxOf_cons_self, List.idxOf_cons_ne _ hne]
        exact Nat.succ_pos _

end ApiCommands.Text.Template
