import ApiCommands.Table
import Mathlib.Data.List.Forall2
import Mathlib.Data.List.Induction
import Mathlib.Data.List.Nodup
import Mathlib.Data.List.Perm.Basic

namespace ApiCommands

/-!
# Lists with distinct keys

An element is found by its key, and a list is put together again from the parts of its keys. A
table of entries with distinct names holds just these entries.
-/

variable {α β : Type}

theorem find?_of_mem [BEq β] [LawfulBEq β] {key : α → β} {xs : List α}
    (h : (xs.map key).Nodup) {x : α} (hx : x ∈ xs) :
    xs.find? (fun y => key y == key x) = some x := by
  induction xs with
  | nil => simp at hx
  | cons y ys ih =>
      obtain ⟨hy, hys⟩ := List.nodup_cons.mp (List.map_cons ▸ h)
      rcases List.mem_cons.mp hx with rfl | hx
      · simp
      · have hne : key y ≠ key x := fun heq => hy (heq ▸ List.mem_map_of_mem hx)
        simpa [List.find?_cons, hne] using ih hys hx

theorem lookup_of_mem [BEq α] [LawfulBEq α] {xs : List (α × β)} (h : (xs.map Prod.fst).Nodup)
    {a : α} {b : β} (hx : (a, b) ∈ xs) : xs.lookup a = some b := by
  induction xs with
  | nil => simp at hx
  | cons y ys ih =>
      obtain ⟨c, d⟩ := y
      obtain ⟨hc, hys⟩ := List.nodup_cons.mp (List.map_cons ▸ h)
      rcases List.mem_cons.mp hx with heq | hx
      · cases heq
        exact List.lookup_cons_self
      · have hne : (a == c) = false := by
          simpa using fun heq : a = c => hc (List.mem_map.mpr ⟨(a, b), hx, heq⟩)
        rw [List.lookup_cons, hne]
        exact ih hys hx

theorem mem_of_lookup [BEq α] [LawfulBEq α] {xs : List (α × β)} {a : α} {b : β}
    (h : xs.lookup a = some b) : (a, b) ∈ xs := by
  obtain ⟨before, after, rfl, _⟩ := List.lookup_eq_some_iff.mp h
  simp

theorem lookup_eq_of_perm {xs ys : List (String × β)} (hnodup : (xs.map Prod.fst).Nodup)
    (hperm : xs.Perm ys) (name : String) : xs.lookup name = ys.lookup name := by
  apply Option.ext
  intro b
  constructor
  · intro h
    exact lookup_of_mem ((hperm.map Prod.fst).nodup_iff.mp hnodup)
      (hperm.mem_iff.mp (mem_of_lookup h))
  · intro h
    exact lookup_of_mem hnodup (hperm.mem_iff.mpr (mem_of_lookup h))

theorem exists_mem_of_forall₂ {r : α → β → Prop} {xs : List α} {ys : List β}
    (h : List.Forall₂ r xs ys) : ∀ x ∈ xs, ∃ y ∈ ys, r x y := by
  induction h with
  | nil => simp
  | @cons a b _ _ hab _ ih =>
      rw [List.forall_mem_cons]
      refine ⟨⟨b, List.mem_cons_self, hab⟩, ?_⟩
      intro x hx
      obtain ⟨y, hy, hxy⟩ := ih x hx
      exact ⟨y, List.mem_cons_of_mem b hy, hxy⟩

theorem rel_refl {r : α → α → Prop} (hr : ∀ x, r x x) (x : Option α) : Option.Rel r x x := by
  cases x with
  | none => exact .none
  | some x => exact .some (hr x)

/-- Changing one entry changes what is found under its name only. -/
theorem rel_lookup_replace {r : β → β → Prop} (hr : ∀ x, r x x) {n name : String} {x y : β}
    (h : n = name → r x y) (before after : List (String × β)) :
    Option.Rel r ((before ++ (n, x) :: after).lookup name)
      ((before ++ (n, y) :: after).lookup name) := by
  rw [List.lookup_append, List.lookup_append, List.lookup_cons, List.lookup_cons]
  cases before.lookup name with
  | some z => exact rel_refl hr _
  | none =>
      by_cases heq : name = n
      · rw [heq, beq_self_eq_true]
        exact .some (h heq.symm)
      · rw [beq_false_of_ne heq]
        exact rel_refl hr _

theorem lookup_map_entry {γ : Type} (f : String → β → γ) (name : String)
    (entries : List (String × β)) :
    (entries.map fun e => (e.1, f e.1 e.2)).lookup name = (entries.lookup name).map (f name) := by
  induction entries with
  | nil => rfl
  | cons entry entries ih =>
      rw [List.map_cons, List.lookup_cons, List.lookup_cons, ih]
      by_cases h : name = entry.1
      · rw [h, beq_self_eq_true, Option.map_some]
      · rw [beq_false_of_ne h]

theorem lookup_map_filter {γ : Type} [BEq γ] [LawfulBEq γ] (p : α → Bool) (key : α → γ) (f : α → β)
    (k : γ) (xs : List α) : ((xs.filter p).map fun x => (key x, f x)).lookup k =
      (xs.find? fun x => p x && key x == k).map f := by
  induction xs with
  | nil => rfl
  | cons x xs ih =>
      by_cases hp : p x = true
      · by_cases hk : key x = k
        · simp [hp, hk]
        · have hne : (k == key x) = false := by simpa using Ne.symm hk
          simp [hp, hk, hne, List.lookup_cons, ih]
      · simp [hp, ih]

theorem lookup_filter_key (p : String → Bool) (name : String) (entries : List (String × β)) :
    (entries.filter fun e => p e.1).lookup name =
      if p name then entries.lookup name else none := by
  induction entries with
  | nil => simp
  | cons entry entries ih =>
      rw [List.filter_cons, List.lookup_cons]
      by_cases h : name = entry.1
      · rw [h] at ih ⊢
        by_cases hp : p entry.1 = true
        · rw [if_pos hp, if_pos hp, List.lookup_cons, beq_self_eq_true]
        · rw [if_neg hp, ih, if_neg hp, if_neg hp]
      · rw [beq_false_of_ne h, ← ih]
        split
        · rw [List.lookup_cons, beq_false_of_ne h]
        · rfl

theorem lookup_filter_ne (gone name : String) (entries : List (String × β)) :
    (entries.filter fun e => !(e.1 == gone)).lookup name =
      if name == gone then none else entries.lookup name := by
  rw [lookup_filter_key fun other => !(other == gone)]
  cases name == gone <;> rfl

/-- The parts of a list by key make up the list, when every key has a part. -/
theorem flatMap_filter_perm [DecidableEq β] (key : α → β) {ks : List β} (hks : ks.Nodup)
    {xs : List α} (h : ∀ x ∈ xs, key x ∈ ks) :
    (ks.flatMap fun k => xs.filter fun x => key x == k).Perm xs := by
  induction ks generalizing xs with
  | nil =>
      have hnil : xs = [] := List.eq_nil_iff_forall_not_mem.mpr fun x hx => by simpa using h x hx
      simp [hnil]
  | cons k ks ih =>
      obtain ⟨hk, hks⟩ := List.nodup_cons.mp hks
      have hrest : ∀ x ∈ xs.filter (fun x => !(key x == k)), key x ∈ ks := by
        intro x hx
        obtain ⟨hx, hne⟩ := List.mem_filter.mp hx
        exact (List.mem_cons.mp (h x hx)).resolve_left (by simpa using hne)
      have hparts : (ks.flatMap fun j => xs.filter fun x => key x == j) =
          ks.flatMap fun j => (xs.filter fun x => !(key x == k)).filter fun x => key x == j := by
        refine List.flatMap_congr fun j hj => ?_
        have hjk : j ≠ k := fun heq => hk (heq ▸ hj)
        rw [List.filter_filter]
        refine List.filter_congr fun x _ => ?_
        by_cases hxj : key x = j <;> simp [hxj, hjk]
      rw [List.flatMap_cons, hparts]
      exact ((ih hks hrest).append_left _).trans (List.filter_append_perm _ xs)

namespace Table

theorem insert_perm {name : String} (x : α) {t : List (String × α)} (h : name ∉ t.map Prod.fst) :
    (insert name x t).Perm ((name, x) :: t) := by
  induction t with
  | nil => exact .refl _
  | cons entry t ih =>
      obtain ⟨n, y⟩ := entry
      obtain ⟨hne, ht⟩ := not_or.mp (mt List.mem_cons.mpr h)
      rw [insert, if_neg hne]
      split
      case isTrue => exact .refl _
      case isFalse => exact ((ih ht).cons (n, y)).trans (.swap _ _ _)

theorem ofList_concat (entries : List (String × α)) (entry : String × α) :
    ofList (entries ++ [entry]) = insert entry.1 entry.2 (ofList entries) := by
  rw [ofList, List.foldl_append]
  rfl

theorem ofList_perm {entries : List (String × α)} (h : (entries.map Prod.fst).Nodup) :
    (ofList entries).Perm entries := by
  induction entries using List.reverseRecOn with
  | nil => exact .refl _
  | append_singleton entries entry ih =>
      rw [List.map_append, List.nodup_append] at h
      obtain ⟨hentries, _, hdisjoint⟩ := h
      have hperm := ih hentries
      have hnew : entry.1 ∉ (ofList entries).map Prod.fst := by
        intro hmem
        have hold := (hperm.map Prod.fst).mem_iff.mp hmem
        exact hdisjoint _ hold _ (List.mem_singleton_self _) rfl
      rw [ofList_concat]
      exact (insert_perm entry.2 hnew).trans
        ((hperm.cons entry).trans (List.perm_append_singleton entry entries).symm)

end Table

end ApiCommands
