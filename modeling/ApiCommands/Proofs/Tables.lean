import ApiCommands.Proofs.Keys
import Mathlib.Data.String.Basic

namespace ApiCommands

/-!
# Sorted tables

The names of a table are strictly increasing, and under each name stands the last entry of that
name. So a table is told by its entries, whatever order they come in, as long as no two of them
have the same name.
-/

variable {α : Type}

/-- A list in a strict order is told by its elements. -/
theorem eq_of_pairwise {r : α → α → Prop} (hasymm : ∀ a b, r a b → ¬r b a) {xs ys : List α}
    (hxs : xs.Pairwise r) (hys : ys.Pairwise r) (h : ∀ x, x ∈ xs ↔ x ∈ ys) : xs = ys := by
  have hnodup : ∀ {zs : List α}, zs.Pairwise r → zs.Nodup := by
    intro zs hzs
    apply hzs.imp
    rintro a b hab rfl
    exact hasymm a a hab hab
  have hanti : ∀ a b, a ∈ xs → b ∈ ys → r a b → r b a → a = b := by
    intro a b _ _ hab hba
    exact (hasymm a b hab hba).elim
  apply List.Perm.eq_of_pairwise hanti hxs hys
  exact (List.perm_ext_iff_of_nodup (hnodup hxs) (hnodup hys)).mpr h

namespace Table

theorem lookup_insert_of_ne {name other : String} (h : other ≠ name) (x : α)
    (t : List (String × α)) : (insert name x t).lookup other = t.lookup other := by
  have hne : (other == name) = false := by simpa using h
  induction t with
  | nil => simp [insert, List.lookup_cons, hne]
  | cons entry t ih =>
      obtain ⟨n, y⟩ := entry
      rw [insert]
      split
      case isTrue heq =>
        subst heq
        simp [List.lookup_cons, hne]
      case isFalse =>
        split
        · simp [List.lookup_cons, hne]
        · rw [List.lookup_cons, List.lookup_cons, ih]

theorem lookup_ofList (entries : List (String × α)) (name : String) :
    (ofList entries).lookup name = entries.reverse.lookup name := by
  induction entries using List.reverseRecOn with
  | nil => rfl
  | append_singleton entries entry ih =>
      obtain ⟨n, x⟩ := entry
      rw [ofList_concat, List.reverse_concat, List.lookup_cons]
      by_cases h : name = n
      · rw [h, lookup_insert_self, beq_self_eq_true]
      · rw [lookup_insert_of_ne h, ih, beq_false_of_ne h]

theorem mem_map_fst_insert {name other : String} {x : α} {t : List (String × α)} :
    other ∈ (insert name x t).map Prod.fst → other = name ∨ other ∈ t.map Prod.fst := by
  induction t with
  | nil => simp [insert]
  | cons entry t ih =>
      obtain ⟨n, y⟩ := entry
      rw [insert]
      split
      case isTrue heq =>
        intro h
        rcases List.mem_cons.mp h with h | h
        · exact Or.inl h
        · exact Or.inr (List.mem_cons_of_mem n h)
      case isFalse =>
        split
        · intro h
          exact List.mem_cons.mp h
        · intro h
          rcases List.mem_cons.mp h with h | h
          · exact Or.inr (h ▸ List.mem_cons_self)
          · exact (ih h).imp_right (List.mem_cons_of_mem n)

theorem pairwise_insert (name : String) (x : α) {t : List (String × α)}
    (h : (t.map Prod.fst).Pairwise (· < ·)) :
    ((insert name x t).map Prod.fst).Pairwise (· < ·) := by
  induction t with
  | nil => exact List.pairwise_singleton _ _
  | cons entry t ih =>
      obtain ⟨n, y⟩ := entry
      obtain ⟨hn, ht⟩ := List.pairwise_cons.mp (List.map_cons ▸ h)
      rw [insert]
      split
      case isTrue heq =>
        subst heq
        exact h
      case isFalse hne =>
        split
        case isTrue hlt =>
          refine List.pairwise_cons.mpr ⟨?_, h⟩
          intro other hother
          rcases List.mem_cons.mp hother with rfl | hother
          · exact hlt
          · exact lt_trans hlt (hn other hother)
        case isFalse hnot =>
          refine List.pairwise_cons.mpr ⟨?_, ih ht⟩
          intro other hother
          rcases mem_map_fst_insert hother with rfl | hother
          · exact lt_of_le_of_ne (not_lt.mp hnot) (Ne.symm hne)
          · exact hn other hother

theorem pairwise_ofList (entries : List (String × α)) :
    ((ofList entries).map Prod.fst).Pairwise (· < ·) := by
  induction entries using List.reverseRecOn with
  | nil => exact List.Pairwise.nil
  | append_singleton entries entry ih =>
      rw [ofList_concat]
      exact pairwise_insert entry.1 entry.2 ih

theorem nodup_ofList (entries : List (String × α)) : ((ofList entries).map Prod.fst).Nodup := by
  apply (pairwise_ofList entries).imp
  intro a b h
  exact ne_of_lt h

theorem mem_ofList {entries : List (String × α)} {name : String} {x : α} :
    (name, x) ∈ ofList entries ↔ entries.reverse.lookup name = some x := by
  rw [← lookup_ofList]
  constructor
  · exact lookup_of_mem (nodup_ofList entries)
  · exact mem_of_lookup

theorem ofList_congr {entries entries' : List (String × α)}
    (h : ∀ name, entries.reverse.lookup name = entries'.reverse.lookup name) :
    ofList entries = ofList entries' := by
  apply eq_of_pairwise (r := fun e e' => e.1 < e'.1)
  · intro a b hab hba
    exact lt_asymm hab hba
  · exact List.pairwise_map.mp (pairwise_ofList entries)
  · exact List.pairwise_map.mp (pairwise_ofList entries')
  · rintro ⟨name, x⟩
    rw [mem_ofList, mem_ofList, h name]

theorem ofList_eq_of_perm {entries entries' : List (String × α)}
    (hnodup : (entries.map Prod.fst).Nodup) (hperm : entries.Perm entries') :
    ofList entries = ofList entries' := by
  apply ofList_congr
  intro name
  exact lookup_eq_of_perm (List.map_reverse ▸ List.nodup_reverse.mpr hnodup)
    ((List.reverse_perm _).trans (hperm.trans (List.reverse_perm _).symm)) name

end Table

end ApiCommands
