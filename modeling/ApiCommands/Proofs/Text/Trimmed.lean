import ApiCommands.Text.Blank
import Mathlib.Data.List.DropRight

namespace ApiCommands.Text

/-!
# Texts cut at the ends

What is cut off an end of a text is of one class of characters. So texts of which one character is
cut off to leave the same differ in how often they end with it, and a text without blanks is what
is left of it within blanks.
-/

variable {p : Char → Bool}

theorem exists_dropEndWhile_append (p : Char → Bool) (cs : List Char) :
    ∃ ending, cs = dropEndWhile p cs ++ ending ∧ ∀ c ∈ ending, p c = true :=
  ⟨cs.rtakeWhile p, List.rdropWhile_append_rtakeWhile.symm, fun _ => List.mem_rtakeWhile_imp⟩

theorem dropEndWhile_append_of_pos {ending : List Char} (h : ∀ c ∈ ending, p c = true)
    (cs : List Char) : dropEndWhile p (cs ++ ending) = dropEndWhile p cs := by
  have hreverse : ∀ c ∈ ending.reverse, p c = true := fun c hc => h c (List.mem_reverse.mp hc)
  rw [dropEndWhile, List.reverse_append, List.dropWhile_append_of_pos hreverse, dropEndWhile]

theorem dropEndWhile_of_neg {cs : List Char} (h : ∀ c ∈ cs, p c = false) :
    dropEndWhile p cs = cs := by
  refine List.rdropWhile_eq_self_iff.mpr fun hne => ?_
  rw [h _ (List.getLast_mem hne)]
  exact Bool.false_ne_true

/-- Cutting a character off the end leaves a text that ends otherwise. -/
theorem exists_replicate_dropEndWhile (c : Char) (cs : List Char) :
    (∃ n, cs = dropEndWhile (· == c) cs ++ List.replicate n c) ∧
      (dropEndWhile (· == c) cs).getLast? ≠ some c := by
  obtain ⟨ending, hcs, hending⟩ := exists_dropEndWhile_append (· == c) cs
  constructor
  · refine ⟨ending.length, ?_⟩
    rw [← List.eq_replicate_of_mem fun d hd => beq_iff_eq.mp (hending d hd)]
    exact hcs
  · intro hlast
    obtain ⟨hne, hlast⟩ := List.mem_getLast?_eq_getLast hlast
    exact List.rdropWhile_last_not _ _ hne (beq_iff_eq.mpr hlast.symm)

theorem dropEndWhile_append_replicate (c : Char) (cs : List Char) (n : Nat) :
    dropEndWhile (· == c) (cs ++ List.replicate n c) = dropEndWhile (· == c) cs :=
  dropEndWhile_append_of_pos (fun _ hd => beq_iff_eq.mpr (List.eq_of_mem_replicate hd)) cs

theorem dropEndWhile_eq_iff {c : Char} {cs ds : List Char} :
    dropEndWhile (· == c) cs = dropEndWhile (· == c) ds ↔
      ∃ j k, cs ++ List.replicate j c = ds ++ List.replicate k c := by
  constructor
  · intro h
    obtain ⟨n, hcs⟩ := (exists_replicate_dropEndWhile c cs).1
    obtain ⟨m, hds⟩ := (exists_replicate_dropEndWhile c ds).1
    refine ⟨m, n, ?_⟩
    rw [hcs, hds, h, List.append_assoc, List.append_assoc, List.replicate_append_replicate,
      List.replicate_append_replicate, Nat.add_comm]
  · rintro ⟨j, k, h⟩
    rw [← dropEndWhile_append_replicate c cs j, h, dropEndWhile_append_replicate]

theorem exists_blanks_trim (s : String) :
    ∃ before after, s.toList = before ++ (trim s).toList ++ after ∧
      ∀ c ∈ before ++ after, isBlank c = true := by
  obtain ⟨after, hrest, hafter⟩ :=
    exists_dropEndWhile_append isBlank (s.toList.dropWhile isBlank)
  refine ⟨s.toList.takeWhile isBlank, after, ?_, List.forall_mem_append.mpr ⟨?_, hafter⟩⟩
  · rw [trim, String.toList_ofList, List.append_assoc, ← hrest, List.takeWhile_append_dropWhile]
  · exact fun c hc => List.mem_takeWhile_imp hc

theorem toList_trim {s : String} {before inner after : List Char}
    (hs : s.toList = before ++ inner ++ after) (hblank : ∀ c ∈ before ++ after, isBlank c = true)
    (hinner : ∀ c ∈ inner, isBlank c = false) : (trim s).toList = inner := by
  obtain ⟨hbefore, hafter⟩ := List.forall_mem_append.mp hblank
  rw [trim, String.toList_ofList, hs, List.append_assoc, List.dropWhile_append_of_pos hbefore]
  cases inner with
  | nil => rw [List.nil_append, List.dropWhile_eq_nil_iff.mpr hafter, dropEndWhile_nil]
  | cons c inner =>
      have hc : isBlank c = false := hinner c List.mem_cons_self
      rw [List.cons_append, List.dropWhile_cons_of_neg (by simp [hc]), ← List.cons_append,
        dropEndWhile_append_of_pos hafter, dropEndWhile_of_neg hinner]

end ApiCommands.Text
