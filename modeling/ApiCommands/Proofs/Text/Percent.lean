import ApiCommands.Proofs.Text.Utf8
import ApiCommands.Text.Percent

namespace ApiCommands.Text

/-!
# The alphabet of percent encoding

An encoded text holds unreserved characters and percent signs only, so it holds no mark. No
character is encoded as nothing.
-/

theorem isUnreserved_upperHexDigit {n : Nat} (h : n < 16) :
    isUnreserved (upperHexDigit n) = true := by
  have hall : ∀ m : Fin 16, isUnreserved (upperHexDigit m.val) = true := by decide
  exact hall ⟨n, h⟩

theorem toNat_lt_of_isAlphanum {c : Char} (h : c.isAlphanum = true) : c.toNat < 0x80 := by
  have halpha : c.isAlpha = (decide ('A'.val ≤ c.val ∧ c.val ≤ 'Z'.val) ||
      (decide ('a'.val ≤ c.val) && decide (c.val ≤ 'z'.val))) := rfl
  simp only [Char.isAlphanum, halpha, Char.isDigit, Bool.or_eq_true, Bool.and_eq_true,
    decide_eq_true_eq, ge_iff_le, UInt32.le_iff_toNat_le] at h
  have hval : c.toNat = c.val.toNat := rfl
  have hupper : 'Z'.val.toNat = 0x5A := rfl
  have hlower : 'z'.val.toNat = 0x7A := rfl
  have hdigit : '9'.val.toNat = 0x39 := rfl
  omega

theorem toNat_lt_of_isUnreserved {c : Char} (h : isUnreserved c = true) : c.toNat < 0x80 := by
  simp only [isUnreserved, Bool.or_eq_true, beq_iff_eq] at h
  rcases h with (((h | rfl) | rfl) | rfl) | rfl
  case inl.inl.inl.inl => exact toNat_lt_of_isAlphanum h
  all_goals decide

theorem isUnreserved_or_percent {cs : List Char} {c : Char} (h : c ∈ percentChars cs) :
    isUnreserved c = true ∨ c = '%' := by
  obtain ⟨d, _, hc⟩ := List.mem_flatMap.mp h
  rw [percentChar] at hc
  split at hc
  case isTrue hd => exact Or.inl (List.mem_singleton.mp hc ▸ hd)
  case isFalse =>
    obtain ⟨b, _, hb⟩ := List.mem_flatMap.mp hc
    have hhigh : b.toNat / 16 < 16 := by
      have := b.toNat_lt
      omega
    have hlow : b.toNat % 16 < 16 := Nat.mod_lt _ (by decide)
    simp only [percentByte, List.mem_cons, List.not_mem_nil, or_false] at hb
    rcases hb with rfl | rfl | rfl
    · exact Or.inr rfl
    · exact Or.inl (isUnreserved_upperHexDigit hhigh)
    · exact Or.inl (isUnreserved_upperHexDigit hlow)

/-- A character that is written as bytes and is no part of what is written. -/
def IsMark (c : Char) : Prop := ¬(isUnreserved c = true ∨ c = '%')

instance (c : Char) : Decidable (IsMark c) :=
  inferInstanceAs (Decidable ¬(isUnreserved c = true ∨ c = '%'))

theorem notMem_percentChars {c : Char} (hc : IsMark c) (cs : List Char) : c ∉ percentChars cs :=
  fun h => hc (isUnreserved_or_percent h)

theorem openBrace_notMem_percentChars (cs : List Char) : '{' ∉ percentChars cs :=
  notMem_percentChars (by decide) cs

theorem percentChar_ne_nil (c : Char) : percentChar c ≠ [] := by
  rw [percentChar]
  split
  case isTrue => simp
  case isFalse =>
    obtain ⟨b, bytes, hbytes⟩ := List.exists_cons_of_ne_nil (Utf8.encodeChar_ne_nil c)
    simp [hbytes, percentByte]

theorem percentChars_ne_nil {cs : List Char} (h : cs ≠ []) : percentChars cs ≠ [] := by
  obtain ⟨c, cs, rfl⟩ := List.exists_cons_of_ne_nil h
  rw [percentChars_cons]
  exact List.append_ne_nil_of_left_ne_nil (percentChar_ne_nil c) _

end ApiCommands.Text
