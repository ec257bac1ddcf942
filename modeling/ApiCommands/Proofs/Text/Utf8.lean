import ApiCommands.Text.Utf8
import Mathlib.Data.String.Basic

namespace ApiCommands.Text.Utf8

/-!
# The order of bytes

Texts are ordered like their bytes. The first byte tells how many bytes a character has, and
characters of one length differ first where their digits to the base 64 do.
-/

theorem encodeChar_ne_nil (c : Char) : encodeChar c ≠ [] := by
  rw [encodeChar]
  split
  case isTrue => simp
  case isFalse =>
    split
    case isTrue => simp
    case isFalse => split <;> simp

theorem toNat_toUInt8 {n : Nat} (h : n < 256) : n.toUInt8.toNat = n := by
  rw [Nat.toUInt8_eq, UInt8.toNat_ofNat_of_lt' h]

theorem toUInt8_lt_iff {a b : Nat} (ha : a < 256) (hb : b < 256) :
    a.toUInt8 < b.toUInt8 ↔ a < b := by
  rw [UInt8.lt_iff_toNat_lt, toNat_toUInt8 ha, toNat_toUInt8 hb]

theorem toUInt8_inj {a b : Nat} (ha : a < 256) (hb : b < 256) :
    a.toUInt8 = b.toUInt8 ↔ a = b := by
  rw [← UInt8.toNat_inj, toNat_toUInt8 ha, toNat_toUInt8 hb]

theorem toNat_lt (c : Char) : c.toNat < 0x110000 := by
  rcases c.valid with h | h
  · have hlow : c.toNat < 0xD800 := h
    omega
  · exact h.2

theorem encodeChar_append_lt {c d : Char} (h : c < d) (xs ys : List UInt8) :
    encodeChar c ++ xs < encodeChar d ++ ys := by
  have hlt : c.toNat < d.toNat := h
  have hd := toNat_lt d
  simp only [encodeChar]
  split_ifs
  all_goals
    simp (disch := omega) only [List.cons_append, List.nil_append, List.cons_lt_cons_iff,
      toUInt8_lt_iff, toUInt8_inj]
    omega

theorem flatMap_encodeChar_lt {cs ds : List Char} (h : cs < ds) :
    cs.flatMap encodeChar < ds.flatMap encodeChar := by
  induction cs generalizing ds with
  | nil =>
      cases ds with
      | nil => exact (List.not_lt_nil _ h).elim
      | cons d ds =>
          obtain ⟨b, bs, hbytes⟩ := List.exists_cons_of_ne_nil (encodeChar_ne_nil d)
          rw [List.flatMap_nil, List.flatMap_cons, hbytes]
          exact List.nil_lt_cons b _
  | cons c cs ih =>
      cases ds with
      | nil => exact (List.not_lt_nil _ h).elim
      | cons d ds =>
          rw [List.flatMap_cons, List.flatMap_cons]
          rcases List.cons_lt_cons_iff.mp h with hlt | ⟨rfl, hlt⟩
          · exact encodeChar_append_lt hlt _ _
          · exact List.append_left_lt (ih hlt)

theorem encode_lt_encode {s t : String} (h : s < t) : encode s < encode t :=
  flatMap_encodeChar_lt (String.lt_iff_toList_lt.mp h)

end ApiCommands.Text.Utf8
