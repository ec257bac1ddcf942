import ApiCommands.Proofs.Decimal.Reading
import ApiCommands.Proofs.Decimal.Rounding

namespace ApiCommands.Decimal

/-!
# Plain decimals

A plain decimal is written as digits, with a point only before other digits, and never with a zero
that could be left out.
-/

/-- The number that digits denote after others. -/
def digitsNat (acc : Nat) (ds : List Nat) : Nat := ds.foldl (fun n d => n * 10 + d) acc

theorem digitsNat_append (acc : Nat) (ds ds' : List Nat) :
    digitsNat acc (ds ++ ds') = digitsNat (digitsNat acc ds) ds' := List.foldl_append

theorem mul_pow_le_digitsNat (acc : Nat) (ds : List Nat) :
    acc * 10 ^ ds.length ≤ digitsNat acc ds := by
  induction ds generalizing acc with
  | nil => simp [digitsNat]
  | cons d ds ih =>
      calc acc * 10 ^ (ds.length + 1) = acc * 10 * 10 ^ ds.length := by ring
        _ ≤ (acc * 10 + d) * 10 ^ ds.length := by gcongr; omega
        _ ≤ digitsNat (acc * 10 + d) ds := ih _

theorem digitsNat_lt {ds : List Nat} (h : ∀ d ∈ ds, d < 10) (acc : Nat) :
    digitsNat acc ds < (acc + 1) * 10 ^ ds.length := by
  induction ds generalizing acc with
  | nil => simp [digitsNat]
  | cons d ds ih =>
      obtain ⟨hd, hrest⟩ := List.forall_mem_cons.mp h
      calc digitsNat (acc * 10 + d) ds < (acc * 10 + d + 1) * 10 ^ ds.length := ih hrest _
        _ ≤ (acc + 1) * 10 * 10 ^ ds.length := by gcongr; omega
        _ = (acc + 1) * 10 ^ (ds.length + 1) := by ring

theorem digitsNat_replicate_zero (acc k : Nat) :
    digitsNat acc (List.replicate k 0) = acc * 10 ^ k := by
  induction k generalizing acc with
  | zero => simp [digitsNat]
  | succ k ih =>
      calc digitsNat (acc * 10 + 0) (List.replicate k 0) = (acc * 10 + 0) * 10 ^ k := ih _
        _ = acc * 10 ^ (k + 1) := by ring

theorem digitsNat_map_natDigits (n : Nat) : digitsNat 0 ((natDigits n).map digitValue) = n := by
  have hvalue : Nat.ofDigitChars 10 (natDigits n) 0 = n :=
    Nat.ofDigitChars_toDigits (by decide) (by decide)
  rw [digitsNat, List.foldl_map]
  simp only [mul_comm _ 10]
  exact hvalue

theorem digitValue_lt {c : Char} (h : isDigit c = true) : digitValue c < 10 := by
  have hle : c.toNat ≤ '9'.toNat := by
    simp only [isDigit, Bool.and_eq_true, decide_eq_true_eq] at h
    exact h.2
  have hnine : '9'.toNat = 57 := rfl
  rw [digitValue]
  omega

theorem lt_of_mem_map_digitValue {cs : List Char} (h : ∀ c ∈ cs, isDigit c = true) :
    ∀ d ∈ cs.map digitValue, d < 10 := by
  intro d hd
  obtain ⟨c, hc, rfl⟩ := List.mem_map.mp hd
  exact digitValue_lt (h c hc)

/-- The digits before the point, and those after it where there is one. -/
def parts (ds : List Char) (whole : Int) : List Char × Option (List Char) :=
  if whole ≤ 0 then (['0'], some (List.replicate (-whole).toNat '0' ++ ds))
  else if ds.length ≤ whole.toNat then
    (ds ++ List.replicate (whole.toNat - ds.length) '0', none)
  else (ds.take whole.toNat, some (ds.drop whole.toNat))

def pointText : Option (List Char) → List Char
  | none => []
  | some ds => '.' :: ds

theorem positional_plain (ds : List Char) (whole : Int) :
    positional plain ds whole = (parts ds whole).1 ++ pointText (parts ds whole).2 := by
  rw [positional, parts]
  split
  case isTrue => rfl
  case isFalse =>
    dsimp only
    split
    case isTrue => rfl
    case isFalse => rfl

namespace Digits

def parts (d : Digits) : List Char × Option (List Char) :=
  Decimal.parts (natDigits d.coefficient) (d.exponent + (natDigits d.coefficient).length)

def value (d : Digits) : ℚ := d.coefficient * 10 ^ d.exponent

end Digits

theorem digitsText_plain (d : Digits) :
    digitsText plain d = d.parts.1 ++ pointText d.parts.2 := by
  rw [digitsText, plain]
  dsimp only
  rw [Bool.false_and, if_neg Bool.false_ne_true, Int.sub_add_cancel]
  exact positional_plain _ _

/-- Digits and, where there is a fraction, more of them; a zero before the point stands alone. -/
structure IsNumeral (whole : List Char) (fraction : Option (List Char)) : Prop where
  whole_ne_nil : whole ≠ []
  isDigit_whole : ∀ c ∈ whole, isDigit c = true
  zero_alone : ∀ rest, whole = '0' :: rest → rest = []
  fraction_ne_nil : ∀ f ∈ fraction, f ≠ []
  isDigit_fraction : ∀ f ∈ fraction, ∀ c ∈ f, isDigit c = true

/-- Digits that begin with a zero denote a number that has fewer digits. -/
theorem zero_alone_natDigits {n : Nat} {rest : List Char} (h : natDigits n = '0' :: rest) :
    rest = [] := by
  by_contra hne
  have hdigits : ∀ c ∈ rest, isDigit c = true := fun c hc =>
    isDigit_of_mem_natDigits (h ▸ List.mem_cons_of_mem _ hc)
  have hvalue : digitsNat 0 (rest.map digitValue) = n := by
    have hall := digitsNat_map_natDigits n
    rwa [h] at hall
  have hlt : n < 10 ^ rest.length := by
    have hbound := digitsNat_lt (lt_of_mem_map_digitValue hdigits) 0
    rwa [hvalue, List.length_map, zero_add, one_mul] at hbound
  have hlength : (natDigits n).length ≤ rest.length :=
    (Nat.length_toDigits_le_iff (by decide) (List.length_pos_iff.mpr hne)).mpr hlt
  rw [h, List.length_cons] at hlength
  omega

theorem isNumeral_natDigits (n : Nat) : IsNumeral (natDigits n) none where
  whole_ne_nil := Nat.toDigits_ne_nil
  isDigit_whole _ := isDigit_of_mem_natDigits
  zero_alone _ := zero_alone_natDigits
  fraction_ne_nil := nofun
  isDigit_fraction := nofun

theorem isDigit_of_mem_zeros {k : Nat} {c : Char} (h : c ∈ List.replicate k '0') :
    isDigit c = true := by
  rw [List.eq_of_mem_replicate h]
  decide

namespace IsNumeral

variable {ds : List Char}

theorem zero_point (h : IsNumeral ds none) (k : Nat) :
    IsNumeral ['0'] (some (List.replicate k '0' ++ ds)) where
  whole_ne_nil := List.cons_ne_nil _ _
  isDigit_whole _ := isDigit_of_mem_zeros (k := 1)
  zero_alone _ hzero := (List.cons.inj hzero).2.symm
  fraction_ne_nil := by
    rintro f ⟨⟩
    exact List.append_ne_nil_of_right_ne_nil _ h.whole_ne_nil
  isDigit_fraction := by
    rintro f ⟨⟩ c hc
    exact (List.mem_append.mp hc).elim isDigit_of_mem_zeros (h.isDigit_whole c)

theorem append_zeros (h : IsNumeral ds none) {k : Nat} (hk : ds = ['0'] → k = 0) :
    IsNumeral (ds ++ List.replicate k '0') none where
  whole_ne_nil := List.append_ne_nil_of_left_ne_nil h.whole_ne_nil _
  isDigit_whole c hc := (List.mem_append.mp hc).elim (h.isDigit_whole c) isDigit_of_mem_zeros
  zero_alone := by
    intro rest hzero
    obtain ⟨c, cs, rfl⟩ := List.exists_cons_of_ne_nil h.whole_ne_nil
    obtain ⟨rfl, rfl⟩ := List.cons.inj hzero
    obtain rfl := h.zero_alone cs rfl
    rw [hk rfl]
    rfl
  fraction_ne_nil := nofun
  isDigit_fraction := nofun

theorem take_drop (h : IsNumeral ds none) {n : Nat} (hn : n ≠ 0) (hlt : n < ds.length) :
    IsNumeral (ds.take n) (some (ds.drop n)) where
  whole_ne_nil hnil := (List.take_eq_nil_iff.mp hnil).elim hn h.whole_ne_nil
  isDigit_whole c hc := h.isDigit_whole c (List.mem_of_mem_take hc)
  zero_alone := by
    intro rest hzero
    obtain ⟨c, cs, rfl⟩ := List.exists_cons_of_ne_nil h.whole_ne_nil
    obtain ⟨m, rfl⟩ := Nat.exists_eq_succ_of_ne_zero hn
    obtain ⟨rfl, rfl⟩ := List.cons.inj hzero
    obtain rfl := h.zero_alone cs rfl
    exact List.take_nil
  fraction_ne_nil := by
    rintro f ⟨⟩ hnil
    exact (List.drop_eq_nil_iff.mp hnil).not_gt hlt
  isDigit_fraction := by
    rintro f ⟨⟩ c hc
    exact h.isDigit_whole c (List.mem_of_mem_drop hc)

theorem lt_of_mem_fraction {fraction : Option (List Char)} (h : IsNumeral ds fraction) :
    ∀ d ∈ (fraction.map (·.map digitValue)).getD [], d < 10 := by
  cases fraction with
  | none => nofun
  | some f => exact lt_of_mem_map_digitValue (h.isDigit_fraction f rfl)

end IsNumeral

theorem eq_zero_of_natDigits {n : Nat} (h : natDigits n = ['0']) : n = 0 := by
  have hvalue := digitsNat_map_natDigits n
  rw [h] at hvalue
  exact hvalue.symm

/-- A decimal is written as a numeral, where zero is not written as a multiple of ten. -/
theorem isNumeral_parts {d : Digits} (h : d.coefficient = 0 → d.exponent ≤ 0) :
    IsNumeral d.parts.1 d.parts.2 := by
  have hnumeral := isNumeral_natDigits d.coefficient
  rw [Digits.parts, parts]
  split
  case isTrue => exact hnumeral.zero_point _
  case isFalse hwhole =>
    split
    case isTrue =>
      refine hnumeral.append_zeros fun hzero => ?_
      have hexponent := h (eq_zero_of_natDigits hzero)
      rw [hzero, List.length_singleton]
      omega
    case isFalse hlength => exact hnumeral.take_drop (by omega) (by omega)

/-- The digits before the point denote no more than the decimal. -/
theorem digitsNat_parts_le (d : Digits) :
    (digitsNat 0 (d.parts.1.map digitValue) : ℚ) ≤ d.value := by
  have hall := digitsNat_map_natDigits d.coefficient
  rw [Digits.parts, parts, Digits.value]
  generalize natDigits d.coefficient = ds at *
  split
  case isTrue =>
    have hzero : digitsNat 0 (['0'].map digitValue) = 0 := rfl
    rw [hzero]
    positivity
  case isFalse hwhole =>
    split
    case isTrue hlength =>
      obtain ⟨k, hk⟩ := Int.eq_ofNat_of_zero_le (show 0 ≤ d.exponent by omega)
      have hzeros : (d.exponent + ds.length).toNat - ds.length = k := by omega
      have hzero : digitValue '0' = 0 := rfl
      rw [hzeros, List.map_append, List.map_replicate, hzero, digitsNat_append, hall,
        digitsNat_replicate_zero, hk, Nat.cast_mul, Nat.cast_pow, Nat.cast_ofNat, zpow_natCast]
    case isFalse hlength =>
      generalize hn : (d.exponent + ds.length).toNat = n at *
      obtain ⟨k, hk⟩ := Int.eq_ofNat_of_zero_le (show 0 ≤ -d.exponent by omega)
      have hlength : ((ds.drop n).map digitValue).length = k := by
        rw [List.length_map, List.length_drop]
        omega
      have hle : digitsNat 0 ((ds.take n).map digitValue) * 10 ^ k ≤ d.coefficient := by
        rw [← hall, ← List.take_append_drop n ds, List.map_append, digitsNat_append,
          List.take_append_drop, ← hlength]
        exact mul_pow_le_digitsNat _ _
      have hexponent : d.exponent = -(k : Int) := by omega
      rw [hexponent, zpow_neg, zpow_natCast, ← div_eq_mul_inv, le_div_iff₀ (by positivity)]
      exact_mod_cast hle

end ApiCommands.Decimal
