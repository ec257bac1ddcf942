import ApiCommands.Decimal.Shortest
import ApiCommands.Proofs.Decimal.Rounding

namespace ApiCommands.Decimal

/-!
# Rounding to the nearest number

A ratio is rounded to a number exactly where it lies in the interval of that number: no farther
from it than from its neighbours, and at the same distance only where the number is the even one.
-/

/-- The significands and exponents of binary numbers, each number once. -/
structure Canonical (m : Nat) (e : Int) : Prop where
  bits : m < 2 ^ 53
  least : -1074 ≤ e
  most : e ≤ 971
  normal : 2 ^ 52 ≤ m ∨ e = -1074

/-- Whether a real lies in an interval of quarters of a power of two. -/
structure Interval.Spans (i : Interval) (exponent : Int) (x : ℚ) : Prop where
  low : i.low * 2 ^ (exponent - 2) ≤ x
  high : x ≤ i.high * 2 ^ (exponent - 2)
  inside : i.closed = false → i.low * 2 ^ (exponent - 2) < x ∧ x < i.high * 2 ^ (exponent - 2)

theorem divideEven_eq_of_near {num den m : Nat} (hden : 0 < den)
    (hlow : 2 * (m * den) ≤ 2 * num + den) (hhigh : 2 * num ≤ 2 * (m * den) + den)
    (hodd : m % 2 = 1 → 2 * (m * den) < 2 * num + den ∧ 2 * num < 2 * (m * den) + den) :
    divideEven num den = m := by
  have hsplit := Nat.div_add_mod num den
  have hmod := Nat.mod_lt num hden
  rw [divideEven]
  generalize num / den = q, num % den = r at *
  have hnext (k : Nat) : (q + k) * den = den * q + k * den := by ring
  have hle : q ≤ m := by
    by_contra hlt
    have hmul : (m + 1) * den ≤ q * den := Nat.mul_le_mul_right den (by omega)
    rw [Nat.add_mul, mul_comm q] at hmul
    omega
  have hge : m ≤ q + 1 := by
    by_contra hlt
    have hmul : (q + 2) * den ≤ m * den := Nat.mul_le_mul_right den (by omega)
    rw [hnext] at hmul
    omega
  obtain rfl | rfl : m = q ∨ m = q + 1 := by omega
  · rw [mul_comm m] at hhigh hodd
    split
    case isTrue => rfl
    case isFalse =>
      rw [if_neg (by omega)]
      omega
  · rw [hnext] at hlow hodd
    rw [if_neg (by omega)]
    split
    case isTrue => rfl
    case isFalse => omega

/-- The quotient is the whole number that is nearest. -/
theorem divideEven_eq {num den m : Nat} (hden : 0 < den) (hlow : (m : ℚ) - 1 / 2 ≤ num / den)
    (hhigh : (num : ℚ) / den ≤ m + 1 / 2)
    (hodd : m % 2 = 1 → (m : ℚ) - 1 / 2 < num / den ∧ (num : ℚ) / den < m + 1 / 2) :
    divideEven num den = m := by
  have hdenQ : (0 : ℚ) < den := by exact_mod_cast hden
  apply divideEven_eq_of_near hden
  · rw [le_div_iff₀ hdenQ] at hlow
    have hcast : (2 : ℚ) * (m * den) ≤ 2 * num + den := by linarith
    exact_mod_cast hcast
  · rw [div_le_iff₀ hdenQ] at hhigh
    have hcast : (2 : ℚ) * num ≤ 2 * (m * den) + den := by linarith
    exact_mod_cast hcast
  · intro hm
    obtain ⟨hlow, hhigh⟩ := hodd hm
    rw [lt_div_iff₀ hdenQ] at hlow
    rw [div_lt_iff₀ hdenQ] at hhigh
    have hcast : (2 : ℚ) * (m * den) < 2 * num + den := by linarith
    have hcast' : (2 : ℚ) * num < 2 * (m * den) + den := by linarith
    exact ⟨by exact_mod_cast hcast, by exact_mod_cast hcast'⟩

section Ratio

variable {num den : Nat}

theorem le_floorLog2 (hnum : num ≠ 0) (hden : 0 < den) {k : Int}
    (h : (2 : ℚ) ^ k ≤ num / den) : k ≤ floorLog2 num den := by
  have hlt := h.trans_lt (floorLog2_bounds hnum hden).2
  rw [zpow_lt_zpow_iff_right₀ one_lt_two] at hlt
  omega

theorem floorLog2_lt (hnum : num ≠ 0) (hden : 0 < den) {k : Int}
    (h : (num : ℚ) / den < 2 ^ k) : floorLog2 num den < k := by
  have hlt := (floorLog2_bounds hnum hden).1.trans_lt h
  rwa [zpow_lt_zpow_iff_right₀ one_lt_two] at hlt

/-- A ratio of 53 bits in some unit is rounded to that unit. -/
theorem unitOf_eq (hnum : num ≠ 0) (hden : 0 < den) {e : Int} {y : ℚ}
    (hy : (num : ℚ) / den = y * 2 ^ e) (hleast : -1074 ≤ e) (hlt : y < 2 ^ 53)
    (hge : e = -1074 ∨ 2 ^ 52 ≤ y) : unitOf num den = e := by
  have hpower : ∀ k : Nat, (2 : ℚ) ^ (e + k) = 2 ^ k * 2 ^ e := by
    intro k
    rw [zpow_add₀ two_ne_zero, mul_comm, zpow_natCast]
  have hupper : floorLog2 num den < e + (53 : Nat) := by
    apply floorLog2_lt hnum hden
    rw [hy, hpower]
    gcongr
  have hlower : e = -1074 ∨ e + (52 : Nat) ≤ floorLog2 num den := by
    refine hge.imp_right fun hge => le_floorLog2 hnum hden ?_
    rw [hy, hpower]
    gcongr
  rw [unitOf]
  omega

theorem ofRatio_eq_of_near (hnum : num ≠ 0) (hden : 0 < den) {m : Nat} {e : Int} {y : ℚ}
    (hy : (num : ℚ) / den = y * 2 ^ e) (hleast : -1074 ≤ e) (hlt : y < 2 ^ 53)
    (hge : e = -1074 ∨ 2 ^ 52 ≤ y) (hnear : (m : ℚ) - 1 / 2 ≤ y ∧ y ≤ m + 1 / 2)
    (hodd : m % 2 = 1 → (m : ℚ) - 1 / 2 < y ∧ y < m + 1 / 2) :
    Magnitude.ofRatio num den = if (carried m e).2 > 971 then .infinite
      else .finite (carried m e).1 (carried m e).2 := by
  have hunit := unitOf_eq hnum hden hy hleast hlt hge
  have hscaled : ((scaleTwo num den (-e)).1 : ℚ) / (scaleTwo num den (-e)).2 = y := by
    rw [ratio_scaleTwo, hy, mul_assoc, ← zpow_add₀ two_ne_zero, add_neg_cancel, zpow_zero, mul_one]
  have hrounded : roundedOf num den = m := by
    rw [roundedOf, hunit]
    rw [← hscaled] at hnear hodd
    exact divideEven_eq (scaleTwo_pos hden num _) hnear.1 hnear.2 hodd
  rw [ofRatio_eq hnum, hunit, hrounded]

theorem exists_units (x : ℚ) (e : Int) : ∃ y, x = y * 2 ^ e :=
  ⟨x * 2 ^ (-e), by rw [mul_assoc, ← zpow_add₀ two_ne_zero, neg_add_cancel, zpow_zero, mul_one]⟩

/-- In units of the last place, the interval of a number goes half a unit to both sides, and a
quarter below the least significand of a new power of two. -/
theorem bounds_of_spans {m : Nat} {e : Int} {y : ℚ}
    (h : (interval m e).Spans e (y * 2 ^ e)) :
    ((m : ℚ) - 1 / 2 ≤ y ∧ y ≤ m + 1 / 2) ∧
      (m % 2 = 1 → (m : ℚ) - 1 / 2 < y ∧ y < m + 1 / 2) ∧
      (m = 2 ^ 52 → e ≠ -1074 → (m : ℚ) - 1 / 4 ≤ y) := by
  have hpos : (0 : ℚ) < 2 ^ e := by positivity
  have hquarter : ∀ k : Nat, (k : ℚ) * 2 ^ (e - 2) = k / 4 * 2 ^ e := by
    intro k
    rw [zpow_sub₀ two_ne_zero]
    ring
  obtain ⟨hlow, hhigh, hinside⟩ := h
  simp only [hquarter, mul_le_mul_iff_left₀ hpos, mul_lt_mul_iff_left₀ hpos] at hlow hhigh hinside
  have hmid : (interval m e).high = 4 * m + 2 := rfl
  have hbelow : (4 * m : ℚ) - 2 ≤ (interval m e).low := by
    have hnat : 4 * m ≤ (interval m e).low + 2 := by
      rw [interval]
      dsimp only
      split <;> omega
    have hcast : (4 * m : ℚ) ≤ (interval m e).low + 2 := by exact_mod_cast hnat
    linarith
  rw [hmid] at hhigh hinside
  push_cast at hhigh hinside
  refine ⟨⟨by linarith, by linarith⟩, fun hodd => ?_, fun hleast hexponent => ?_⟩
  · have hopen : (interval m e).closed = false := by simp [interval, hodd]
    obtain ⟨hlow, hhigh⟩ := hinside hopen
    exact ⟨by linarith, by linarith⟩
  · have hlowest : (interval m e).low + 1 = 4 * m := by
      rw [interval]
      dsimp only
      rw [if_pos ⟨hleast, hexponent⟩]
      omega
    have hcast : ((interval m e).low : ℚ) + 1 = 4 * m := by exact_mod_cast hlowest
    linarith

/-- A ratio in the interval of a number is rounded to that number. -/
theorem ofRatio_eq_of_spans {m : Nat} {e : Int} (hden : 0 < den) (hcanon : Canonical m e)
    (hm : m ≠ 0) (h : (interval m e).Spans e (num / den)) :
    Magnitude.ofRatio num den = .finite m e := by
  obtain ⟨y, hy⟩ := exists_units ((num : ℚ) / den) e
  obtain ⟨⟨hlow, hhigh⟩, hodd, hquarter⟩ := bounds_of_spans (hy ▸ h)
  have hone : (1 : ℚ) ≤ m := by exact_mod_cast Nat.one_le_iff_ne_zero.mpr hm
  have hbits : (m : ℚ) + 1 ≤ 2 ^ 53 := by exact_mod_cast hcanon.bits
  have hnum : num ≠ 0 := by
    rintro rfl
    have hpos : (0 : ℚ) < y * 2 ^ e := mul_pos (by linarith) (by positivity)
    simp [← hy] at hpos
  by_cases hless : y < 2 ^ 52 ∧ e ≠ -1074
  · -- The ratio is below the least significand, so its unit is half of that of the number.
    obtain ⟨hless, hexponent⟩ := hless
    have hleast : m = 2 ^ 52 := by
      have hlt : (m : ℚ) < (2 ^ 52 + 1 : Nat) := by
        push_cast
        linarith
      have hle : m < 2 ^ 52 + 1 := by exact_mod_cast hlt
      have hge := hcanon.normal.resolve_right hexponent
      omega
    have hquarter := hquarter hleast hexponent
    have hdouble : (num : ℚ) / den = 2 * y * 2 ^ (e - 1) := by
      rw [hy, zpow_sub_one₀ two_ne_zero]
      ring
    rw [hleast] at hquarter
    have hleastE := hcanon.least
    push_cast at hquarter
    have hcarried : carried (2 ^ 53) (e - 1) = (2 ^ 52, e) := by
      rw [carried, if_pos Nat.pow_eq.symm, sub_add_cancel, Nat.pow_eq]
    have hbounds : (2 ^ 53 : ℚ) - 1 / 2 ≤ 2 * y ∧ 2 * y < 2 ^ 53 ∧ 2 ^ 52 ≤ 2 * y := by
      norm_num at hquarter hless ⊢
      refine ⟨?_, ?_, ?_⟩ <;> linarith
    rw [ofRatio_eq_of_near (m := 2 ^ 53) hnum hden hdouble (by omega) hbounds.2.1
      (.inr hbounds.2.2) (by push_cast; exact ⟨hbounds.1, by linarith⟩) (fun hodd => by cases hodd),
      hcarried, if_neg (not_lt.mpr hcanon.most), hleast]
  · have hfits : m ≠ Nat.pow 2 53 := hcanon.bits.ne
    have hge : e = -1074 ∨ 2 ^ 52 ≤ y := by
      by_contra hnot
      push Not at hnot
      exact hless ⟨hnot.2, hnot.1⟩
    rw [ofRatio_eq_of_near hnum hden hy hcanon.least (by linarith) hge ⟨hlow, hhigh⟩ hodd, carried,
      if_neg hfits, if_neg (not_lt.mpr hcanon.most)]

end Ratio

theorem le_divideEven {num den k : Nat} (hden : 0 < den) (h : (k : ℚ) ≤ num / den) :
    k ≤ divideEven num den := by
  have hdenQ : (0 : ℚ) < den := by exact_mod_cast hden
  rw [le_div_iff₀ hdenQ] at h
  have hle : k ≤ num / den := (Nat.le_div_iff_mul_le hden).mpr (by exact_mod_cast h)
  rw [divideEven]
  split
  case isTrue => exact hle
  case isFalse => split <;> omega

/-- A significand has all its bits, unless its unit is the least one. -/
theorem le_roundedOf {num den : Nat} (hnum : num ≠ 0) (hden : 0 < den)
    (h : unitOf num den ≠ -1074) : 2 ^ 52 ≤ roundedOf num den := by
  apply le_divideEven (scaleTwo_pos hden num _)
  have hunit : floorLog2 num den = unitOf num den + (52 : Nat) := by
    rw [unitOf] at h ⊢
    omega
  have hlow := (floorLog2_bounds hnum hden).1
  rw [hunit, zpow_add₀ two_ne_zero, zpow_natCast] at hlow
  rw [ratio_scaleTwo, zpow_neg, ← div_eq_mul_inv, le_div_iff₀ (by positivity)]
  push_cast
  linarith

namespace Magnitude

/-- What a ratio is rounded to is canonical. -/
theorem canonical_of_ofRatio {num den m : Nat} {e : Int} (hden : 0 < den)
    (h : ofRatio num den = .finite m e) : Canonical m e := by
  obtain ⟨hbits, hmost⟩ := bounds_of_ofRatio hden h
  by_cases hnum : num = 0
  · rw [ofRatio, if_pos hnum, zero] at h
    cases h
    exact ⟨by norm_num, le_rfl, by norm_num, .inr rfl⟩
  · rw [ofRatio_eq hnum] at h
    split at h
    case isTrue => cases h
    case isFalse =>
      have hleast : -1074 ≤ unitOf num den := by
        rw [unitOf]
        omega
      obtain ⟨hm, he⟩ := Magnitude.finite.inj h
      rw [carried] at hm he
      split at hm
      case isTrue htop =>
        rw [if_pos htop] at he
        exact ⟨hbits, by omega, hmost, .inl (by rw [← hm, Nat.pow_eq])⟩
      case isFalse htop =>
        rw [if_neg htop] at he
        refine ⟨hbits, by omega, hmost, ?_⟩
        by_cases hunit : unitOf num den = -1074
        · exact .inr (he ▸ hunit)
        · exact .inl (hm ▸ le_roundedOf hnum hden hunit)

/-- A ratio from one on is rounded to a number from one on. -/
theorem one_le_of_ofRatio {num den m : Nat} {e : Int} (hden : 0 < den)
    (hone : 1 ≤ (num : ℚ) / den) (h : ofRatio num den = .finite m e) : 1 ≤ valueOf m e := by
  have hnum : num ≠ 0 := by
    rintro rfl
    norm_num at hone
  have hlog : 0 ≤ floorLog2 num den := le_floorLog2 hnum hden (by rwa [zpow_zero])
  have hunit : -52 ≤ unitOf num den := by
    rw [unitOf]
    omega
  have hbits := le_roundedOf hnum hden (by omega)
  have hsame := (carried_spec (rounded_bounds hnum hden).1 (unitOf num den)).2.1
  rw [ofRatio_eq hnum] at h
  split at h
  case isTrue => cases h
  case isFalse =>
    cases h
    rw [hsame, valueOf]
    calc (1 : ℚ) = 2 ^ 52 * 2 ^ (-52 : Int) := by norm_num
      _ ≤ roundedOf num den * 2 ^ unitOf num den := by
          gcongr
          · exact_mod_cast hbits
          · exact one_le_two

end Magnitude

theorem Canonical.value_lt_overflow {m : Nat} {e : Int} (h : Canonical m e) :
    valueOf m e < overflow := by
  have hbits : (m : ℚ) + 1 ≤ 2 ^ 53 := by exact_mod_cast h.bits
  have hmost := h.most
  have hlast : (2 : ℚ) ^ (971 : Int) = 2 * 2 ^ 970 := by
    rw [zpow_ofNat, mul_comm]
    exact pow_succ 2 970
  calc valueOf m e ≤ m * 2 ^ (971 : Int) :=
        mul_le_mul_of_nonneg_left (zpow_le_zpow_right₀ one_le_two hmost) (Nat.cast_nonneg m)
    _ = m * 2 * 2 ^ 970 := by rw [hlast, mul_assoc]
    _ < (2 ^ 54 - 1) * 2 ^ 970 := mul_lt_mul_of_pos_right (by linarith) (by positivity)
    _ = overflow := rfl

end ApiCommands.Decimal
