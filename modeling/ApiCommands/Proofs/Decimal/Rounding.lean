import ApiCommands.Decimal.Reading
import Mathlib.Algebra.Order.Field.Power
import Mathlib.Algebra.Order.Field.Rat
import Mathlib.Tactic.FieldSimp
import Mathlib.Tactic.GCongr
import Mathlib.Tactic.Linarith
import Mathlib.Tactic.NormNum
import Mathlib.Tactic.Positivity
import Mathlib.Tactic.Ring

namespace ApiCommands.Decimal

/-!
# How far rounding goes

A ratio below the middle between the largest number and the next power of two is rounded to a
finite number. From one on, the number is above the ratio by at most one part in 2^53.
-/

/-- The value of a significand and an exponent. -/
def valueOf (significand : Nat) (exponent : Int) : ℚ := significand * 2 ^ exponent

theorem valueOf_nonneg (s : Nat) (e : Int) : 0 ≤ valueOf s e := by
  rw [valueOf]
  positivity

/-- The middle between the largest number and 2^1024. -/
def overflow : ℚ := (2 ^ 54 - 1) * 2 ^ 970

theorem overflow_lt : overflow < 2 ^ (1024 : Int) := by
  calc overflow < 2 ^ 54 * 2 ^ 970 := by
        rw [overflow]
        gcongr
        norm_num
    _ = 2 ^ (1024 : Int) := by
        rw [← pow_add]
        exact (zpow_natCast 2 1024).symm

theorem scaleTwo_pos {den : Nat} (h : 0 < den) (num : Nat) (power : Int) :
    0 < (scaleTwo num den power).2 := by
  cases power with
  | ofNat k => exact h
  | negSucc k => exact Nat.mul_pos h (Nat.pow_pos Nat.two_pos)

theorem ratio_scaleTwo (num den : Nat) (power : Int) :
    ((scaleTwo num den power).1 : ℚ) / (scaleTwo num den power).2 = num / den * 2 ^ power := by
  cases power with
  | ofNat k =>
      have hpow : (2 : ℚ) ^ (Int.ofNat k) = 2 ^ k := zpow_natCast 2 k
      rw [hpow, scaleTwo, Nat.pow_eq]
      push_cast
      ring
  | negSucc k =>
      rw [zpow_negSucc, scaleTwo, Nat.pow_eq]
      push_cast
      rw [div_mul_eq_div_div, div_eq_mul_inv (_ / _)]

/-- Rounding goes up by at most one half. -/
theorem divideEven_le {den : Nat} (h : 0 < den) (num : Nat) :
    (divideEven num den : ℚ) ≤ num / den + 1 / 2 := by
  have hsplit := Nat.div_add_mod num den
  have hnat : 2 * (den * divideEven num den) ≤ 2 * num + den := by
    rw [divideEven]
    generalize num / den = q, num % den = r at *
    split
    case isTrue => omega
    case isFalse hbelow =>
      have hnext : den * (q + 1) = den * q + den := Nat.mul_succ den q
      split
      case isTrue => omega
      case isFalse =>
        have hparity : den * (q + q % 2) ≤ den * (q + 1) := Nat.mul_le_mul_left den (by omega)
        omega
  have hden : (0 : ℚ) < den := by exact_mod_cast h
  have hcast : (2 : ℚ) * (den * divideEven num den) ≤ 2 * num + den := by exact_mod_cast hnat
  rw [div_add_div _ _ hden.ne' two_ne_zero, le_div_iff₀ (by positivity)]
  linarith

theorem zpow_log2_le {n : Nat} (h : n ≠ 0) : (2 : ℚ) ^ (n.log2 : Int) ≤ n := by
  rw [zpow_natCast]
  exact_mod_cast Nat.log2_self_le h

theorem lt_zpow_log2 (n : Nat) : (n : ℚ) < 2 ^ ((n.log2 : Int) + 1) := by
  have hlt : (n : ℚ) < 2 ^ (n.log2 + 1) := by exact_mod_cast Nat.lt_log2_self
  rwa [← zpow_natCast, Nat.cast_succ] at hlt

/-- The binary logarithm of a ratio is found to the whole number. -/
theorem floorLog2_bounds {num den : Nat} (hnum : num ≠ 0) (hden : 0 < den) :
    (2 : ℚ) ^ floorLog2 num den ≤ num / den ∧ (num : ℚ) / den < 2 ^ (floorLog2 num den + 1) := by
  have hdenQ : (0 : ℚ) < den := by exact_mod_cast hden
  have hfits : (scaleTwo num den (-((num.log2 : Int) - den.log2))).2 ≤
      (scaleTwo num den (-((num.log2 : Int) - den.log2))).1 ↔
      (2 : ℚ) ^ ((num.log2 : Int) - den.log2) ≤ num / den := by
    have hratio := ratio_scaleTwo num den (-((num.log2 : Int) - den.log2))
    have hpos := scaleTwo_pos hden num (-((num.log2 : Int) - den.log2))
    have hposQ : (0 : ℚ) < (scaleTwo num den (-((num.log2 : Int) - den.log2))).2 := by
      exact_mod_cast hpos
    rw [← Nat.cast_le (α := ℚ), ← one_le_div hposQ, hratio, zpow_neg, ← div_eq_mul_inv,
      one_le_div (by positivity)]
  have hupper : (num : ℚ) / den < 2 ^ ((num.log2 : Int) - den.log2 + 1) := by
    rw [div_lt_iff₀ hdenQ]
    calc (num : ℚ) < 2 ^ ((num.log2 : Int) + 1) := lt_zpow_log2 num
      _ = 2 ^ ((num.log2 : Int) - den.log2 + 1) * 2 ^ (den.log2 : Int) := by
        rw [← zpow_add₀ two_ne_zero]
        ring_nf
      _ ≤ 2 ^ ((num.log2 : Int) - den.log2 + 1) * den := by
        gcongr
        exact zpow_log2_le hden.ne'
  have hlower : (2 : ℚ) ^ ((num.log2 : Int) - den.log2 - 1) ≤ num / den := by
    rw [le_div_iff₀ hdenQ]
    calc (2 : ℚ) ^ ((num.log2 : Int) - den.log2 - 1) * den ≤
        2 ^ ((num.log2 : Int) - den.log2 - 1) * 2 ^ ((den.log2 : Int) + 1) := by
          gcongr
          exact (lt_zpow_log2 den).le
      _ = 2 ^ (num.log2 : Int) := by
        rw [← zpow_add₀ two_ne_zero]
        ring_nf
      _ ≤ num := zpow_log2_le hnum
  rw [floorLog2]
  dsimp only
  split
  case isTrue h => exact ⟨hfits.mp h, hupper⟩
  case isFalse h =>
    refine ⟨hlower, ?_⟩
    rw [sub_add_cancel]
    exact not_le.mp fun hle => h (hfits.mpr hle)

/-- The exponent of the unit to which a ratio is rounded. -/
def unitOf (num den : Nat) : Int := max (floorLog2 num den - 52) (-1074)

/-- The significand that a ratio is rounded to. -/
def roundedOf (num den : Nat) : Nat :=
  divideEven (scaleTwo num den (-unitOf num den)).1 (scaleTwo num den (-unitOf num den)).2

/-- Halves a significand that has become too large. -/
def carried (m : Nat) (e : Int) : Nat × Int :=
  if m = Nat.pow 2 53 then (Nat.pow 2 52, e + 1) else (m, e)

theorem ofRatio_eq {num den : Nat} (hnum : num ≠ 0) :
    Magnitude.ofRatio num den =
      if (carried (roundedOf num den) (unitOf num den)).2 > 971 then .infinite
      else .finite (carried (roundedOf num den) (unitOf num den)).1
        (carried (roundedOf num den) (unitOf num den)).2 := by
  rw [Magnitude.ofRatio, if_neg hnum]
  rfl

/-- A ratio fills no more than the 53 bits of a significand, and rounding adds half a unit. -/
theorem rounded_bounds {num den : Nat} (hnum : num ≠ 0) (hden : 0 < den) :
    roundedOf num den ≤ 2 ^ 53 ∧
      valueOf (roundedOf num den) (unitOf num den) ≤ num / den + 2 ^ (unitOf num den - 1) := by
  have hround := divideEven_le (scaleTwo_pos hden num (-unitOf num den))
    (scaleTwo num den (-unitOf num den)).1
  rw [ratio_scaleTwo, ← roundedOf] at hround
  have hbelow : (num : ℚ) / den * 2 ^ (-unitOf num den) < 2 ^ 53 := by
    have hunit : floorLog2 num den + 1 ≤ 53 + unitOf num den := by
      rw [unitOf]
      omega
    calc (num : ℚ) / den * 2 ^ (-unitOf num den) <
        2 ^ (floorLog2 num den + 1) * 2 ^ (-unitOf num den) := by
          gcongr
          exact (floorLog2_bounds hnum hden).2
      _ ≤ 2 ^ (53 + unitOf num den) * 2 ^ (-unitOf num den) := by
          gcongr
          norm_num
      _ = 2 ^ 53 := by
          rw [← zpow_add₀ two_ne_zero, add_neg_cancel_right]
          norm_num
  constructor
  · have hlt : (roundedOf num den : ℚ) < (2 ^ 53 + 1 : Nat) := by
      push_cast
      linarith
    exact Nat.le_of_lt_succ (by exact_mod_cast hlt)
  · calc (roundedOf num den : ℚ) * 2 ^ unitOf num den ≤
        (num / den * 2 ^ (-unitOf num den) + 1 / 2) * 2 ^ unitOf num den := by gcongr
      _ = num / den + 2 ^ (unitOf num den - 1) := by
        rw [zpow_neg, zpow_sub_one₀ two_ne_zero]
        field_simp

/-- Halving a significand changes no value. -/
theorem carried_spec {m : Nat} (h : m ≤ 2 ^ 53) (e : Int) :
    (carried m e).1 < 2 ^ 53 ∧ valueOf (carried m e).1 (carried m e).2 = valueOf m e ∧
      ((carried m e).2 = e ∨ (carried m e).2 = e + 1 ∧ (carried m e).1 = 2 ^ 52) := by
  by_cases htop : m = Nat.pow 2 53
  · have hsame : valueOf (2 ^ 52) (e + 1) = valueOf m e := by
      rw [valueOf, valueOf, htop, zpow_add_one₀ two_ne_zero, Nat.pow_eq]
      push_cast
      ring
    rw [carried, if_pos htop]
    exact ⟨by norm_num, hsame, .inr ⟨rfl, rfl⟩⟩
  · rw [carried, if_neg htop]
    rw [Nat.pow_eq] at htop
    exact ⟨by omega, rfl, .inl rfl⟩

/-- What is rounded is off by half a unit, and is infinite past the last exponent. -/
theorem exists_rounded {num den : Nat} (hnum : num ≠ 0) (hden : 0 < den) :
    ∃ s e, Magnitude.ofRatio num den = (if e > 971 then .infinite else .finite s e) ∧
      s < 2 ^ 53 ∧ valueOf s e ≤ num / den + 2 ^ (unitOf num den - 1) ∧
      (e = unitOf num den ∨ e = unitOf num den + 1 ∧ s = 2 ^ 52) := by
  obtain ⟨hle, hvalue⟩ := rounded_bounds hnum hden
  obtain ⟨hbits, hsame, hexponent⟩ := carried_spec hle (unitOf num den)
  exact ⟨_, _, ofRatio_eq hnum, hbits, hsame.trans_le hvalue, hexponent⟩

namespace Magnitude

theorem bounds_of_ofRatio {num den s : Nat} {e : Int} (hden : 0 < den)
    (h : ofRatio num den = .finite s e) : s < 2 ^ 53 ∧ e ≤ 971 := by
  by_cases hnum : num = 0
  · rw [ofRatio, if_pos hnum, zero] at h
    cases h
    norm_num
  · obtain ⟨s', e', hrounded, hs', _, _⟩ := exists_rounded hnum hden
    rw [hrounded] at h
    split at h
    case isTrue => cases h
    case isFalse hle =>
      cases h
      exact ⟨hs', by omega⟩

/-- What is below the middle stays finite. -/
theorem exists_ofRatio {num den : Nat} (hden : 0 < den) (h : (num : ℚ) / den < overflow) :
    ∃ s e, ofRatio num den = .finite s e := by
  by_cases hnum : num = 0
  · exact ⟨0, -1074, by rw [ofRatio, if_pos hnum, zero]⟩
  · obtain ⟨s, e, hrounded, _, hvalue, hexponent⟩ := exists_rounded hnum hden
    refine ⟨s, e, ?_⟩
    rw [hrounded, if_neg]
    intro htop
    have hlog : floorLog2 num den < 1024 := by
      rw [← zpow_lt_zpow_iff_right₀ (one_lt_two (α := ℚ))]
      calc (2 : ℚ) ^ floorLog2 num den ≤ num / den := (floorLog2_bounds hnum hden).1
        _ < overflow := h
        _ < 2 ^ (1024 : Int) := overflow_lt
    have hunit : unitOf num den ≤ 971 := by
      rw [unitOf]
      omega
    rcases hexponent with rfl | ⟨rfl, rfl⟩
    · omega
    · -- The significand was too large for the last exponent, so the ratio is not below the middle.
      have hlast : unitOf num den = 971 := by omega
      have hcarried : (2 : ℚ) ^ ((971 : Int) + 1) = 4 * 2 ^ 970 := by
        rw [show ((971 : Int) + 1) = 2 + (970 : Nat) from rfl, zpow_add₀ two_ne_zero, zpow_natCast]
        norm_num
      have hunit' : (2 : ℚ) ^ ((971 : Int) - 1) = 2 ^ 970 := zpow_natCast 2 970
      rw [hlast, valueOf, hcarried, hunit'] at hvalue
      rw [overflow] at h
      push_cast at hvalue
      generalize (2 : ℚ) ^ 970 = u at h hvalue
      linarith

/-- A number that a ratio from one on is rounded to is hardly above it. -/
theorem value_ofRatio_le {num den s : Nat} {e : Int} (hden : 0 < den) (hone : 1 ≤ (num : ℚ) / den)
    (h : ofRatio num den = .finite s e) : valueOf s e ≤ num / den * (1 + 2 ^ (-53 : Int)) := by
  have hnum : num ≠ 0 := by
    rintro rfl
    norm_num at hone
  obtain ⟨s', e', hrounded, _, hvalue, _⟩ := exists_rounded hnum hden
  obtain ⟨hlog, hlog'⟩ := floorLog2_bounds hnum hden
  have hsame : valueOf s e = valueOf s' e' := by
    rw [hrounded] at h
    split at h
    case isTrue => cases h
    case isFalse =>
      cases h
      rfl
  have hnonneg : 0 < floorLog2 num den + 1 := by
    rw [← zpow_lt_zpow_iff_right₀ (one_lt_two (α := ℚ)), zpow_zero]
    exact hone.trans_lt hlog'
  have hunit : unitOf num den - 1 = floorLog2 num den + -53 := by
    rw [unitOf]
    omega
  rw [hunit, zpow_add₀ two_ne_zero] at hvalue
  calc valueOf s e ≤ num / den + 2 ^ floorLog2 num den * 2 ^ (-53 : Int) := hsame ▸ hvalue
    _ ≤ num / den + num / den * 2 ^ (-53 : Int) := by gcongr
    _ = num / den * (1 + 2 ^ (-53 : Int)) := by ring

theorem bounds_of_ofDecimal {coefficient s : Nat} {power e : Int}
    (h : ofDecimal coefficient power = .finite s e) : s < 2 ^ 53 ∧ e ≤ 971 := by
  have hzero : zero = .finite s e → s < 2 ^ 53 ∧ e ≤ 971 := by
    intro hzero
    cases hzero
    norm_num
  unfold ofDecimal at h
  dsimp only at h
  split at h
  case isTrue => exact hzero h
  case isFalse =>
    split at h
    case isTrue => cases h
    case isFalse =>
      split at h
      case isTrue => exact hzero h
      case isFalse =>
        cases power with
        | ofNat k => exact bounds_of_ofRatio Nat.one_pos h
        | negSucc k => exact bounds_of_ofRatio (Nat.pow_pos (by decide)) h

theorem bounds_of_readMagnitude {cs : List Char} {s : Nat} {e : Int}
    (h : readMagnitude cs = some (.finite s e)) : s < 2 ^ 53 ∧ e ≤ 971 := by
  unfold readMagnitude at h
  dsimp only at h
  -- With a point or without one.
  split at h
  all_goals
    split at h
    · cases h
    · obtain ⟨p, -, hp⟩ := Option.map_eq_some_iff.mp h
      exact bounds_of_ofDecimal hp

end Magnitude

theorem bounds_of_readUnsigned {negative negative' : Bool} {cs : List Char} {s : Nat} {e : Int}
    (h : readUnsigned negative cs = some (.finite negative' s e)) : s < 2 ^ 53 ∧ e ≤ 971 := by
  rw [readUnsigned] at h
  split at h
  case h_1 m hm =>
    cases m with
    | infinite => cases h
    | finite s' e' =>
        cases h
        exact Magnitude.bounds_of_readMagnitude hm
  case h_2 =>
    unfold readWord at h
    dsimp only at h
    split at h
    case isTrue => cases h
    case isFalse =>
      split at h
      case isTrue => cases h
      case isFalse => cases h

/-- A finite number that is read has a significand and an exponent of 64 bits. -/
theorem bounds_of_readBinary64 {negative : Bool} {text : String} {s : Nat} {e : Int}
    (h : readBinary64 text = some (.finite negative s e)) : s < 2 ^ 53 ∧ e ≤ 971 := by
  rw [readBinary64] at h
  split at h
  case h_1 => exact bounds_of_readUnsigned h
  case h_2 => exact bounds_of_readUnsigned h
  case h_3 => exact bounds_of_readUnsigned h

end ApiCommands.Decimal
