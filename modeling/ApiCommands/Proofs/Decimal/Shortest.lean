import ApiCommands.Proofs.Decimal.Nearest
import ApiCommands.Proofs.Decimal.Plain

namespace ApiCommands.Decimal

/-!
# Shortest decimals

The search for the shortest decimal of a number comes to a grid that is finer than half a unit, so
it ends with a point among the reals that are rounded to the number.
-/

theorem scaleTen_pos {den : Nat} (h : 0 < den) (num : Nat) (power : Int) :
    0 < (scaleTen num den power).2 := by
  cases power with
  | ofNat k => exact h
  | negSucc k => exact Nat.mul_pos h (Nat.pow_pos (by decide))

theorem ratio_scaleTen (num den : Nat) (power : Int) :
    ((scaleTen num den power).1 : ℚ) / (scaleTen num den power).2 = num / den * 10 ^ power := by
  cases power with
  | ofNat k =>
      have hpow : (10 : ℚ) ^ (Int.ofNat k) = 10 ^ k := zpow_natCast 10 k
      rw [hpow, scaleTen, Nat.pow_eq]
      push_cast
      ring
  | negSucc k =>
      rw [zpow_negSucc, scaleTen, Nat.pow_eq]
      push_cast
      rw [div_mul_eq_div_div, div_eq_mul_inv (_ / _)]

/-- The numerator and the denominator of a quarter of a unit on the grid of a power of ten. -/
def gridOf (exponent e : Int) : Nat × Nat :=
  scaleTen (scaleTwo 1 1 (exponent - 2)).1 (scaleTwo 1 1 (exponent - 2)).2 (-e)

theorem gridOf_pos (exponent e : Int) : 0 < (gridOf exponent e).2 :=
  scaleTen_pos (scaleTwo_pos Nat.one_pos 1 (exponent - 2)) _ _

theorem ratio_gridOf (exponent e : Int) :
    ((gridOf exponent e).1 : ℚ) / (gridOf exponent e).2 = 2 ^ (exponent - 2) / 10 ^ e := by
  rw [gridOf, ratio_scaleTen, ratio_scaleTwo, zpow_neg, Nat.cast_one, div_one, one_mul,
    div_eq_mul_inv]

/-- Quarters of a unit and points of a grid are compared as whole numbers. -/
theorem exists_common_unit (exponent e : Int) : ∃ c : ℚ, 0 < c ∧
    (∀ n : Nat, (n : ℚ) * 2 ^ (exponent - 2) = c * (n * (gridOf exponent e).1 : Nat)) ∧
    ∀ k : Nat, (Digits.mk k e).value = c * (k * (gridOf exponent e).2 : Nat) := by
  have hden : (0 : ℚ) < (gridOf exponent e).2 := by exact_mod_cast gridOf_pos exponent e
  have hratio := ratio_gridOf exponent e
  rw [div_eq_div_iff hden.ne' (by positivity)] at hratio
  refine ⟨10 ^ e / (gridOf exponent e).2, by positivity, fun n => ?_, fun k => ?_⟩
  · rw [div_mul_eq_mul_div, eq_div_iff hden.ne', Nat.cast_mul, mul_assoc, ← hratio]
    ring
  · rw [div_mul_eq_mul_div, eq_div_iff hden.ne', Digits.value, Nat.cast_mul]
    ring

/-- A point of a grid that holds lies in the interval. -/
theorem Interval.spans_of_holds {i : Interval} {exponent e : Int} {k : Nat}
    (h : i.holds (gridOf exponent e).1 (gridOf exponent e).2 k = true) :
    i.Spans exponent (Digits.mk k e).value := by
  obtain ⟨c, hc, hquarter, hpoint⟩ := exists_common_unit exponent e
  have hle {a b : Nat} (hab : a ≤ b) : c * a ≤ c * b :=
    mul_le_mul_of_nonneg_left (Nat.cast_le.mpr hab) hc.le
  have hlt {a b : Nat} (hab : a < b) : c * a < c * b :=
    mul_lt_mul_of_pos_left (Nat.cast_lt.mpr hab) hc
  rw [holds] at h
  split at h
  case isTrue hclosed =>
    simp only [Bool.and_eq_true, decide_eq_true_eq] at h
    refine ⟨?_, ?_, fun hopen => ?_⟩
    · rw [hquarter, hpoint]
      exact hle h.1
    · rw [hquarter, hpoint]
      exact hle h.2
    · rw [hclosed] at hopen
      cases hopen
  case isFalse =>
    simp only [Bool.and_eq_true, decide_eq_true_eq] at h
    have hinside : i.low * 2 ^ (exponent - 2) < (Digits.mk k e).value ∧
        (Digits.mk k e).value < i.high * 2 ^ (exponent - 2) := by
      rw [hquarter, hquarter, hpoint]
      exact ⟨hlt h.1, hlt h.2⟩
    exact ⟨hinside.1.le, hinside.2.le, fun _ => hinside⟩

/-- The point that is taken is not zero and lies in the interval. -/
theorem Interval.holds_of_nearest? {i : Interval} {tie : Tie} {num den k : Nat}
    (h : i.nearest? tie num den = some k) : k ≠ 0 ∧ i.holds num den k = true := by
  unfold Interval.nearest? at h
  dsimp only at h
  generalize i.middle * num / den = below at h
  have hfirst : (i.holds num den below && below != 0) = true →
      below ≠ 0 ∧ i.holds num den below = true := by
    intro hholds
    rw [Bool.and_eq_true, bne_iff_ne] at hholds
    exact hholds.symm
  have hsecond : i.holds num den (below + 1) = true →
      below + 1 ≠ 0 ∧ i.holds num den (below + 1) = true := fun hholds =>
    ⟨Nat.succ_ne_zero below, hholds⟩
  split at h
  case isTrue hexact =>
    cases h
    exact hfirst hexact.2
  case isFalse =>
    split at h
    case h_1 => cases h
    case h_2 hholds _ =>
      cases h
      exact hfirst hholds
    case h_3 _ hholds =>
      cases h
      exact hsecond hholds
    case h_4 hholds hholds' =>
      have hk : k = below ∨ k = below + 1 := by
        split at h
        case isTrue => exact .inl (Option.some.inj h).symm
        case isFalse =>
          split at h
          case isTrue => exact .inr (Option.some.inj h).symm
          case isFalse =>
            cases tie with
            | up => exact .inr (Option.some.inj h).symm
            | even =>
                dsimp only at h
                split at h
                case isTrue => exact .inl (Option.some.inj h).symm
                case isFalse => exact .inr (Option.some.inj h).symm
      rcases hk with rfl | rfl
      · exact hfirst hholds
      · exact hsecond hholds'

/-- On a grid finer than half a unit there is a point above the middle. -/
theorem Interval.exists_nearest? {i : Interval} (tie : Tie) {num den : Nat} (hden : 0 < den)
    (hlow : i.low ≤ i.middle) (hgrid : i.middle * num + den < i.high * num) :
    ∃ k, i.nearest? tie num den = some k := by
  have habove : i.holds num den (i.middle * num / den + 1) = true := by
    have hsplit := Nat.div_add_mod (i.middle * num) den
    have hmod := Nat.mod_lt (i.middle * num) hden
    have hlowest : i.low * num ≤ i.middle * num := Nat.mul_le_mul_right num hlow
    have hmul : (i.middle * num / den + 1) * den = den * (i.middle * num / den) + den := by ring
    rw [holds, hmul]
    split <;> simp only [Bool.and_eq_true, decide_eq_true_eq] <;> omega
  unfold nearest?
  dsimp only
  rw [habove]
  split
  case isTrue => exact ⟨_, rfl⟩
  case isFalse =>
    split
    case h_1 => contradiction
    case h_2 => exact ⟨_, rfl⟩
    case h_3 => exact ⟨_, rfl⟩
    case h_4 =>
      split
      case isTrue => exact ⟨_, rfl⟩
      case isFalse =>
        split
        case isTrue => exact ⟨_, rfl⟩
        case isFalse =>
          cases tie with
          | up => exact ⟨_, rfl⟩
          | even =>
              dsimp only
              split <;> exact ⟨_, rfl⟩

/-! ### The search -/

theorem search_succ (i : Interval) (tie : Tie) (exponent : Int) (steps : Nat) (e : Int) :
    search i tie exponent (steps + 1) e =
      match i.nearest? tie (gridOf exponent e).1 (gridOf exponent e).2 with
      | some k => some ⟨k, e⟩
      | none => search i tie exponent steps (e - 1) := rfl

theorem search_spec {i : Interval} {tie : Tie} {exponent : Int} {steps : Nat} {e : Int}
    {d : Digits} (h : search i tie exponent steps e = some d) :
    d.coefficient ≠ 0 ∧ i.Spans exponent d.value ∧ e - steps < d.exponent := by
  induction steps generalizing e with
  | zero => cases h
  | succ steps ih =>
      rw [search_succ] at h
      split at h
      case h_1 k hk =>
        cases h
        obtain ⟨hne, hholds⟩ := Interval.holds_of_nearest? hk
        exact ⟨hne, Interval.spans_of_holds hholds, by push_cast; omega⟩
      case h_2 =>
        obtain ⟨hne, hspans, hexponent⟩ := ih h
        exact ⟨hne, hspans, by push_cast; omega⟩

/-- The search ends where it comes to a grid finer than half a unit. -/
theorem exists_search {i : Interval} (tie : Tie) {exponent : Int} (hlow : i.low ≤ i.middle)
    (hhigh : i.high = i.middle + 2) {steps : Nat} {e : Int}
    (hgrid : (10 : ℚ) ^ (e - steps) < 2 ^ (exponent - 1)) :
    ∃ d, search i tie exponent (steps + 1) e = some d := by
  induction steps generalizing e with
  | zero =>
      have hfine : (gridOf exponent e).2 < 2 * (gridOf exponent e).1 := by
        obtain ⟨c, hc, hquarter, hpoint⟩ := exists_common_unit exponent e
        have htwo := hquarter 2
        have hone := hpoint 1
        have hdouble : ((2 : Nat) : ℚ) * 2 ^ (exponent - 2) = 2 ^ (exponent - 1) := by
          rw [Nat.cast_ofNat, ← zpow_one_add₀ two_ne_zero]
          congr 1
          omega
        rw [hdouble] at htwo
        rw [Digits.value, Nat.cast_one, one_mul, one_mul] at hone
        rw [Nat.cast_zero, sub_zero, hone, htwo, mul_lt_mul_iff_right₀ hc] at hgrid
        exact_mod_cast hgrid
      have habove : i.middle * (gridOf exponent e).1 + (gridOf exponent e).2 <
          i.high * (gridOf exponent e).1 := by
        rw [hhigh, Nat.add_mul]
        omega
      obtain ⟨k, hk⟩ := Interval.exists_nearest? tie (gridOf_pos exponent e) hlow habove
      exact ⟨⟨k, e⟩, by rw [search_succ, hk]⟩
  | succ steps ih =>
      rw [search_succ]
      split
      case h_1 => exact ⟨_, rfl⟩
      case h_2 =>
        refine ih ?_
        rwa [sub_sub, add_comm (1 : Int), ← Nat.cast_succ]

theorem tenPow_1233_bounds : 2 ^ 4095 ≤ 10 ^ 1233 ∧ 10 ^ 1233 ≤ 2 ^ 4096 := by
  decide +kernel

/-- The decimal logarithm of two is 1233 / 4096, up to one part in 4096. -/
theorem zpow_ten_le {k : Int} (h : -4096 ≤ k) : (10 : ℚ) ^ (1233 * k) ≤ 2 ^ (4096 * (k + 1)) := by
  have hten : (2 : ℚ) ^ 4095 ≤ 10 ^ 1233 ∧ (10 : ℚ) ^ 1233 ≤ 2 ^ 4096 := by
    exact_mod_cast tenPow_1233_bounds
  rw [show (1233 : Int) = (1233 : Nat) from rfl, zpow_mul, zpow_natCast]
  obtain ⟨n, rfl | rfl⟩ := k.eq_nat_or_neg
  · calc ((10 : ℚ) ^ 1233) ^ (n : Int) ≤ (2 ^ 4096) ^ (n : Int) := by
          rw [zpow_natCast, zpow_natCast]
          exact pow_le_pow_left₀ (by positivity) hten.2 n
      _ = 2 ^ (4096 * (n : Int)) := (zpow_mul 2 4096 n).symm
      _ ≤ 2 ^ (4096 * ((n : Int) + 1)) := zpow_le_zpow_right₀ one_le_two (by omega)
  · calc ((10 : ℚ) ^ 1233) ^ (-(n : Int)) ≤ (2 ^ 4095) ^ (-(n : Int)) := by
          rw [zpow_neg, zpow_neg, zpow_natCast, zpow_natCast]
          exact inv_anti₀ (by positivity) (pow_le_pow_left₀ (by positivity) hten.1 n)
      _ = 2 ^ (4095 * (-(n : Int))) := (zpow_mul 2 4095 _).symm
      _ ≤ 2 ^ (4096 * (-(n : Int) + 1)) := zpow_le_zpow_right₀ one_le_two (by omega)

theorem le_zpow_ten {k : Int} (h : k ≤ 4096) : (2 : ℚ) ^ (4096 * (k - 1)) ≤ 10 ^ (1233 * k) := by
  have hinv := zpow_ten_le (k := -k) (by omega)
  rw [mul_neg, zpow_neg, show (4096 : Int) * (-k + 1) = -(4096 * (k - 1)) by ring, zpow_neg] at hinv
  exact (inv_le_inv₀ (by positivity) (by positivity)).mp hinv

theorem zpow_le_zpow_of_mul {x y : ℚ} (hy : 0 < y) {a b : Int}
    (h : x ^ (4096 * a) ≤ y ^ (4096 * b)) : x ^ a ≤ y ^ b := by
  have hpow : (x ^ a) ^ 4096 ≤ (y ^ b) ^ 4096 := by
    rw [← zpow_natCast, ← zpow_natCast, ← zpow_mul, ← zpow_mul, mul_comm a, mul_comm b]
    exact h
  exact le_of_pow_le_pow_left₀ (by norm_num) (by positivity) hpow

theorem Canonical.log2_lt {m : Nat} {e : Int} (h : Canonical m e) : m.log2 < 53 := by
  by_cases hm : m = 0
  · rw [hm]
    decide
  · exact (Nat.log2_lt hm).mpr h.bits

/-- The power of ten that a search begins with, against the power of two above the number. -/
theorem topExponent_bounds {m : Nat} {e : Int} (hcanon : Canonical m e) :
    (2 : ℚ) ^ (m.log2 + e) ≤ 10 ^ topExponent m e ∧
      (10 : ℚ) ^ (topExponent m e - 1) ≤ 2 ^ (m.log2 + e + 2) := by
  obtain ⟨k, hk⟩ : ∃ k : Int, k = m.log2 + e + 1 := ⟨_, rfl⟩
  obtain ⟨t, ht⟩ : ∃ t, t = topExponent m e := ⟨_, rfl⟩
  have hlog := hcanon.log2_lt
  have hbounds : 4096 * (t - 1) ≤ 1233 * k ∧ 1233 * k ≤ 4096 * t := by
    rw [topExponent, ← hk] at ht
    omega
  have hleast := hcanon.least
  have hmost := hcanon.most
  have hlow := le_zpow_ten (k := k) (by omega)
  have hhigh := zpow_ten_le (k := k) (by omega)
  rw [← ht, show (m.log2 : Int) + e = k - 1 by omega, show k - 1 + 2 = k + 1 by omega]
  constructor
  · refine zpow_le_zpow_of_mul (by norm_num) (hlow.trans ?_)
    exact zpow_le_zpow_right₀ (by norm_num) hbounds.2
  · refine zpow_le_zpow_of_mul two_pos (le_trans ?_ hhigh)
    exact zpow_le_zpow_right₀ (by norm_num) hbounds.1

theorem high_interval (m : Nat) (e : Int) :
    ((interval m e).high : ℚ) * 2 ^ (e - 2) = (m + 1 / 2) * 2 ^ e := by
  rw [interval, zpow_sub₀ two_ne_zero]
  push_cast
  ring

/-- The last grid of a search is finer than half a unit. -/
theorem lastGrid_lt {m : Nat} {e : Int} (hcanon : Canonical m e) :
    (10 : ℚ) ^ (topExponent m e - (23 : Nat)) < 2 ^ (e - 1) := by
  have hlog := hcanon.log2_lt
  have habove := (topExponent_bounds hcanon).2
  calc (10 : ℚ) ^ (topExponent m e - (23 : Nat)) = 10 ^ (topExponent m e - 1) * 10 ^ (-22 : Int) := by
        rw [← zpow_add₀ (by norm_num)]
        congr 1
        omega
    _ ≤ 2 ^ (m.log2 + e + 2) * 10 ^ (-22 : Int) := by gcongr
    _ ≤ 2 ^ (e - 1 + 55) * 10 ^ (-22 : Int) := by
        have hle : (m.log2 : Int) + e + 2 ≤ e - 1 + 55 := by omega
        gcongr
        exact one_le_two
    _ = 2 ^ (e - 1) * (2 ^ 55 * 10 ^ (-22 : Int)) := by
        rw [zpow_add₀ two_ne_zero]
        norm_cast
        ring
    _ < 2 ^ (e - 1) := mul_lt_of_lt_one_right (by positivity) (by norm_num)

/-- What lies in the interval of a number is less than twice the power of ten above that number. -/
theorem Interval.Spans.lt_topExponent {m : Nat} {e : Int} (hcanon : Canonical m e) {x : ℚ}
    (h : (interval m e).Spans e x) : x < 10 ^ topExponent m e * 2 := by
  have hbelow := (topExponent_bounds hcanon).1
  have hlog : (m : ℚ) + 1 ≤ 2 ^ (m.log2 : Int) * 2 := by
    rw [zpow_natCast, ← pow_succ]
    exact_mod_cast Nat.lt_log2_self
  calc x ≤ (interval m e).high * 2 ^ (e - 2) := h.high
    _ = (m + 1 / 2) * 2 ^ e := high_interval m e
    _ < 2 ^ (m.log2 : Int) * 2 * 2 ^ e := by
        gcongr
        linarith
    _ = 2 ^ (m.log2 + e) * 2 := by
        rw [zpow_add₀ two_ne_zero]
        ring
    _ ≤ 10 ^ topExponent m e * 2 := by gcongr

/-- The shortest decimal of a number lies in the interval of that number, and it has few digits. -/
theorem shortest_spans (tie : Tie) {m : Nat} {e : Int} (hcanon : Canonical m e) (hm : m ≠ 0) :
    (shortest tie m e).coefficient ≠ 0 ∧ (shortest tie m e).coefficient < 10 ^ 60 ∧
      (interval m e).Spans e (shortest tie m e).value := by
  have hlow : (interval m e).low ≤ (interval m e).middle := Nat.sub_le _ _
  obtain ⟨d, hd⟩ := exists_search tie hlow rfl (lastGrid_lt hcanon)
  have hshortest : shortest tie m e = d := by
    rw [shortest, if_neg hm, hd, Option.getD_some]
  obtain ⟨hne, hspans, hexponent⟩ := search_spec hd
  rw [hshortest]
  refine ⟨hne, ?_, hspans⟩
  have hvalue := hspans.lt_topExponent hcanon
  have hpower : (10 : ℚ) ^ topExponent m e ≤ 10 ^ d.exponent * 10 ^ 23 := by
    rw [← zpow_natCast, ← zpow_add₀ (by norm_num)]
    exact zpow_le_zpow_right₀ (by norm_num) (by push_cast at hexponent ⊢; omega)
  have hfew : (d.coefficient : ℚ) < (10 ^ 60 : Nat) := by
    have hpos : (0 : ℚ) < 10 ^ d.exponent := by positivity
    have hlt : d.coefficient * (10 : ℚ) ^ d.exponent < 10 ^ 60 * 10 ^ d.exponent := by
      rw [Digits.value] at hvalue
      norm_num at hpower ⊢
      linarith
    push_cast
    exact lt_of_mul_lt_mul_right hlt hpos.le
  exact_mod_cast hfew

/-- The shortest decimal is not written as a multiple of zero, and it is above the number by at
most half of a unit. -/
theorem shortest_bounds (tie : Tie) (m : Nat) (e : Int) :
    ((shortest tie m e).coefficient = 0 → (shortest tie m e).exponent ≤ 0) ∧
      (shortest tie m e).value ≤ (m + 1 / 2) * 2 ^ e := by
  have hzero : (Digits.mk 0 0).value ≤ (m + 1 / 2) * 2 ^ e := by
    rw [Digits.value, Nat.cast_zero, zero_mul]
    positivity
  rw [shortest]
  split
  case isTrue => exact ⟨fun _ => le_rfl, hzero⟩
  case isFalse =>
    cases hsearch : search (interval m e) tie e 24 (topExponent m e) with
    | none => exact ⟨fun _ => le_rfl, hzero⟩
    | some d =>
        obtain ⟨hne, hspans, _⟩ := search_spec hsearch
        exact ⟨fun h => (hne h).elim, hspans.high.trans_eq (high_interval m e)⟩

end ApiCommands.Decimal
