import ApiCommands.Json.Number
import ApiCommands.Proofs.Decimal.Plain

namespace ApiCommands.Json

/-!
# Numbers that are kept

A literal without a power is kept as a number unless it is about as large as the largest one: what
is taken of its digits is hardly above their value, and so are the two factors and their product.
-/

open Decimal

theorem fits_iff {n : Nat} : fits n = true ↔ n < Nat.pow 2 64 := by
  rw [fits, decide_eq_true_eq]

/-- Digits whose number fits are all taken. -/
theorem takeWhole_of_fits {acc : Nat} {ds : List Nat} (h : fits (digitsNat acc ds) = true) :
    takeWhole acc ds = (digitsNat acc ds, 0) := by
  induction ds generalizing acc with
  | nil => rfl
  | cons d ds ih =>
      have hle : acc * 10 + d ≤ digitsNat (acc * 10 + d) ds :=
        (Nat.le_mul_of_pos_right _ (by positivity)).trans (mul_pow_le_digitsNat _ ds)
      have hfits : fits (acc * 10 + d) = true := by
        rw [fits_iff] at h ⊢
        exact hle.trans_lt h
      rw [takeWhole, if_pos hfits]
      exact ih h

/-- The digits that are taken fit, tell no more than all, and are left only where one more would
not fit. -/
theorem takeWhole_bounds {acc : Nat} {ds : List Nat} (hds : ∀ d ∈ ds, d < 10)
    (hacc : acc < Nat.pow 2 64) :
    (takeWhole acc ds).1 < Nat.pow 2 64 ∧
      (takeWhole acc ds).1 * 10 ^ (takeWhole acc ds).2 ≤ digitsNat acc ds ∧
      ((takeWhole acc ds).2 ≠ 0 → Nat.pow 2 64 ≤ (takeWhole acc ds).1 * 10 + 9) := by
  induction ds generalizing acc with
  | nil => exact ⟨hacc, by simp [takeWhole, digitsNat], by simp [takeWhole]⟩
  | cons d ds ih =>
      obtain ⟨hd, hrest⟩ := List.forall_mem_cons.mp hds
      by_cases hfits : fits (acc * 10 + d) = true
      · rw [takeWhole, if_pos hfits]
        exact ih hrest (fits_iff.mp hfits)
      · rw [takeWhole, if_neg hfits]
        refine ⟨hacc, mul_pow_le_digitsNat acc (d :: ds), fun _ => ?_⟩
        rw [fits_iff] at hfits
        dsimp only
        omega

/-- The digits that are taken after the point fit, and do not make up for one more unit. -/
theorem takeFraction_bounds {acc : Nat} {ds : List Nat} (hds : ∀ d ∈ ds, d < 10)
    (hacc : acc < Nat.pow 2 64) :
    (takeFraction acc ds).1 < Nat.pow 2 64 ∧
      (takeFraction acc ds).1 < (acc + 1) * 10 ^ (takeFraction acc ds).2 := by
  induction ds generalizing acc with
  | nil => exact ⟨hacc, by simp [takeFraction]⟩
  | cons d ds ih =>
      obtain ⟨hd, hrest⟩ := List.forall_mem_cons.mp hds
      by_cases hfits : fits (acc * 10 + d) = true
      · obtain ⟨hlow, hhigh⟩ := ih hrest (fits_iff.mp hfits)
        rw [takeFraction, if_pos hfits]
        refine ⟨hlow, hhigh.trans_le ?_⟩
        calc (acc * 10 + d + 1) * 10 ^ (takeFraction (acc * 10 + d) ds).2 ≤
            ((acc + 1) * 10) * 10 ^ (takeFraction (acc * 10 + d) ds).2 := by gcongr; omega
          _ = (acc + 1) * 10 ^ ((takeFraction (acc * 10 + d) ds).2 + 1) := by ring
      · rw [takeFraction, if_neg hfits]
        exact ⟨hacc, by simp⟩

/-- A bound for the digits before the point, three units below 2^1024. -/
def safe : ℚ := (2 ^ 53 - 3) * 2 ^ 971

theorem safe_lt_overflow :
    safe * (1 + 2 ^ (-60 : Int)) * (1 + 2 ^ (-53 : Int)) * (1 + 2 ^ (-53 : Int)) < overflow := by
  have hdouble : (2 : ℚ) ^ 971 = 2 ^ 970 * 2 := pow_succ 2 970
  have hfactor : ((2 : ℚ) ^ 53 - 3) * 2 * (1 + 2 ^ (-60 : Int)) * (1 + 2 ^ (-53 : Int)) *
      (1 + 2 ^ (-53 : Int)) < 2 ^ 54 - 1 := by norm_num
  rw [safe, overflow, hdouble]
  have hpos : (0 : ℚ) < 2 ^ 970 := by positivity
  generalize (2 : ℚ) ^ 970 = u at hpos ⊢
  calc _ = ((2 : ℚ) ^ 53 - 3) * 2 * (1 + 2 ^ (-60 : Int)) * (1 + 2 ^ (-53 : Int)) *
        (1 + 2 ^ (-53 : Int)) * u := by ring
    _ < (2 ^ 54 - 1) * u := by gcongr

theorem mul_lt_overflow {x : ℚ} (h : x ≤ safe * (1 + 2 ^ (-60 : Int))) :
    x * (1 + 2 ^ (-53 : Int)) * (1 + 2 ^ (-53 : Int)) < overflow := by
  refine lt_of_le_of_lt ?_ safe_lt_overflow
  gcongr

theorem lt_overflow {n : Nat} (h : (n : ℚ) ≤ safe * (1 + 2 ^ (-60 : Int))) :
    (n : ℚ) < overflow := by
  refine lt_of_le_of_lt ?_ (mul_lt_overflow h)
  rw [mul_assoc]
  refine le_mul_of_one_le_right (Nat.cast_nonneg n) ?_
  norm_num

/-- The largest power of ten below the middle, among whole numbers. -/
theorem tenPow_bounds :
    10 ^ 308 < 18014398509481983 * 2 ^ 970 ∧ 18014398509481983 * 2 ^ 970 < 10 ^ 309 := by
  decide +kernel

theorem overflow_eq : overflow = ((18014398509481983 * 2 ^ 970 : Nat) : ℚ) := by
  rw [overflow, Nat.cast_mul, Nat.cast_pow, Nat.cast_ofNat, Nat.cast_ofNat]
  congr 1
  norm_num

theorem tenPow_lt_overflow {p : Nat} (h : p ≤ 308) : ((10 ^ p : Nat) : ℚ) < overflow := by
  rw [overflow_eq]
  refine Nat.cast_lt.mpr (lt_of_le_of_lt ?_ tenPow_bounds.1)
  gcongr
  norm_num

theorem overflow_lt_tenPow {p : Nat} (h : 308 < p) : overflow < ((10 ^ p : Nat) : ℚ) := by
  rw [overflow_eq]
  refine Nat.cast_lt.mpr (lt_of_lt_of_le tenPow_bounds.2 ?_)
  gcongr
  · norm_num
  · omega

theorem exists_ofNat {n : Nat} (h : (n : ℚ) < overflow) :
    ∃ s e, Magnitude.ofNat n = .finite s e ∧ valueOf s e ≤ n * (1 + 2 ^ (-53 : Int)) := by
  by_cases hn : n = 0
  · refine ⟨0, -1074, ?_, ?_⟩
    · rw [Magnitude.ofNat, Magnitude.ofRatio, if_pos hn, Magnitude.zero]
    · simp [valueOf, hn]
  · have hratio : (n : ℚ) / (1 : Nat) = n := by simp
    obtain ⟨s, e, hs⟩ := Magnitude.exists_ofRatio Nat.one_pos (hratio.symm ▸ h)
    have hone : 1 ≤ (n : ℚ) / (1 : Nat) := by
      rw [hratio]
      exact_mod_cast Nat.one_le_iff_ne_zero.mpr hn
    refine ⟨s, e, hs, ?_⟩
    have hvalue := Magnitude.value_ofRatio_le Nat.one_pos hone hs
    rwa [hratio] at hvalue

theorem exists_mul {s s' : Nat} {e e' : Int} (h : valueOf s e * valueOf s' e' < overflow) :
    ∃ s₁ e₁, (Magnitude.finite s e).mul (.finite s' e') = .finite s₁ e₁ := by
  have hratio := ratio_scaleTwo (s * s') 1 (e + e')
  have hvalue : ((s * s' : Nat) : ℚ) / (1 : Nat) * 2 ^ (e + e') =
      valueOf s e * valueOf s' e' := by
    rw [valueOf, valueOf, zpow_add₀ two_ne_zero]
    push_cast
    ring
  rw [hvalue] at hratio
  exact Magnitude.exists_ofRatio (scaleTwo_pos Nat.one_pos _ _) (hratio ▸ h)

section Power

variable {n p : Nat} (h : ((n * 10 ^ p : Nat) : ℚ) ≤ safe * (1 + 2 ^ (-60 : Int)))

include h

/-- Both factors are hardly above what they are rounded from, and so is their product. -/
theorem exists_mul_tenPow (hp : p ≤ 308) :
    ∃ s e, (Magnitude.ofNat n).mul (.tenPow p) = .finite s e := by
  have hn : (n : ℚ) < overflow := by
    have hle : n ≤ n * 10 ^ p := Nat.le_mul_of_pos_right n (by positivity)
    exact lt_of_le_of_lt (Nat.cast_le.mpr hle) (lt_overflow h)
  obtain ⟨s, e, hs, hvalue⟩ := exists_ofNat hn
  obtain ⟨s', e', hs', hvalue'⟩ := exists_ofNat (tenPow_lt_overflow hp)
  have hproduct : valueOf s e * valueOf s' e' < overflow := by
    refine lt_of_le_of_lt ?_ (mul_lt_overflow h)
    calc valueOf s e * valueOf s' e' ≤
        (n * (1 + 2 ^ (-53 : Int))) * ((10 ^ p : Nat) * (1 + 2 ^ (-53 : Int))) := by
          gcongr
          exact valueOf_nonneg s' e'
      _ = ((n * 10 ^ p : Nat) : ℚ) * (1 + 2 ^ (-53 : Int)) * (1 + 2 ^ (-53 : Int)) := by
          rw [Nat.cast_mul]
          ring
  rw [Magnitude.tenPow, Nat.pow_eq, hs, hs']
  exact exists_mul hproduct

/-- Only a zero stands before a power that is too large. -/
theorem eq_zero_of_lt (hp : 308 < p) : n = 0 := by
  by_contra hn
  refine ((lt_overflow h).trans (overflow_lt_tenPow hp)).not_ge (Nat.cast_le.mpr ?_)
  exact Nat.le_mul_of_pos_left _ (Nat.pos_of_ne_zero hn)

end Power

/-- A power of ten is applied unless the product is about as large as the largest number. -/
theorem exists_applyPower {n : Nat} {power : Int}
    (h : 0 ≤ power → ((n * 10 ^ power.toNat : Nat) : ℚ) ≤ safe * (1 + 2 ^ (-60 : Int))) :
    ∃ m, applyPower n power = some m := by
  by_cases hneg : 0 ≤ power
  case neg =>
    rw [applyPower, if_neg hneg]
    dsimp only
    split
    case isTrue => exact ⟨_, rfl⟩
    case isFalse => split <;> exact ⟨_, rfl⟩
  obtain ⟨p, rfl⟩ := Int.eq_ofNat_of_zero_le hneg
  have hsafe := h hneg
  rw [Int.toNat_natCast] at hsafe
  rw [applyPower, if_pos hneg]
  by_cases hp : (p : Int) ≤ 308
  · obtain ⟨s, e, hmul⟩ := exists_mul_tenPow hsafe (by exact_mod_cast hp)
    refine ⟨.finite s e, ?_⟩
    rw [if_pos hp, Int.toNat_natCast, hmul]
  · rw [if_neg hp, eq_zero_of_lt hsafe (by omega)]
    exact ⟨_, if_pos rfl⟩

theorem safe_of_fits {n : Nat} (h : n < Nat.pow 2 64) :
    (n : ℚ) ≤ safe * (1 + 2 ^ (-60 : Int)) := by
  have hpow : (2 : ℚ) ^ 64 ≤ 2 ^ 971 := pow_le_pow_right₀ one_le_two (by norm_num)
  have hnat : (n : ℚ) ≤ 2 ^ 64 := by exact_mod_cast h.le
  have hfactor : (1 : ℚ) ≤ (2 ^ 53 - 3) * (1 + 2 ^ (-60 : Int)) := by norm_num
  calc (n : ℚ) ≤ 2 ^ 971 := hnat.trans hpow
    _ ≤ 2 ^ 971 * ((2 ^ 53 - 3) * (1 + 2 ^ (-60 : Int))) :=
        le_mul_of_one_le_right (by positivity) hfactor
    _ = safe * (1 + 2 ^ (-60 : Int)) := by
        rw [safe, mul_assoc, mul_left_comm]

/-- What is taken of the digits of a literal is hardly above the number that they denote. -/
theorem taken_le {whole fraction : List Nat} (hwhole : ∀ d ∈ whole, d < 10)
    (hfraction : ∀ d ∈ fraction, d < 10) (hsafe : (digitsNat 0 whole : ℚ) ≤ safe)
    (hpower : 0 ≤ ((takeWhole 0 whole).2 : Int) - (takeFraction (takeWhole 0 whole).1 fraction).2) :
    (((takeFraction (takeWhole 0 whole).1 fraction).1 * 10 ^
      (((takeWhole 0 whole).2 : Int) - (takeFraction (takeWhole 0 whole).1 fraction).2).toNat :
        Nat) : ℚ) ≤ safe * (1 + 2 ^ (-60 : Int)) := by
  obtain ⟨hA, hall, hmore⟩ := takeWhole_bounds hwhole (by norm_num : 0 < Nat.pow 2 64)
  obtain ⟨hS, hunit⟩ := takeFraction_bounds hfraction hA
  generalize takeWhole 0 whole = A at *
  generalize takeFraction A.1 fraction = S at *
  obtain ⟨k, hk⟩ := Int.eq_ofNat_of_zero_le hpower
  have hsplit : A.2 = S.2 + k := by omega
  rw [hk, Int.toNat_natCast]
  by_cases hdropped : A.2 = 0
  · have hk : k = 0 := by omega
    rw [hk, pow_zero, mul_one]
    exact safe_of_fits hS
  · have hlarge : 2 ^ 60 ≤ A.1 := by
      have hnext := hmore hdropped
      rw [Nat.pow_eq] at hnext
      omega
    have hS' : S.1 * 10 ^ k ≤ (A.1 + 1) * 10 ^ A.2 := by
      rw [hsplit, pow_add, ← mul_assoc]
      gcongr
    have hpart : (1 : ℚ) ≤ A.1 * 2 ^ (-60 : Int) := by
      calc (1 : ℚ) = ((2 ^ 60 : Nat) : ℚ) * 2 ^ (-60 : Int) := by norm_num
        _ ≤ A.1 * 2 ^ (-60 : Int) := by gcongr
    calc ((S.1 * 10 ^ k : Nat) : ℚ) ≤ ((A.1 + 1) * 10 ^ A.2 : Nat) := Nat.cast_le.mpr hS'
      _ = (A.1 + 1) * ((10 ^ A.2 : Nat) : ℚ) := by push_cast; rfl
      _ ≤ (A.1 + A.1 * 2 ^ (-60 : Int)) * ((10 ^ A.2 : Nat) : ℚ) := by gcongr
      _ = ((A.1 * 10 ^ A.2 : Nat) : ℚ) * (1 + 2 ^ (-60 : Int)) := by
        rw [Nat.cast_mul]
        ring
      _ ≤ digitsNat 0 whole * (1 + 2 ^ (-60 : Int)) := by
        gcongr
      _ ≤ safe * (1 + 2 ^ (-60 : Int)) := by gcongr

/-- A literal without a power is a number unless its whole part is about as large as the largest
number. -/
theorem Literal.exists_number {l : Literal} (hpower : l.power = none)
    (hwhole : ∀ d ∈ l.whole, d < 10) (hfraction : ∀ d ∈ l.fraction.getD [], d < 10)
    (hsafe : (digitsNat 0 l.whole : ℚ) ≤ safe) : ∃ n, l.number = .ok n := by
  obtain ⟨m, hm⟩ := exists_applyPower (taken_le hwhole hfraction hsafe)
  rw [Literal.number]
  dsimp only
  split
  case isTrue => exact ⟨_, rfl⟩
  case isFalse =>
    rw [hpower]
    dsimp only
    rw [floatOf, hm]
    exact ⟨_, rfl⟩

/-- A literal of digits alone is the integer that they denote, where it fits. -/
theorem Literal.number_of_fits {negative : Bool} {ds : List Nat}
    (h : digitsNat 0 ds < Nat.pow 2 64) :
    (Literal.mk negative ds none none).number = .ok (integerOf negative (digitsNat 0 ds)) := by
  rw [Literal.number]
  dsimp only
  rw [takeWhole_of_fits (fits_iff.mpr h)]
  rfl

end ApiCommands.Json
