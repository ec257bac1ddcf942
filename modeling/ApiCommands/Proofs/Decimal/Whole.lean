import ApiCommands.Proofs.Decimal.ReadBack

namespace ApiCommands.Decimal

/-!
# Whole numbers in full

The digits of a whole number are read as the number nearest to it. A whole number of 53 bits is
itself a binary number, and its plain text is its digits: on the grid of the whole numbers it is
the only point of its interval.
-/

theorem natDigits_mul_tenPow {c : Nat} (hc : c ≠ 0) (n : Nat) :
    natDigits (c * 10 ^ n) = natDigits c ++ List.replicate n '0' := by
  induction n with
  | zero => simp
  | succ n ih =>
      have hpos : 0 < c * 10 ^ n := Nat.mul_pos (Nat.pos_of_ne_zero hc) (by positivity)
      have hlast := Nat.toDigits_append_toDigits (b := 10) (d := 0) (by decide) hpos (by decide)
      have hzero : Nat.toDigits 10 0 = ['0'] := by decide
      rw [hzero, Nat.add_zero] at hlast
      rw [List.replicate_succ', ← List.append_assoc, ← ih, pow_succ, ← mul_assoc, mul_comm _ 10]
      exact hlast.symm

theorem digitsText_plain_whole {d : Digits} (hd : d.coefficient ≠ 0) {n : Nat}
    (hexponent : d.exponent = n) :
    digitsText plain d = natDigits (d.coefficient * 10 ^ n) := by
  have hlength : 0 < (natDigits d.coefficient).length := List.length_pos_iff.mpr Nat.toDigits_ne_nil
  have hzeros : ((n : Int) + (natDigits d.coefficient).length).toNat -
      (natDigits d.coefficient).length = n := by omega
  rw [digitsText_plain, Digits.parts, parts, hexponent, if_neg (by omega), if_pos (by omega), hzeros,
    natDigits_mul_tenPow hd]
  exact List.append_nil _

theorem readMagnitude_natDigits {n : Nat} (h : n < Nat.pow 2 64) :
    readMagnitude (natDigits n) = some (.ofNat n) := by
  have hnone : ∀ f ∈ (none : Option (List Char)), ∀ x ∈ f, isDigit x = true := nofun
  have hdigits : ∀ c ∈ natDigits n, isDigit c = true := fun _ => isDigit_of_mem_natDigits
  have hne : natDigits n ≠ [] := Nat.toDigits_ne_nil
  have hread := readMagnitude_numeral hne hdigits hnone .none
  have hlog : n.log2 ≤ 64 := by
    by_cases hn : n = 0
    · rw [hn]
      decide
    · exact ((Nat.log2_lt hn).mpr h).le
  have hdecimal : Magnitude.ofDecimal n 0 = .ofNat n := by
    unfold Magnitude.ofDecimal
    dsimp only
    split
    case isTrue hn => rw [hn, Magnitude.ofNat, Magnitude.ofRatio, if_pos rfl]
    case isFalse =>
      rw [if_neg (by omega), if_neg (by omega)]
      change Magnitude.ofRatio (n * 1) 1 = .ofRatio n 1
      rw [mul_one]
  rw [pointText, List.append_nil, List.append_nil, Option.getD_none, List.append_nil,
    digitsValue_natDigits] at hread
  exact hread.trans (congrArg some hdecimal)

/-- The digits of an integer are read as the number nearest to it. -/
theorem readBinary64_intText {i : Int} (h : i.natAbs < Nat.pow 2 64) :
    readBinary64 (String.ofList (intText i)) =
      some ((Magnitude.ofNat i.natAbs).signed (decide (i < 0))) := by
  rw [readBinary64, String.toList_ofList]
  cases i with
  | ofNat n =>
      have hread : readUnsigned false (natDigits n) = some ((Magnitude.ofNat n).signed false) := by
        have hdigits : readMagnitude (natDigits n) = some (.ofNat n) := readMagnitude_natDigits h
        rw [readUnsigned, hdigits]
      have hsign : decide (Int.ofNat n < 0) = false := decide_eq_false (by simp)
      rw [intText, hsign]
      split
      case h_1 rest hneg => exact (natDigits_ne_cons (by decide) rest hneg).elim
      case h_2 rest hpos => exact (natDigits_ne_cons (by decide) rest hpos).elim
      case h_3 => exact hread
  | negSucc n =>
      have hsign : decide (Int.negSucc n < 0) = true := decide_eq_true (Int.negSucc_lt_zero n)
      rw [intText, hsign]
      have hdigits : readMagnitude (natDigits (n + 1)) = some (.ofNat (n + 1)) :=
        readMagnitude_natDigits h
      change readUnsigned true (natDigits (n + 1)) = _
      rw [readUnsigned, hdigits]
      rfl

theorem spans_self {m : Nat} (hm : m ≠ 0) (e : Int) :
    (interval m e).Spans e (valueOf m e) := by
  have hquarter : valueOf m e = (4 * m : Nat) * 2 ^ (e - 2) := by
    rw [valueOf, zpow_sub₀ two_ne_zero]
    push_cast
    ring
  have hlow : (interval m e).low < 4 * m := by
    rw [interval]
    dsimp only
    split <;> omega
  have hhigh : 4 * m < (interval m e).high := Nat.lt_add_of_pos_right (by decide)
  have hinside : (interval m e).low * 2 ^ (e - 2) < valueOf m e ∧
      valueOf m e < (interval m e).high * 2 ^ (e - 2) := by
    rw [hquarter]
    constructor <;> gcongr
  exact ⟨hinside.1.le, hinside.2.le, fun _ => hinside⟩

/-- How many bits a whole number leaves of its significand. -/
def spareBits (k : Nat) : Nat := 52 - k.log2

section Whole

variable {k : Nat} (hk : k ≠ 0) (hbits : k < 2 ^ 53)

include hk hbits

theorem log2_add_spareBits : k.log2 + spareBits k = 52 := by
  have hlog : k.log2 < 53 := (Nat.log2_lt hk).mpr hbits
  rw [spareBits]
  omega

theorem whole_bounds : 2 ^ 52 ≤ k * 2 ^ spareBits k ∧ k * 2 ^ spareBits k < 2 ^ 53 := by
  have hsum := log2_add_spareBits hk hbits
  constructor
  · calc 2 ^ 52 = 2 ^ k.log2 * 2 ^ spareBits k := by rw [← pow_add, hsum]
      _ ≤ k * 2 ^ spareBits k := Nat.mul_le_mul_right _ (Nat.log2_self_le hk)
  · calc k * 2 ^ spareBits k < 2 ^ (k.log2 + 1) * 2 ^ spareBits k := by
          exact Nat.mul_lt_mul_of_pos_right Nat.lt_log2_self (by positivity)
      _ = 2 ^ 53 := by
          rw [← pow_add]
          congr 1
          omega

theorem canonical_whole : Canonical (k * 2 ^ spareBits k) (-spareBits k) where
  bits := (whole_bounds hk hbits).2
  least := by
    rw [spareBits]
    omega
  most := by omega
  normal := .inl (whole_bounds hk hbits).1

end Whole

theorem valueOf_whole (k : Nat) : valueOf (k * 2 ^ spareBits k) (-spareBits k) = k := by
  rw [valueOf, Nat.cast_mul, Nat.cast_pow, Nat.cast_ofNat, ← zpow_natCast, mul_assoc,
    ← zpow_add₀ two_ne_zero, add_neg_cancel, zpow_zero, mul_one]

theorem whole_ne_zero {k : Nat} (hk : k ≠ 0) : k * 2 ^ spareBits k ≠ 0 :=
  mul_ne_zero hk (by positivity)

theorem ofNat_whole {k : Nat} (hk : k ≠ 0) (hbits : k < 2 ^ 53) :
    Magnitude.ofNat k = .finite (k * 2 ^ spareBits k) (-spareBits k) := by
  have hspans := spans_self (whole_ne_zero hk) (-spareBits k)
  rw [valueOf_whole] at hspans
  refine ofRatio_eq_of_spans Nat.one_pos (canonical_whole hk hbits) (whole_ne_zero hk) ?_
  rwa [Nat.cast_one, div_one]

/-- On the grid of the whole numbers a whole number is found at once. -/
theorem nearest?_whole {k : Nat} (hk : k ≠ 0) (tie : Tie) (s : Nat) :
    (interval (k * 2 ^ s) (-s)).nearest? tie (gridOf (-s) 0).1 (gridOf (-s) 0).2 = some k := by
  have hpower : -(s : Int) - 2 = Int.negSucc (s + 1) := by
    rw [Int.negSucc_eq]
    omega
  have hgrid : gridOf (-s) 0 = (1, 2 ^ (s + 2)) := by
    rw [gridOf, hpower]
    change (1 * 1, 1 * Nat.pow 2 (s + 1 + 1)) = _
    rw [Nat.pow_eq, one_mul, one_mul]
  have hmiddle : (interval (k * 2 ^ s) (-s)).middle = k * 2 ^ (s + 2) := by
    rw [interval]
    ring
  have hpos : 0 < 2 ^ (s + 2) := by positivity
  have hlow : (interval (k * 2 ^ s) (-s)).low < k * 2 ^ (s + 2) := by
    rw [← hmiddle, interval]
    have hne : k * 2 ^ s ≠ 0 := mul_ne_zero hk (by positivity)
    dsimp only
    split <;> omega
  have hhigh : (interval (k * 2 ^ s) (-s)).high = k * 2 ^ (s + 2) + 2 := by
    rw [← hmiddle]
    rfl
  have hholds : (interval (k * 2 ^ s) (-s)).holds 1 (2 ^ (s + 2)) k = true := by
    rw [Interval.holds, hhigh]
    split <;> simp only [Bool.and_eq_true, decide_eq_true_eq] <;> omega
  unfold Interval.nearest?
  dsimp only
  rw [hgrid, hmiddle, mul_one, Nat.mul_div_cancel k hpos, Nat.mul_mod_left, hholds, if_pos]
  simpa using hk

/-- A search ends no later than at a grid that has a point. -/
theorem exists_search_of_nearest? {i : Interval} {tie : Tie} {exponent e₀ : Int} {k : Nat}
    (h : i.nearest? tie (gridOf exponent e₀).1 (gridOf exponent e₀).2 = some k) {steps : Nat}
    {e : Int} (hle : e₀ ≤ e) (hsteps : e - steps < e₀) :
    ∃ d, search i tie exponent steps e = some d ∧ e₀ ≤ d.exponent := by
  induction steps generalizing e with
  | zero => omega
  | succ steps ih =>
      rw [search_succ]
      split
      case h_1 => exact ⟨_, rfl, hle⟩
      case h_2 hnone =>
        have hne : e ≠ e₀ := by
          rintro rfl
          rw [h] at hnone
          cases hnone
        exact ih (by omega) (by push_cast at hsteps; omega)

/-- A whole number in the interval of another one, whose unit is at most one, is the same. -/
theorem eq_of_spans_whole {j k : Nat}
    (h : (interval (k * 2 ^ spareBits k) (-spareBits k)).Spans (-spareBits k) j) : j = k := by
  have hunit : (2 : ℚ) ^ (-(spareBits k : Int)) ≤ 1 := zpow_le_one_of_nonpos₀ one_le_two (by omega)
  have hpos : (0 : ℚ) < 2 ^ (-(spareBits k : Int)) := by positivity
  have hvalue := valueOf_whole k
  rw [valueOf] at hvalue
  obtain ⟨y, hy⟩ := exists_units j (-spareBits k)
  obtain ⟨⟨hlow, hhigh⟩, -, -⟩ := bounds_of_spans (hy ▸ h)
  have hbelow : (j : ℚ) < k + 1 := by
    rw [← hvalue, hy]
    nlinarith
  have habove : (k : ℚ) < j + 1 := by
    rw [← hvalue, hy]
    nlinarith
  have hbelow : j < k + 1 := by exact_mod_cast hbelow
  have habove : k < j + 1 := by exact_mod_cast habove
  omega

/-- The shortest decimal of a whole number is the number itself. -/
theorem shortest_whole {k : Nat} (hk : k ≠ 0) (hbits : k < 2 ^ 53) (tie : Tie) :
    ∃ n : Nat, (shortest tie (k * 2 ^ spareBits k) (-spareBits k)).exponent = n ∧
      (shortest tie (k * 2 ^ spareBits k) (-spareBits k)).coefficient * 10 ^ n = k := by
  have hne := whole_ne_zero hk
  have hlog : (k * 2 ^ spareBits k).log2 = 52 := by
    obtain ⟨hlow, hhigh⟩ := whole_bounds hk hbits
    rw [Nat.log2_eq_iff hne]
    exact ⟨hlow, hhigh⟩
  have htop : 0 ≤ topExponent (k * 2 ^ spareBits k) (-spareBits k) ∧
      topExponent (k * 2 ^ spareBits k) (-spareBits k) < 24 := by
    have hspare : spareBits k ≤ 52 := Nat.sub_le _ _
    rw [topExponent, hlog]
    omega
  have hsteps : topExponent (k * 2 ^ spareBits k) (-spareBits k) - (24 : Nat) < 0 := by omega
  obtain ⟨d, hd, hexponent⟩ :=
    exists_search_of_nearest? (nearest?_whole hk tie (spareBits k)) htop.1 hsteps
  have hshortest : shortest tie (k * 2 ^ spareBits k) (-spareBits k) = d := by
    rw [shortest, if_neg hne, hd, Option.getD_some]
  obtain ⟨-, -, hspans⟩ := shortest_spans tie (canonical_whole hk hbits) hne
  rw [hshortest] at hspans ⊢
  obtain ⟨n, hn⟩ := Int.eq_ofNat_of_zero_le hexponent
  have hwhole : d.value = ((d.coefficient * 10 ^ n : Nat) : ℚ) := by
    rw [Digits.value, hn, zpow_natCast]
    push_cast
    rfl
  exact ⟨n, hn, eq_of_spans_whole (hwhole ▸ hspans)⟩

/-- A whole number of 53 bits is written in full. -/
theorem text_whole {k : Nat} (hbits : k < 2 ^ 53) (negative : Bool) :
    ((Magnitude.ofNat k).signed negative).text plain =
      String.ofList (signText negative ++ natDigits k) := by
  by_cases hk : k = 0
  · rw [hk]
    cases negative <;> rfl
  · obtain ⟨n, hexponent, hvalue⟩ := shortest_whole hk hbits plain.tie
    have hne : (shortest plain.tie (k * 2 ^ spareBits k) (-spareBits k)).coefficient ≠ 0 := by
      intro hzero
      rw [hzero, zero_mul] at hvalue
      exact hk hvalue.symm
    have htext := digitsText_plain_whole hne hexponent
    rw [hvalue] at htext
    rw [ofNat_whole hk hbits, Magnitude.signed, Binary64.text, htext]

theorem text_plain_int {i : Int} (hbits : i.natAbs < 2 ^ 53) :
    ((Magnitude.ofNat i.natAbs).signed (decide (i < 0))).text plain = String.ofList (intText i) := by
  rw [text_whole hbits]
  cases i with
  | ofNat n =>
      have hsign : decide (Int.ofNat n < 0) = false := decide_eq_false (by simp)
      rw [hsign]
      rfl
  | negSucc n =>
      have hsign : decide (Int.negSucc n < 0) = true := decide_eq_true (Int.negSucc_lt_zero n)
      rw [hsign]
      rfl

end ApiCommands.Decimal
