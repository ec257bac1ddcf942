import ApiCommands.Proofs.Decimal.Shortest

namespace ApiCommands.Decimal

/-!
# Reading numbers back

The text of a finite number, in any layout, is read as that number: its digits and its power denote
a decimal in the interval of the number.
-/

theorem log2_le_tenPow {c : Nat} (hc : c ≠ 0) : (10 : ℚ) ^ ((c.log2 : Int) * 1233 / 4096) ≤ c * 2 := by
  have hlow := zpow_ten_le (k := (c.log2 : Int)) (by omega)
  have hpower : (10 : ℚ) ^ ((c.log2 : Int) * 1233 / 4096) ≤ 2 ^ ((c.log2 : Int) + 1) := by
    refine zpow_le_zpow_of_mul two_pos (le_trans ?_ hlow)
    exact zpow_le_zpow_right₀ (by norm_num) (by omega)
  refine hpower.trans ?_
  rw [zpow_add_one₀ two_ne_zero]
  gcongr
  exact zpow_log2_le hc

namespace Magnitude

/-- A decimal within reach is rounded as the ratio that it is. -/
theorem exists_ofDecimal_eq {c : Nat} {p : Int} (hc : c ≠ 0)
    (hlow : (10 : ℚ) ^ (-341 : Int) < c * 10 ^ p) (hhigh : (c : ℚ) * 10 ^ p < 10 ^ (309 : Int))
    (hfew : c < 10 ^ 60 ∨ -1 ≤ p) : ∃ num den : Nat, 0 < den ∧ (num : ℚ) / den = c * 10 ^ p ∧
      ofDecimal c p = ofRatio num den := by
  have hbelow : p + (c.log2 : Int) * 1233 / 4096 ≤ 400 := by
    have hlog := log2_le_tenPow hc
    have hlt : (10 : ℚ) ^ (p + (c.log2 : Int) * 1233 / 4096) < 10 ^ (310 : Int) := by
      calc (10 : ℚ) ^ (p + (c.log2 : Int) * 1233 / 4096) =
          10 ^ ((c.log2 : Int) * 1233 / 4096) * 10 ^ p := by
            rw [zpow_add₀ (by norm_num), mul_comm]
        _ ≤ c * 2 * 10 ^ p := by gcongr
        _ = c * 10 ^ p * 2 := by ring
        _ < 10 ^ (309 : Int) * 2 := by gcongr
        _ < 10 ^ (310 : Int) := by
            rw [show (310 : Int) = 309 + 1 from rfl, zpow_add_one₀ (by norm_num)]
            gcongr
            norm_num
    rw [zpow_lt_zpow_iff_right₀ (by norm_num)] at hlt
    omega
  have habove : -400 ≤ p + (c.log2 : Int) * 1233 / 4096 := by
    rcases hfew with hfew | hpower
    · have hlt : (10 : ℚ) ^ (-341 : Int) < 10 ^ (60 + p) := by
        rw [zpow_add₀ (by norm_num)]
        refine hlow.trans ?_
        gcongr
        exact_mod_cast hfew
      rw [zpow_lt_zpow_iff_right₀ (by norm_num)] at hlt
      omega
    · omega
  unfold ofDecimal
  dsimp only
  rw [if_neg hc, if_neg (by omega), if_neg (by omega)]
  cases p with
  | ofNat k =>
      refine ⟨c * Nat.pow 10 k, 1, Nat.one_pos, ?_, rfl⟩
      rw [Nat.pow_eq, Int.ofNat_eq_natCast, zpow_natCast]
      push_cast
      ring
  | negSucc k =>
      refine ⟨c, Nat.pow 10 (k + 1), Nat.pow_pos (by norm_num), ?_, rfl⟩
      rw [Nat.pow_eq, zpow_negSucc]
      push_cast
      ring

variable {m : Nat} {e : Int}

theorem pow_two_bounds : 2 ^ 1075 < 10 ^ 341 ∧ 2 ^ 53 * 2 ^ 971 < 10 ^ 309 := by
  decide +kernel

/-- The interval of a number is within reach. -/
theorem reach_of_spans (hcanon : Canonical m e) (hm : m ≠ 0) {x : ℚ}
    (h : (interval m e).Spans e x) : (10 : ℚ) ^ (-341 : Int) < x ∧ x < 10 ^ (309 : Int) := by
  have hleast : (10 : ℚ) ^ (-341 : Int) < 2 ^ (-1075 : Int) := by
    rw [zpow_neg, zpow_neg, zpow_ofNat, zpow_ofNat]
    exact inv_strictAnti₀ (by positivity) (by exact_mod_cast pow_two_bounds.1)
  have hmost : (2 : ℚ) ^ 53 * 2 ^ (971 : Int) < 10 ^ (309 : Int) := by
    rw [zpow_ofNat, zpow_ofNat]
    exact_mod_cast pow_two_bounds.2
  have hone : (1 : ℚ) ≤ m := by exact_mod_cast Nat.one_le_iff_ne_zero.mpr hm
  have hbits : (m : ℚ) + 1 ≤ 2 ^ 53 := by exact_mod_cast hcanon.bits
  obtain ⟨y, rfl⟩ := exists_units x e
  obtain ⟨⟨hlow, hhigh⟩, -, -⟩ := bounds_of_spans h
  constructor
  · calc (10 : ℚ) ^ (-341 : Int) < 2 ^ (-1075 : Int) := hleast
      _ = 1 / 2 * 2 ^ (-1074 : Int) := by
          rw [show (-1075 : Int) = -1074 - 1 from rfl, zpow_sub_one₀ two_ne_zero]
          ring
      _ ≤ y * 2 ^ e := by
          have hleast := hcanon.least
          gcongr
          · linarith
          · linarith
          · exact one_le_two
  · calc y * 2 ^ e < 2 ^ 53 * 2 ^ e := by
          gcongr
          linarith
      _ ≤ 2 ^ 53 * 2 ^ (971 : Int) := by
          have hmost := hcanon.most
          gcongr
          exact one_le_two
      _ < 10 ^ (309 : Int) := hmost

/-- A decimal in the interval of a number is read as that number. -/
theorem ofDecimal_eq_of_spans (hcanon : Canonical m e) (hm : m ≠ 0) {c : Nat} {p : Int}
    (hspans : (interval m e).Spans e (c * 10 ^ p)) (hfew : c < 10 ^ 60 ∨ -1 ≤ p) :
    ofDecimal c p = .finite m e := by
  obtain ⟨hlow, hhigh⟩ := reach_of_spans hcanon hm hspans
  have hc : c ≠ 0 := by
    rintro rfl
    rw [Nat.cast_zero, zero_mul] at hlow
    have hpos : (0 : ℚ) < 10 ^ (-341 : Int) := by positivity
    exact lt_asymm hpos hlow
  obtain ⟨num, den, hden, hratio, hread⟩ := exists_ofDecimal_eq hc hlow hhigh hfew
  rw [hread]
  exact ofRatio_eq_of_spans hden hcanon hm (hratio ▸ hspans)

end Magnitude

theorem digitsValue_append (acc : Nat) (ds ds' : List Char) :
    digitsValue acc (ds ++ ds') = digitsValue (digitsValue acc ds) ds' := List.foldl_append

theorem digitsValue_zeros (acc k : Nat) : digitsValue acc (List.replicate k '0') = acc * 10 ^ k := by
  induction k generalizing acc with
  | zero => simp [digitsValue]
  | succ k ih =>
      calc digitsValue (10 * acc + 0) (List.replicate k '0') = (10 * acc + 0) * 10 ^ k := ih _
        _ = acc * 10 ^ (k + 1) := by ring

theorem digitsValue_natDigits (n : Nat) : digitsValue 0 (natDigits n) = n :=
  Nat.ofDigitChars_toDigits (by decide) (by decide)

/-- What may follow digits: nothing, or a power of ten. -/
inductive IsPower : List Char → Int → Prop where
  | none : IsPower [] 0
  | some {cs : List Char} {p : Int} (h : readPower cs = some p) : IsPower ('e' :: cs) p

theorem takeWhile_digits {ds rest : List Char} (hds : ∀ c ∈ ds, isDigit c = true)
    (hrest : ∀ c, rest.head? = some c → isDigit c = false) :
    (ds ++ rest).takeWhile isDigit = ds ∧ (ds ++ rest).dropWhile isDigit = rest := by
  rw [List.takeWhile_append_of_pos hds, List.dropWhile_append_of_pos hds]
  cases rest with
  | nil => exact ⟨List.append_nil ds, rfl⟩
  | cons c rest =>
      have hc := hrest c rfl
      rw [List.takeWhile_cons_of_neg (by simp [hc]), List.dropWhile_cons_of_neg (by simp [hc])]
      exact ⟨List.append_nil ds, rfl⟩

theorem readMagnitude_numeral {whole : List Char} {fraction : Option (List Char)}
    {rest : List Char} {p : Int} (hne : whole ≠ []) (hwhole : ∀ c ∈ whole, isDigit c = true)
    (hfraction : ∀ f ∈ fraction, ∀ c ∈ f, isDigit c = true) (hrest : IsPower rest p) :
    readMagnitude (whole ++ (pointText fraction ++ rest)) =
      some (.ofDecimal (digitsValue 0 (whole ++ fraction.getD [])) (p - (fraction.getD []).length)) := by
  have hstop : ∀ c, rest.head? = some c → isDigit c = false := by
    cases hrest with
    | none => nofun
    | some _ =>
        rintro c ⟨⟩
        decide
  have hempty : whole.isEmpty = false := List.isEmpty_eq_false_iff.mpr hne
  cases fraction with
  | none =>
      obtain ⟨htake, hdrop⟩ := takeWhile_digits hwhole hstop
      rw [readMagnitude]
      simp only [pointText, List.nil_append, htake, hdrop, hempty, Bool.false_and]
      cases hrest with
      | none => simp [digitsValue]
      | some h => simp [h, digitsValue]
  | some f =>
      have hpoint : ∀ c, ('.' :: (f ++ rest)).head? = some c → isDigit c = false := by
        rintro c ⟨⟩
        decide
      obtain ⟨htake, hdrop⟩ := takeWhile_digits hwhole hpoint
      obtain ⟨htake', hdrop'⟩ := takeWhile_digits (hfraction f rfl) hstop
      rw [readMagnitude]
      simp only [pointText, List.cons_append, htake, hdrop, htake', hdrop', hempty, Bool.false_and]
      cases hrest with
      | none => simp [digitsValue_append]
      | some h => simp [h, digitsValue_append]

/-- The digits after the point, where a layout writes some. -/
def fractionOf (l : Layout) (fraction : Option (List Char)) : Option (List Char) :=
  fraction <|> if l.keepsPoint then some ['0'] else none

theorem positional_eq (l : Layout) (ds : List Char) (whole : Int) :
    positional l ds whole =
      (parts ds whole).1 ++ pointText (fractionOf l (parts ds whole).2) := by
  rw [positional, parts, fractionOf]
  split
  case isTrue => rfl
  case isFalse =>
    dsimp only
    split
    case isTrue => cases l.keepsPoint <;> simp [pointText]
    case isFalse => rfl

/-- The digits of a decimal denote its coefficient, where there is a point; else its value. -/
theorem digitsValue_parts (d : Digits) :
    (d.parts.2 = none → (digitsValue 0 d.parts.1 : ℚ) = d.value) ∧
      ∀ f, d.parts.2 = some f →
        digitsValue 0 (d.parts.1 ++ f) = d.coefficient ∧ -(f.length : Int) = d.exponent := by
  have hall := digitsValue_natDigits d.coefficient
  rw [Digits.parts, parts, Digits.value]
  generalize natDigits d.coefficient = ds at *
  split
  case isTrue hwhole =>
    refine ⟨(fun h => by cases h), ?_⟩
    rintro f ⟨⟩
    have hzero : digitsValue 0 (['0'] ++ (List.replicate (-(d.exponent + ds.length)).toNat '0' ++ ds)) =
        d.coefficient := by
      have hfirst : digitsValue 0 ['0'] = 0 := rfl
      rw [digitsValue_append, digitsValue_append, digitsValue_zeros, hfirst, zero_mul, hall]
    refine ⟨hzero, ?_⟩
    rw [List.length_append, List.length_replicate]
    omega
  case isFalse hwhole =>
    split
    case isTrue hlength =>
      refine ⟨fun _ => ?_, fun f h => by cases h⟩
      obtain ⟨k, hk⟩ := Int.eq_ofNat_of_zero_le (show 0 ≤ d.exponent by omega)
      have hzeros : (d.exponent + ds.length).toNat - ds.length = k := by omega
      rw [hzeros, digitsValue_append, hall, digitsValue_zeros, hk, Nat.cast_mul, Nat.cast_pow,
        Nat.cast_ofNat, zpow_natCast]
    case isFalse hlength =>
      refine ⟨(fun h => by cases h), ?_⟩
      rintro f ⟨⟩
      refine ⟨by rw [List.take_append_drop, hall], ?_⟩
      rw [List.length_drop]
      omega

theorem readPower_intText (plus : Bool) (p : Int) :
    readPower ((if plus && 0 ≤ p then ['+'] else []) ++ intText p) = some p := by
  cases p with
  | ofNat n =>
      have hplus : readPower ('+' :: natDigits n) = some (n : Int) := by
        simp [readPower, readDigits_natDigits]
      have hbare : readPower (natDigits n) = some (n : Int) := by
        rw [readPower]
        · simp [readDigits_natDigits]
        · exact natDigits_ne_cons (by decide)
        · exact natDigits_ne_cons (by decide)
      cases plus
      · exact hbare
      · exact hplus
  | negSucc n =>
      have hnegative : ¬(0 : Int) ≤ Int.negSucc n := by omega
      simp only [hnegative, decide_false, Bool.and_false, Bool.false_eq_true, if_false, intText,
        List.nil_append, readPower, readDigits_natDigits]
      rfl

theorem readMagnitude_scientific (l : Layout) (d : Digits) :
    readMagnitude (scientific l (natDigits d.coefficient)
        (d.exponent + (natDigits d.coefficient).length - 1)) =
      some (.ofDecimal d.coefficient d.exponent) := by
  obtain ⟨c, ds, hds⟩ : ∃ c ds, natDigits d.coefficient = c :: ds :=
    List.exists_cons_of_ne_nil Nat.toDigits_ne_nil
  have hdigits : ∀ x ∈ c :: ds, isDigit x = true := fun x hx => isDigit_of_mem_natDigits (hds ▸ hx)
  have hvalue : digitsValue 0 (c :: ds) = d.coefficient := hds ▸ digitsValue_natDigits _
  obtain ⟨hc, hrest⟩ := List.forall_mem_cons.mp hdigits
  have hpower := IsPower.some (readPower_intText l.plusSign (d.exponent + (c :: ds).length - 1))
  rw [hds]
  cases ds with
  | nil =>
      have hnone : ∀ f ∈ (none : Option (List Char)), ∀ x ∈ f, isDigit x = true := nofun
      have hread := readMagnitude_numeral (List.cons_ne_nil c []) (by simpa using hc) hnone hpower
      simpa [scientific, pointText, hvalue] using hread
  | cons c' ds =>
      have hsome : ∀ f ∈ some (c' :: ds), ∀ x ∈ f, isDigit x = true := by
        rintro f ⟨⟩
        exact hrest
      have hread := readMagnitude_numeral (List.cons_ne_nil c []) (by simpa using hc) hsome hpower
      have hexponent : d.exponent + ((c :: c' :: ds).length : Int) - 1 - (c' :: ds).length =
          d.exponent := by
        rw [List.length_cons]
        omega
      rw [Option.getD_some, hexponent, List.singleton_append, List.singleton_append, hvalue] at hread
      simpa [scientific, pointText] using hread

/-- What a layout writes for a decimal is read as a decimal of the same value. -/
theorem exists_readMagnitude_digitsText (l : Layout) {d : Digits}
    (hd : d.coefficient = 0 → d.exponent ≤ 0) :
    ∃ c p, readMagnitude (digitsText l d) = some (.ofDecimal c p) ∧
      (c : ℚ) * 10 ^ p = d.value ∧ (c = d.coefficient ∨ -1 ≤ p) := by
  rw [digitsText]
  split
  case isTrue => exact ⟨_, _, readMagnitude_scientific l d, rfl, .inl rfl⟩
  case isFalse =>
    have hnumeral := isNumeral_parts hd
    obtain ⟨hnone, hsome⟩ := digitsValue_parts d
    have hread : ∀ fraction, (∀ f ∈ fraction, ∀ c ∈ f, isDigit c = true) →
        readMagnitude (d.parts.1 ++ pointText fraction) =
          some (.ofDecimal (digitsValue 0 (d.parts.1 ++ fraction.getD []))
            (0 - (fraction.getD []).length)) := by
      intro fraction hfraction
      have hnumeral := readMagnitude_numeral hnumeral.whole_ne_nil hnumeral.isDigit_whole hfraction
        .none
      rwa [List.append_nil] at hnumeral
    rw [Int.sub_add_cancel, positional_eq]
    change ∃ c p, readMagnitude (d.parts.1 ++ pointText (fractionOf l d.parts.2)) = _ ∧ _
    cases hparts : d.parts.2 with
    | some f =>
        obtain ⟨hvalue, hlength⟩ := hsome f hparts
        refine ⟨_, _, hread (some f) (hparts ▸ hnumeral.isDigit_fraction), ?_⟩
        rw [Option.getD_some, hvalue, zero_sub, hlength]
        exact ⟨rfl, .inl rfl⟩
    | none =>
        have hvalue := hnone hparts
        cases hpoint : l.keepsPoint with
        | false =>
            rw [fractionOf, hpoint]
            refine ⟨_, _, hread none (fun f h => by cases h), ?_, .inr (by decide)⟩
            simpa using hvalue
        | true =>
            have hzero : ∀ f ∈ some ['0'], ∀ c ∈ f, isDigit c = true := by
              rintro _ ⟨⟩
              exact List.forall_mem_singleton.mpr rfl
            rw [fractionOf, hpoint]
            refine ⟨_, _, hread (some ['0']) hzero, ?_, .inr (by decide)⟩
            have hlast : digitsValue (digitsValue 0 d.parts.1) ['0'] =
                10 * digitsValue 0 d.parts.1 := rfl
            rw [Option.getD_some, digitsValue_append, hlast, ← hvalue]
            norm_num
            ring

theorem readMagnitude_of_sign {c : Char} (h : c = '-' ∨ c = '+') (cs : List Char) :
    readMagnitude (c :: cs) = none := by
  rcases h with rfl | rfl <;> rfl

/-- The text of a magnitude is read as that magnitude. -/
theorem readMagnitude_digitsText (l : Layout) {m : Nat} {e : Int} (hcanon : Canonical m e) :
    readMagnitude (digitsText l (shortest l.tie m e)) = some (.finite m e) := by
  obtain ⟨c, p, hread, hvalue, hfew⟩ :=
    exists_readMagnitude_digitsText l (shortest_bounds l.tie m e).1
  rw [hread]
  by_cases hm : m = 0
  · have hexponent : e = -1074 := hcanon.normal.resolve_left (by omega)
    have hc : c = 0 := by
      have hzero : (shortest l.tie m e).value = 0 := by
        rw [shortest, if_pos hm, Digits.value, Nat.cast_zero, zero_mul]
      have hproduct := mul_eq_zero.mp (hvalue.trans hzero)
      exact_mod_cast hproduct.resolve_right (by positivity)
    unfold Magnitude.ofDecimal
    rw [if_pos hc, Magnitude.zero, hm, hexponent]
  · obtain ⟨-, hdigits, hspans⟩ := shortest_spans l.tie hcanon hm
    rw [Magnitude.ofDecimal_eq_of_spans hcanon hm (hvalue ▸ hspans) (hfew.imp_left (· ▸ hdigits))]

/-- The text of a finite number, in any layout, is read as that number. -/
theorem readBinary64_text (l : Layout) {m : Nat} {e : Int} (hcanon : Canonical m e)
    (negative : Bool) :
    readBinary64 ((Binary64.finite negative m e).text l) = some (.finite negative m e) := by
  have hread := readMagnitude_digitsText l hcanon
  have hunsigned : readUnsigned negative (digitsText l (shortest l.tie m e)) =
      some (.finite negative m e) := by
    rw [readUnsigned, hread]
    rfl
  rw [Binary64.text, readBinary64, String.toList_ofList]
  cases negative with
  | true => exact hunsigned
  | false =>
      have hsigned : ∀ {c rest}, c = '-' ∨ c = '+' →
          signText false ++ digitsText l (shortest l.tie m e) ≠ c :: rest := by
        intro c rest hc hsign
        change digitsText l (shortest l.tie m e) = c :: rest at hsign
        rw [hsign, readMagnitude_of_sign hc] at hread
        cases hread
      split
      case h_1 hsign => exact (hsigned (.inl rfl) hsign).elim
      case h_2 hsign => exact (hsigned (.inr rfl) hsign).elim
      case h_3 => exact hunsigned

/-- Numbers with the same text are the same. -/
theorem text_injective (l : Layout) {negative negative' : Bool} {m m' : Nat} {e e' : Int}
    (hcanon : Canonical m e) (hcanon' : Canonical m' e')
    (h : (Binary64.finite negative m e).text l = (Binary64.finite negative' m' e').text l) :
    Binary64.finite negative m e = .finite negative' m' e' := by
  have hread := readBinary64_text l hcanon negative
  rw [h, readBinary64_text l hcanon' negative'] at hread
  exact (Option.some.inj hread).symm

end ApiCommands.Decimal
