import ApiCommands.Decimal.Layout
import ApiCommands.Decimal.Reading

namespace ApiCommands.Decimal

/-!
# Reading what is written

Digits are read as the number they stand for. So the text of a whole number is read as that number
again. No number has an empty text.
-/

theorem isDigit_eq (c : Char) : isDigit c = c.isDigit := rfl

theorem digitsValue_eq (ds : List Char) : digitsValue 0 ds = Nat.ofDigitChars 10 ds 0 := rfl

theorem readDigits_eq_some_iff {ds : List Char} {n : Nat} :
    readDigits ds = some n ↔
      ds ≠ [] ∧ (∀ c ∈ ds, c.isDigit = true) ∧ Nat.ofDigitChars 10 ds 0 = n := by
  simp [readDigits, digitsValue_eq, isDigit_eq, and_assoc]

/-- Digits, perhaps after a plus sign, that stand for a number. -/
def IsUnsigned (cs : List Char) (n : Nat) : Prop :=
  ∃ sign ds, cs = sign ++ ds ∧ (sign = [] ∨ sign = ['+']) ∧ ds ≠ [] ∧
    (∀ c ∈ ds, c.isDigit = true) ∧ Nat.ofDigitChars 10 ds 0 = n

theorem readNat_eq_some_iff {bound : Nat} {s : String} {n : Nat} :
    readNat bound s = some n ↔ IsUnsigned s.toList n ∧ n < bound := by
  rw [readNat, Option.filter_eq_some_iff, decide_eq_true_eq]
  refine and_congr_left fun _ => ?_
  split
  case h_1 rest hs =>
    rw [hs, readDigits_eq_some_iff]
    constructor
    · exact fun h => ⟨['+'], rest, rfl, .inr rfl, h⟩
    · rintro ⟨sign, ds, hds, rfl | rfl, hne, hdigits, hvalue⟩
      · rw [List.nil_append] at hds
        exact absurd (hdigits '+' (hds ▸ List.mem_cons_self)) (by decide)
      · rw [(List.cons.inj hds).2]
        exact ⟨hne, hdigits, hvalue⟩
  case h_2 hs =>
    rw [readDigits_eq_some_iff]
    constructor
    · exact fun h => ⟨[], _, rfl, .inl rfl, h⟩
    · rintro ⟨sign, ds, hds, rfl | rfl, h⟩
      · rwa [hds]
      · exact (hs ds hds).elim

theorem isDigit_of_mem_natDigits {n : Nat} {c : Char} (h : c ∈ natDigits n) : isDigit c = true :=
  Nat.isDigit_of_mem_toDigits (by decide) (by decide) h

theorem readDigits_natDigits (n : Nat) : readDigits (natDigits n) = some n :=
  readDigits_eq_some_iff.mpr ⟨Nat.toDigits_ne_nil, fun _ => isDigit_of_mem_natDigits,
    Nat.ofDigitChars_toDigits (by decide) (by decide)⟩

theorem natDigits_ne_cons {n : Nat} {c : Char} (hc : isDigit c = false) (rest : List Char) :
    natDigits n ≠ c :: rest := by
  intro h
  have hdigit := isDigit_of_mem_natDigits (h ▸ List.mem_cons_self : c ∈ natDigits n)
  simp [hc] at hdigit

/-- A number that 64 bits with a sign can hold. -/
def IsInt64 (i : Int) : Prop := -0x8000000000000000 ≤ i ∧ i < 0x8000000000000000

theorem readInt64_intText {i : Int} (h : IsInt64 i) :
    readInt64 (String.ofList (intText i)) = some i := by
  obtain ⟨hlow, hhigh⟩ := h
  have hpow : Nat.pow 2 63 = 0x8000000000000000 := rfl
  cases i with
  | ofNat n =>
      have hbound : n < Nat.pow 2 63 := by
        have hcast : (n : Int) < 0x8000000000000000 := hhigh
        omega
      rw [readInt64, String.toList_ofList, intText]
      split
      case h_1 rest hneg => exact (natDigits_ne_cons (by decide) rest hneg).elim
      case h_2 rest hpos => exact (natDigits_ne_cons (by decide) rest hpos).elim
      case h_3 =>
        simp only [readDigits_natDigits, Option.filter_some, hbound, decide_true, if_true]
        rfl
  | negSucc n =>
      have hbound : n + 1 ≤ Nat.pow 2 63 := by omega
      simp only [readInt64, String.toList_ofList, intText, readDigits_natDigits,
        Option.filter_some, hbound, decide_true, if_true]
      rfl

theorem isInt64_of_readInt64 {s : String} {i : Int} (h : readInt64 s = some i) : IsInt64 i := by
  have hpow : Nat.pow 2 63 = 0x8000000000000000 := rfl
  have hpositive {ds : List Char}
      (hds : ((readDigits ds).filter (· < Nat.pow 2 63)).map Int.ofNat = some i) : IsInt64 i := by
    obtain ⟨n, hn, rfl⟩ := Option.map_eq_some_iff.mp hds
    have hlt := of_decide_eq_true (Option.filter_eq_some_iff.mp hn).2
    rw [Int.ofNat_eq_natCast]
    constructor <;> omega
  rw [readInt64] at h
  split at h
  case h_1 =>
    obtain ⟨k, hk, rfl⟩ := Option.map_eq_some_iff.mp h
    obtain ⟨n, hn, hcast⟩ := Option.bind_eq_some_iff.mp hk
    cases hcast
    have hle := of_decide_eq_true (Option.filter_eq_some_iff.mp hn).2
    constructor <;> omega
  case h_2 => exact hpositive h
  case h_3 => exact hpositive h

theorem digitsValue_replicate_zero (k : Nat) : digitsValue 0 (List.replicate k '0') = 0 := by
  induction k with
  | zero => rfl
  | succ k ih => exact ih

theorem readDigits_replicate_zero (k : Nat) :
    readDigits (List.replicate (k + 1) '0') = some 0 := by
  have hall : (List.replicate (k + 1) '0').all isDigit = true := by
    rw [List.all_replicate]
    rfl
  rw [readDigits, hall, digitsValue_replicate_zero]
  rfl

theorem readInt64_zeros (k : Nat) :
    readInt64 (String.ofList (List.replicate (k + 1) '0')) = some 0 := by
  rw [readInt64, String.toList_ofList, List.replicate_succ]
  change ((readDigits ('0' :: List.replicate k '0')).filter _).map Int.ofNat = some 0
  rw [← List.replicate_succ, readDigits_replicate_zero]
  rfl

theorem readMagnitude_replicate_zero (k : Nat) :
    readMagnitude (List.replicate (k + 1) '0') = some .zero := by
  have hdigit : isDigit '0' = true := by decide
  rw [readMagnitude, List.takeWhile_replicate, List.dropWhile_replicate, if_pos hdigit,
    if_pos hdigit, digitsValue_replicate_zero]
  rfl

theorem exists_readBinary64_zeros (k : Nat) :
    ∃ x, readBinary64 (String.ofList (List.replicate (k + 1) '0')) = some x := by
  refine ⟨Magnitude.zero.signed false, ?_⟩
  rw [readBinary64, String.toList_ofList, List.replicate_succ]
  change readUnsigned false ('0' :: List.replicate k '0') = _
  rw [← List.replicate_succ, readUnsigned, readMagnitude_replicate_zero]

theorem intText_ne_nil (i : Int) : intText i ≠ [] := by
  cases i with
  | ofNat n => exact Nat.toDigits_ne_nil
  | negSucc n => exact List.cons_ne_nil _ _

theorem positional_ne_nil (l : Layout) {ds : List Char} (h : ds ≠ []) (whole : Int) :
    positional l ds whole ≠ [] := by
  rw [positional]
  split
  case isTrue => exact List.cons_ne_nil _ _
  case isFalse =>
    dsimp only
    split
    case isTrue => simp [h]
    case isFalse => simp

theorem digitsText_ne_nil (l : Layout) (d : Digits) : digitsText l d ≠ [] := by
  rw [digitsText]
  split
  case isTrue => simp [scientific]
  case isFalse => exact positional_ne_nil l Nat.toDigits_ne_nil _

theorem Binary64.text_ne_empty (l : Layout) (x : Binary64) : x.text l ≠ "" := by
  cases x with
  | finite negative m e =>
      intro h
      have hlist : signText negative ++ digitsText l (shortest l.tie m e) = [] := by
        simpa [Binary64.text] using congrArg String.toList h
      exact digitsText_ne_nil l _ (List.append_eq_nil_iff.mp hlist).2
  | infinite negative =>
      intro h
      simpa [Binary64.text] using congrArg String.toList h
  | nan =>
      have hword : "NaN" ≠ "" := by decide
      exact hword

end ApiCommands.Decimal
