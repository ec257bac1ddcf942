import ApiCommands.Json.Value
import ApiCommands.Proofs.Decimal.Whole
import ApiCommands.Proofs.Json.Fits
import ApiCommands.Proofs.Json.Number

namespace ApiCommands.Json

/-!
# Numbers that a text denotes

An integer that is read from a text has 64 bits, with a sign or without one, and every other number
that is read is finite and canonical. So are all numbers of a value that is read, and the text of
each of them, in any layout, is read as the number nearest to it.
-/

open Decimal

def Number.Denoted : Number → Prop
  | .integer i => -2 ^ 63 ≤ i ∧ i < 2 ^ 64
  | .float (.finite _ m e) => Canonical m e
  | .float _ => False

/-- A canonical magnitude that is not infinite. -/
def IsFinite (a : Magnitude) : Prop := ∃ m e, a = .finite m e ∧ Canonical m e

theorem isFinite_of_ofRatio {num den m : Nat} {e : Int} (hden : 0 < den)
    (h : Magnitude.ofRatio num den = .finite m e) : IsFinite (.ofRatio num den) :=
  ⟨m, e, h, Magnitude.canonical_of_ofRatio hden h⟩

theorem isFinite_ofRatio {num den : Nat} (hden : 0 < den) (h : (num : ℚ) / den < overflow) :
    IsFinite (.ofRatio num den) := by
  obtain ⟨m, e, hratio⟩ := Magnitude.exists_ofRatio hden h
  exact isFinite_of_ofRatio hden hratio

theorem isFinite_ofNat {n : Nat} (h : n < Nat.pow 2 64) : IsFinite (.ofNat n) := by
  refine isFinite_ofRatio Nat.one_pos ?_
  rw [Nat.cast_one, div_one]
  exact lt_overflow (safe_of_fits h)

theorem isFinite_zero : IsFinite .zero :=
  ⟨0, -1074, rfl, ⟨by norm_num, le_rfl, by norm_num, .inr rfl⟩⟩

/-- A power of ten is finite and from one on. -/
theorem exists_tenPow {k : Nat} (h : k ≤ 308) :
    ∃ m e, Magnitude.tenPow k = .finite m e ∧ Canonical m e ∧ 1 ≤ valueOf m e := by
  have hratio : ((Nat.pow 10 k : Nat) : ℚ) / (1 : Nat) = (10 ^ k : Nat) := by
    rw [Nat.cast_one, div_one, Nat.pow_eq]
  have hone : 1 ≤ ((Nat.pow 10 k : Nat) : ℚ) / (1 : Nat) := by
    rw [hratio]
    exact_mod_cast Nat.one_le_pow k 10 (by norm_num)
  obtain ⟨m, e, hpow, hcanon⟩ :=
    isFinite_ofRatio Nat.one_pos (hratio ▸ tenPow_lt_overflow h)
  exact ⟨m, e, hpow, hcanon, Magnitude.one_le_of_ofRatio Nat.one_pos hone hpow⟩

/-- What is multiplied stays finite unless it becomes infinite. -/
theorem isFinite_mul {a b : Magnitude} (h : a.mul b ≠ .infinite) : IsFinite (a.mul b) := by
  cases a with
  | infinite => exact absurd rfl h
  | finite m e =>
      cases b with
      | infinite => exact absurd rfl h
      | finite m' e' =>
          cases hratio : (Magnitude.finite m e).mul (.finite m' e') with
          | infinite => exact absurd hratio h
          | finite s p =>
              rw [← hratio]
              exact isFinite_of_ofRatio (scaleTwo_pos Nat.one_pos (m * m') (e + e')) hratio

/-- What is divided by a power of ten stays finite. -/
theorem isFinite_div {a : Magnitude} (ha : IsFinite a) {k : Nat} (h : k ≤ 308) :
    IsFinite (a.div (.tenPow k)) := by
  obtain ⟨m, e, rfl, hcanon⟩ := ha
  obtain ⟨m', e', hpow, hcanon', hone⟩ := exists_tenPow h
  rw [hpow]
  have hm' : 0 < m' := by
    rw [Nat.pos_iff_ne_zero]
    rintro rfl
    rw [valueOf] at hone
    norm_num at hone
  have hlt : ((scaleTwo m m' (e - e')).1 : ℚ) / (scaleTwo m m' (e - e')).2 < overflow := by
    have hvalue : (m : ℚ) / m' * 2 ^ (e - e') = valueOf m e / valueOf m' e' := by
      rw [valueOf, valueOf, zpow_sub₀ two_ne_zero]
      field_simp
    rw [ratio_scaleTwo, hvalue]
    exact (div_le_self (valueOf_nonneg m e) hone).trans_lt hcanon.value_lt_overflow
  exact isFinite_ofRatio (scaleTwo_pos hm' m _) hlt

theorem isFinite_applyPower {n : Nat} (hn : n < Nat.pow 2 64) {power : Int} {a : Magnitude}
    (h : applyPower n power = some a) : IsFinite a := by
  have hfinite := isFinite_ofNat hn
  rw [applyPower] at h
  dsimp only at h
  split at h
  case isTrue =>
    split at h
    case isTrue =>
      split at h
      case h_1 => cases h
      case h_2 hfin =>
        cases h
        exact isFinite_mul hfin
    case isFalse =>
      split at h
      case isTrue =>
        cases h
        exact hfinite
      case isFalse => cases h
  case isFalse =>
    split at h
    case isTrue hk =>
      cases h
      exact isFinite_div hfinite hk
    case isFalse =>
      split at h
      case isTrue =>
        cases h
        exact isFinite_div (isFinite_div hfinite le_rfl) (by omega)
      case isFalse =>
        cases h
        exact isFinite_zero

theorem denoted_signed {a : Magnitude} (h : IsFinite a) (negative : Bool) :
    (Number.float (a.signed negative)).Denoted := by
  obtain ⟨m, e, rfl, hcanon⟩ := h
  exact hcanon

theorem takeWhole_fits {acc : Nat} (hacc : acc < Nat.pow 2 64) (ds : List Nat) :
    (takeWhole acc ds).1 < Nat.pow 2 64 := by
  induction ds generalizing acc with
  | nil => exact hacc
  | cons d ds ih =>
      rw [takeWhole]
      split
      case isTrue hfits => exact ih (fits_iff.mp hfits)
      case isFalse => exact hacc

theorem takeFraction_fits {acc : Nat} (hacc : acc < Nat.pow 2 64) (ds : List Nat) :
    (takeFraction acc ds).1 < Nat.pow 2 64 := by
  induction ds generalizing acc with
  | nil => exact hacc
  | cons d ds ih =>
      rw [takeFraction]
      split
      case isTrue hfits => exact ih (fits_iff.mp hfits)
      case isFalse => exact hacc

theorem denoted_integerOf {n : Nat} (h : n < Nat.pow 2 64) (negative : Bool) :
    (integerOf negative n).Denoted := by
  rw [integerOf]
  split
  case isTrue =>
    split
    case isTrue => exact denoted_signed (isFinite_ofNat h) true
    case isFalse hsmall =>
      rw [Nat.pow_eq] at h hsmall
      rw [Number.Denoted]
      omega
  case isFalse =>
    rw [Nat.pow_eq] at h
    rw [Number.Denoted]
    omega

theorem denoted_floatOf {n : Nat} (hn : n < Nat.pow 2 64) {negative : Bool} {power : Int}
    {x : Number} (h : floatOf negative n power = .ok x) : x.Denoted := by
  rw [floatOf] at h
  split at h
  case h_1 hpower =>
    cases h
    exact denoted_signed (isFinite_applyPower hn hpower) negative
  case h_2 => cases h

theorem Literal.denoted_of_number {l : Literal} {x : Number} (h : l.number = .ok x) :
    x.Denoted := by
  have hwhole := takeWhole_fits (by norm_num : 0 < Nat.pow 2 64) l.whole
  have hfraction := takeFraction_fits hwhole (l.fraction.getD [])
  rw [Literal.number] at h
  dsimp only at h
  split at h
  case isTrue =>
    cases h
    exact denoted_integerOf hwhole l.negative
  case isFalse =>
    split at h
    case h_1 => exact denoted_floatOf hfraction h
    case h_2 =>
      split at h
      case h_1 => exact denoted_floatOf hfraction h
      case h_2 =>
        split at h
        case isTrue => cases h
        case isFalse =>
          cases h
          exact denoted_signed isFinite_zero l.negative

/-! ### Texts -/

def Token.Denotes : Token → Prop
  | .number kept => ∀ x, kept = .ok x → x.Denoted
  | _ => True

/-- All numbers of an outline, where they can be kept, are denoted by a text. -/
inductive Outline.Denotes : Outline → Prop where
  | null : Denotes .null
  | bool (b : Bool) : Denotes (.bool b)
  | number {kept : Reading Number} (h : ∀ x, kept = .ok x → x.Denoted) : Denotes (.number kept)
  | string (kept : Reading String) : Denotes (.string kept)
  | broken (cut : Cut) : Denotes (.broken cut)
  | array {items : List Outline} {stop : Option Fault} (h : ∀ o ∈ items, Denotes o) :
      Denotes (.array items stop)
  | object {members : List (Reading String × Outline)} {stop : Option Cut}
      (h : ∀ m ∈ members, Denotes m.2) : Denotes (.object members stop)

/-- All numbers of a value are denoted by a text. -/
inductive Value.Denotes : Value → Prop where
  | null : Denotes .null
  | bool (b : Bool) : Denotes (.bool b)
  | number {x : Number} (h : x.Denoted) : Denotes (.number x)
  | string (s : String) : Denotes (.string s)
  | array {items : List Value} (h : ∀ v ∈ items, Denotes v) : Denotes (.array items)
  | object {members : List (String × Value)} (h : ∀ m ∈ members, Denotes m.2) :
      Denotes (.object members)

theorem denotes_ofLiteral (negative : Bool) (bytes : List UInt8) :
    (ofLiteral negative bytes).1.Denotes := by
  rw [ofLiteral]
  split
  case h_1 => exact fun x hx => Literal.denoted_of_number hx
  case h_2 => trivial

theorem denotes_ofWord {t : Token} (h : t.Denotes) (letters rest : List UInt8) :
    (ofWord t letters rest).1.Denotes := by
  rw [ofWord]
  split
  case h_1 => exact h
  case h_2 => trivial

theorem denotes_ofText (bytes : List UInt8) : (ofText bytes).1.Denotes := by
  rw [ofText]
  split <;> trivial

theorem denotes_ite {c : Prop} [Decidable c] {x y : Token × List UInt8} (hx : x.1.Denotes)
    (hy : y.1.Denotes) : (if c then x else y).1.Denotes := by
  split
  case isTrue => exact hx
  case isFalse => exact hy

theorem denotes_token (b : UInt8) (rest : List UInt8) : (token b rest).1.Denotes := by
  rw [token]
  refine denotes_ite trivial <| denotes_ite trivial <| denotes_ite trivial <| denotes_ite trivial <|
    denotes_ite trivial <| denotes_ite trivial <| denotes_ite (denotes_ofText rest) <|
    denotes_ite (denotes_ofLiteral true rest) <| denotes_ite (denotes_ofLiteral false _) <|
    denotes_ite (denotes_ofWord (t := .null) trivial _ _) <|
    denotes_ite (denotes_ofWord (t := .bool true) trivial _ _) <|
    denotes_ite (denotes_ofWord (t := .bool false) trivial _ _) trivial

theorem denotes_of_mem_tokensUpTo {limit : Nat} {bytes : List UInt8} :
    ∀ t ∈ tokensUpTo limit bytes, t.Denotes := by
  induction limit generalizing bytes with
  | zero => exact List.forall_mem_nil _
  | succ limit ih =>
      cases bytes with
      | nil => exact List.forall_mem_nil _
      | cons b rest =>
          rw [tokensUpTo]
          split
          case isTrue => exact ih
          case isFalse => exact List.forall_mem_cons.mpr ⟨denotes_token b rest, ih⟩

namespace Outline

theorem afterItem_rest {isClose : Token → Bool} {ts rest : List Token} {next : Option (List Token)}
    (h : afterItem isClose ts = .ok (next, rest)) (hts : ∀ t ∈ ts, t.Denotes) :
    (∀ t ∈ rest, t.Denotes) ∧ ∀ ts' ∈ next, ∀ t ∈ ts', t.Denotes := by
  cases ts with
  | nil => cases h
  | cons t ts =>
      have hrest := (List.forall_mem_cons.mp hts).2
      rw [afterItem.eq_def] at h
      dsimp only at h
      split at h
      case isTrue =>
        cases h
        exact ⟨hrest, nofun⟩
      case isFalse =>
        split at h
        case h_1 =>
          cases h
          exact ⟨hrest, fun ts' hts' => Option.mem_some.mp hts' ▸ hrest⟩
        case h_2 => cases h

/-- What is built of tokens with as many calls as are left. -/
structure DenotesUpTo (limit : Nat) : Prop where
  value {ts : List Token} (h : ∀ t ∈ ts, t.Denotes) :
    (ofTokens limit ts).1.Denotes ∧ ∀ t ∈ (ofTokens limit ts).2, t.Denotes
  items {ts : List Token} (h : ∀ t ∈ ts, t.Denotes) :
    (∀ o ∈ (itemsOfTokens limit ts).1, o.Denotes) ∧
      ∀ t ∈ (itemsOfTokens limit ts).2.2, t.Denotes
  members {ts : List Token} (h : ∀ t ∈ ts, t.Denotes) :
    (∀ m ∈ (membersOfTokens limit ts).1, m.2.Denotes) ∧
      ∀ t ∈ (membersOfTokens limit ts).2.2, t.Denotes

section Step

variable {limit : Nat} (ih : DenotesUpTo limit) {ts : List Token} (hts : ∀ t ∈ ts, t.Denotes)

include ih hts

theorem denotes_ofTokens : (ofTokens (limit + 1) ts).1.Denotes ∧
    ∀ t ∈ (ofTokens (limit + 1) ts).2, t.Denotes := by
  cases ts with
  | nil => exact ⟨.broken _, List.forall_mem_nil _⟩
  | cons t rest =>
      obtain ⟨ht, hrest⟩ := List.forall_mem_cons.mp hts
      cases t with
      | null => exact ⟨.null, hrest⟩
      | bool b => exact ⟨.bool b, hrest⟩
      | number kept => exact ⟨.number ht, hrest⟩
      | string kept => exact ⟨.string kept, hrest⟩
      | brokenString cut => exact ⟨.broken cut, List.forall_mem_nil _⟩
      | broken cut => exact ⟨.broken cut, List.forall_mem_nil _⟩
      | openArray =>
          rw [ofTokens.eq_def]
          dsimp only
          split
          case h_1 => exact ⟨.array (List.forall_mem_nil _), (List.forall_mem_cons.mp hrest).2⟩
          case h_2 => exact ⟨.array (List.forall_mem_nil _), List.forall_mem_nil _⟩
          case h_3 => exact ⟨.array (ih.items hrest).1, (ih.items hrest).2⟩
      | openObject =>
          rw [ofTokens.eq_def]
          dsimp only
          split
          case h_1 => exact ⟨.object (List.forall_mem_nil _), (List.forall_mem_cons.mp hrest).2⟩
          case h_2 => exact ⟨.object (ih.members hrest).1, (ih.members hrest).2⟩
      | _ => exact ⟨.broken _, hrest⟩

theorem denotes_itemsOfTokens : (∀ o ∈ (itemsOfTokens (limit + 1) ts).1, o.Denotes) ∧
    ∀ t ∈ (itemsOfTokens (limit + 1) ts).2.2, t.Denotes := by
  obtain ⟨hvalue, hrest⟩ := ih.value hts
  rw [itemsOfTokens]
  dsimp only
  split
  case h_1 => exact ⟨List.forall_mem_singleton.mpr hvalue, hrest⟩
  case h_2 hafter =>
    exact ⟨List.forall_mem_singleton.mpr hvalue, (afterItem_rest hafter hrest).1⟩
  case h_3 hafter =>
    obtain ⟨hitems, hlast⟩ := ih.items ((afterItem_rest hafter hrest).2 _ rfl)
    exact ⟨List.forall_mem_cons.mpr ⟨hvalue, hitems⟩, hlast⟩

theorem denotes_membersOfTokens : (∀ m ∈ (membersOfTokens (limit + 1) ts).1, m.2.Denotes) ∧
    ∀ t ∈ (membersOfTokens (limit + 1) ts).2.2, t.Denotes := by
  rw [membersOfTokens.eq_def]
  dsimp only
  split
  case h_1 key rest =>
    have hrest := (List.forall_mem_cons.mp (List.forall_mem_cons.mp hts).2).2
    obtain ⟨hvalue, hrest⟩ := ih.value hrest
    split
    case h_1 => exact ⟨List.forall_mem_singleton.mpr hvalue, hrest⟩
    case h_2 hafter =>
      exact ⟨List.forall_mem_singleton.mpr hvalue, (afterItem_rest hafter hrest).1⟩
    case h_3 hafter =>
      obtain ⟨hmembers, hlast⟩ := ih.members ((afterItem_rest hafter hrest).2 _ rfl)
      exact ⟨List.forall_mem_cons.mpr ⟨hvalue, hmembers⟩, hlast⟩
  case h_2 =>
    exact ⟨List.forall_mem_singleton.mpr (.broken _), (List.forall_mem_cons.mp hts).2⟩
  case h_3 => exact ⟨List.forall_mem_nil _, List.forall_mem_nil _⟩
  case h_4 => exact ⟨List.forall_mem_nil _, hts⟩

end Step

theorem denotesUpTo (limit : Nat) : DenotesUpTo limit := by
  induction limit with
  | zero =>
      refine ⟨fun h => ?_, fun h => ?_, fun h => ?_⟩
      · rw [ofTokens]
        exact ⟨.broken _, h⟩
      · rw [itemsOfTokens]
        exact ⟨List.forall_mem_nil _, h⟩
      · rw [membersOfTokens]
        exact ⟨List.forall_mem_nil _, h⟩
  | succ limit ih =>
      exact ⟨denotes_ofTokens ih, denotes_itemsOfTokens ih, denotes_membersOfTokens ih⟩

theorem denotes_ofBytes (bytes : List UInt8) : (ofBytes bytes).1.Denotes := by
  rw [ofBytes]
  exact ((denotesUpTo _).value denotes_of_mem_tokensUpTo).1

theorem denotes_of_readItems {read : Outline → Reading Value} {items : List Outline}
    (hread : ∀ o ∈ items, ∀ v, read o = .ok v → v.Denotes) {vs : List Value}
    (h : readItems read none items = .ok vs) : ∀ v ∈ vs, v.Denotes := by
  induction items generalizing vs with
  | nil =>
      obtain ⟨-, rfl⟩ := readItems_nil_eq_ok_iff.mp h
      exact List.forall_mem_nil _
  | cons o items ih =>
      obtain ⟨v, vs, rfl, hv, hvs⟩ := readItems_cons_eq_ok_iff.mp h
      obtain ⟨ho, hitems⟩ := List.forall_mem_cons.mp hread
      exact List.forall_mem_cons.mpr ⟨ho v hv, ih hitems hvs⟩

theorem denotes_of_readMembers {read : Outline → Reading Value}
    {members : List (Reading String × Outline)}
    (hread : ∀ m ∈ members, ∀ v, read m.2 = .ok v → v.Denotes) {vs : List (String × Value)}
    (h : readMembers read none members = .ok vs) : ∀ m ∈ vs, m.2.Denotes := by
  induction members generalizing vs with
  | nil =>
      obtain ⟨-, rfl⟩ := readMembers_nil_eq_ok_iff.mp h
      exact List.forall_mem_nil _
  | cons o members ih =>
      obtain ⟨name, v, vs, rfl, -, hv, hvs⟩ := readMembers_cons_eq_ok_iff.mp h
      obtain ⟨ho, hmembers⟩ := List.forall_mem_cons.mp hread
      exact List.forall_mem_cons.mpr ⟨ho v hv, ih hmembers hvs⟩

theorem denotes_ofMembers {members : List (String × Value)} (h : ∀ m ∈ members, m.2.Denotes) :
    (Value.ofMembers members).Denotes := by
  refine .object fun ⟨name, v⟩ hm => ?_
  exact h _ (List.mem_reverse.mp (mem_of_lookup (Table.mem_ofList.mp hm)))

/-- What is kept of an outline has its numbers. -/
theorem denotes_of_toValue {budget : Nat} {o : Outline} {v : Value} (ho : o.Denotes)
    (h : o.toValue budget = .ok v) : v.Denotes := by
  induction budget generalizing o v with
  | zero =>
      cases kept_of_toValue h with
      | number x =>
          cases ho with
          | number hx => exact .number (hx _ rfl)
      | _ => constructor
  | succ budget ih =>
      cases kept_of_toValue h with
      | number x =>
          cases ho with
          | number hx => exact .number (hx _ rfl)
      | array hvs =>
          cases ho with
          | array hitems =>
              exact .array (denotes_of_readItems (fun o ho _ hv => ih (hitems o ho) hv) hvs)
      | object hvs =>
          cases ho with
          | object hmembers =>
              exact denotes_ofMembers
                (denotes_of_readMembers (fun m hm _ hv => ih (hmembers m hm) hv) hvs)
      | _ => constructor

end Outline

/-- The numbers of a value that is read are denoted by its text. -/
theorem denotes_of_parse {bytes : List UInt8} {v : Value} (h : parse bytes = .ok v) :
    v.Denotes :=
  Outline.denotes_of_toValue (Outline.denotes_ofBytes bytes) (Outline.readWhole_eq_ok_iff.mp h).1

theorem denoted_of_parse {bytes : List UInt8} {x : Number} (h : parse bytes = .ok (.number x)) :
    x.Denoted := by
  cases denotes_of_parse h with
  | number hx => exact hx

namespace Number

/-- The text of a number in a layout of its decimals. -/
def textIn (l : Layout) : Number → List Char
  | .integer i => intText i
  | .float x => (x.text l).toList

/-- The binary number that is nearest to a number. -/
def nearest : Number → Binary64
  | .integer i => (Magnitude.ofNat i.natAbs).signed (decide (i < 0))
  | .float x => x

theorem text_eq_textIn (x : Number) : x.text = x.textIn floatLayout := by
  cases x <;> rfl

theorem Denoted.natAbs_lt {i : Int} (h : (integer i).Denoted) : i.natAbs < Nat.pow 2 64 := by
  rw [Denoted] at h
  rw [Nat.pow_eq]
  omega

/-- The text of a number is read as the number nearest to it. -/
theorem readBinary64_textIn (l : Layout) {x : Number} (h : x.Denoted) :
    readBinary64 (String.ofList (x.textIn l)) = some x.nearest := by
  cases x with
  | integer i => exact readBinary64_intText h.natAbs_lt
  | float y =>
      cases y with
      | finite negative m e =>
          rw [textIn, String.ofList_toList]
          exact readBinary64_text l h negative
      | infinite => exact h.elim
      | nan => exact h.elim

theorem nearest_finite {x : Number} (h : x.Denoted) :
    ∃ negative m e, x.nearest = .finite negative m e := by
  cases x with
  | integer i =>
      obtain ⟨m, e, hfinite, -⟩ := isFinite_ofNat h.natAbs_lt
      exact ⟨_, m, e, by rw [nearest, hfinite]; rfl⟩
  | float y =>
      cases y with
      | finite negative m e => exact ⟨negative, m, e, rfl⟩
      | infinite => exact h.elim
      | nan => exact h.elim

end Number

end ApiCommands.Json
