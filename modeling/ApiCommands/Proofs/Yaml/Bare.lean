import ApiCommands.Proofs.Json.Kept
import ApiCommands.Yaml.Printer

namespace ApiCommands.Yaml

/-!
# Bare texts

A text without quotes ends with its line, or at a colon before a gap. Words, numbers and plain
texts are told apart: a plain text is none that would be read as something else.
-/

open Decimal
open Json (Number Value)

/-- What may stand after a text on one line: the end of the line, or a colon and a gap. -/
inductive Ends : List Char → Prop where
  | line (r : List Char) : Ends ('\n' :: r)
  | colon {c : Char} (hc : isGap c = true) (r : List Char) : Ends (':' :: c :: r)

/-- A text without quotes that has an end. -/
structure Bare (t : List Char) : Prop where
  ne_nil : t ≠ []
  line : '\n' ∉ t
  colon : ∀ before after, t = before ++ ':' :: after → startsWithGap after = false
  mark : ∀ c rest, t = c :: rest → c ≠ '\'' ∧ c ≠ '"' ∧ c ≠ '|'
  gap : ∀ c rest, t = c :: rest → c = '-' ∨ c = '?' → startsWithGap rest = false

theorem Bare.not_extended {t z y : List Char} (h : Bare (t ++ z)) (hends : Ends (z ++ y)) :
    z = [] := by
  cases z with
  | nil => rfl
  | cons c z =>
      exfalso
      rw [List.cons_append] at hends
      generalize hzy : z ++ y = w at hends
      cases hends with
      | line => exact h.line (List.mem_append_right t List.mem_cons_self)
      | colon hc =>
          have hgap := h.colon t z rfl
          cases z with
          | nil => cases hgap
          | cons d z =>
              obtain ⟨rfl, -⟩ := List.cons.inj hzy
              rw [startsWithGap, hc] at hgap
              cases hgap

/-- Where a bare text ends is told by what stands after it. -/
theorem Bare.append_inj {t t' x x' : List Char} (ht : Bare t) (ht' : Bare t') (hx : Ends x)
    (hx' : Ends x') (h : t ++ x = t' ++ x') : t = t' ∧ x = x' := by
  rcases List.append_eq_append_iff.mp h with ⟨z, rfl, rfl⟩ | ⟨z, rfl, rfl⟩
  · rw [ht'.not_extended hx, List.append_nil]
    exact ⟨rfl, rfl⟩
  · rw [ht.not_extended hx', List.append_nil]
    exact ⟨rfl, rfl⟩

/-- The characters of numbers. -/
def IsNumeric (c : Char) : Prop := isDigit c = true ∨ c = '-' ∨ c = '.' ∨ c = 'e'

/-- A number begins with a digit, after its sign if it has one. -/
structure NumberLike (t : List Char) : Prop where
  numeric : ∀ c ∈ t, IsNumeric c
  digit : ∃ negative c rest, t = signText negative ++ c :: rest ∧ isDigit c = true

theorem isNumeric_of_mem_intText {i : Int} {c : Char} (h : c ∈ intText i) :
    isDigit c = true ∨ c = '-' := by
  cases i with
  | ofNat n => exact .inl (isDigit_of_mem_natDigits h)
  | negSucc n =>
      rcases List.mem_cons.mp h with rfl | h
      · exact .inr rfl
      · exact .inl (isDigit_of_mem_natDigits h)

theorem numberLike_intText (i : Int) : NumberLike (intText i) where
  numeric c hc := (isNumeric_of_mem_intText hc).imp_right .inl
  digit := by
    have hdigits : ∀ n, ∃ c rest, natDigits n = c :: rest ∧ isDigit c = true := by
      intro n
      obtain ⟨c, rest, h⟩ := List.exists_cons_of_ne_nil (Nat.toDigits_ne_nil (n := n) (b := 10))
      exact ⟨c, rest, h, isDigit_of_mem_natDigits (h ▸ List.mem_cons_self)⟩
    cases i with
    | ofNat n =>
        obtain ⟨c, rest, h, hc⟩ := hdigits n
        exact ⟨false, c, rest, h, hc⟩
    | negSucc n =>
        obtain ⟨c, rest, h, hc⟩ := hdigits (n + 1)
        exact ⟨true, c, rest, congrArg ('-' :: ·) h, hc⟩

/-- What a decimal is written as: a digit first, and a point or a power somewhere. -/
structure DecimalLike (t : List Char) : Prop where
  numeric : ∀ c ∈ t, IsNumeric c
  digit : ∃ c rest, t = c :: rest ∧ isDigit c = true
  marked : '.' ∈ t ∨ 'e' ∈ t

theorem decimalLike_scientific {ds : List Char} (hne : ds ≠ [])
    (hdigits : ∀ c ∈ ds, isDigit c = true) (power : Int) :
    DecimalLike (scientific floatLayout ds power) := by
  have hpower : ∀ c ∈ intText power, IsNumeric c := (numberLike_intText power).numeric
  cases ds with
  | nil => exact (hne rfl).elim
  | cons c ds =>
      obtain ⟨hc, hrest⟩ := List.forall_mem_cons.mp hdigits
      have hmarked : ∀ mantissa, (∀ x ∈ mantissa, IsNumeric x) →
          ∀ x ∈ mantissa ++ ['e'] ++ intText power, IsNumeric x := by
        intro mantissa hmantissa
        have he : ∀ x ∈ ['e'], IsNumeric x :=
          List.forall_mem_singleton.mpr (.inr (.inr (.inr rfl)))
        exact List.forall_mem_append.mpr ⟨List.forall_mem_append.mpr ⟨hmantissa, he⟩, hpower⟩
      cases ds with
      | nil =>
          refine ⟨?_, ⟨c, _, rfl, hc⟩, .inr (by simp [scientific])⟩
          exact hmarked [c] (List.forall_mem_singleton.mpr (.inl hc))
      | cons c' ds =>
          refine ⟨?_, ⟨c, _, rfl, hc⟩, .inr (by simp [scientific])⟩
          have hpoint : ∀ x ∈ c :: '.' :: c' :: ds, IsNumeric x :=
            List.forall_mem_cons.mpr ⟨.inl hc, List.forall_mem_cons.mpr
              ⟨.inr (.inr (.inl rfl)), fun x hx => .inl (hrest x hx)⟩⟩
          exact hmarked _ hpoint

theorem decimalLike_positional {whole f : List Char} (h : IsNumeral whole (some f)) :
    DecimalLike (whole ++ '.' :: f) := by
  obtain ⟨c, rest, rfl⟩ := List.exists_cons_of_ne_nil h.whole_ne_nil
  refine ⟨?_, ⟨c, _, rfl, h.isDigit_whole c List.mem_cons_self⟩, .inl (by simp)⟩
  refine List.forall_mem_append.mpr ⟨fun x hx => .inl (h.isDigit_whole x hx), ?_⟩
  exact List.forall_mem_cons.mpr ⟨.inr (.inr (.inl rfl)), fun x hx => .inl (h.isDigit_fraction f rfl x hx)⟩

theorem decimalLike_digitsText {d : Digits} (hd : d.coefficient = 0 → d.exponent ≤ 0) :
    DecimalLike (digitsText floatLayout d) := by
  rw [digitsText]
  split
  case isTrue =>
    exact decimalLike_scientific Nat.toDigits_ne_nil (fun _ => isDigit_of_mem_natDigits) _
  case isFalse =>
    have hnumeral := isNumeral_parts hd
    rw [Int.sub_add_cancel, positional_eq]
    change DecimalLike (d.parts.1 ++ pointText (fractionOf floatLayout d.parts.2))
    cases hparts : d.parts.2 with
    | some f => exact decimalLike_positional (hparts ▸ hnumeral)
    | none =>
        refine decimalLike_positional (f := ['0']) ⟨hnumeral.whole_ne_nil, hnumeral.isDigit_whole,
          hnumeral.zero_alone, ?_, ?_⟩
        · rintro _ ⟨⟩
          exact List.cons_ne_nil _ _
        · rintro _ ⟨⟩
          exact List.forall_mem_singleton.mpr rfl

theorem numberText_eq_textIn (x : Number) : numberText x = x.textIn floatLayout := by
  cases x <;> rfl

theorem toList_text {negative : Bool} {m : Nat} {e : Int} :
    ((Binary64.finite negative m e).text floatLayout).toList =
      signText negative ++ digitsText floatLayout (shortest floatLayout.tie m e) := by
  rw [Binary64.text, String.toList_ofList]

theorem numberLike_numberText {x : Number} (h : x.Denoted) : NumberLike (numberText x) := by
  cases x with
  | integer i => exact numberLike_intText i
  | float y =>
      cases y with
      | finite negative m e =>
          obtain ⟨hnumeric, ⟨c, rest, hdigits, hc⟩, -⟩ :=
            decimalLike_digitsText (shortest_bounds floatLayout.tie m e).1
          rw [numberText, toList_text]
          refine ⟨List.forall_mem_append.mpr ⟨?_, hnumeric⟩, negative, c, rest, by rw [hdigits], hc⟩
          cases negative with
          | false => exact List.forall_mem_nil _
          | true => exact List.forall_mem_singleton.mpr (.inr (.inl rfl))
      | infinite => exact h.elim
      | nan => exact h.elim

theorem natDigits_injective : Function.Injective natDigits := by
  intro n n' h
  have hvalue := digitsValue_natDigits n
  rwa [h, digitsValue_natDigits, eq_comm] at hvalue

theorem intText_injective : Function.Injective intText := by
  intro i j h
  cases i with
  | ofNat n =>
      cases j with
      | ofNat n' => rw [natDigits_injective h]
      | negSucc n' => exact (natDigits_ne_cons (by decide) _ h).elim
  | negSucc n =>
      cases j with
      | ofNat n' => exact (natDigits_ne_cons (by decide) _ h.symm).elim
      | negSucc n' => rw [Nat.succ.inj (natDigits_injective (List.cons.inj h).2)]

/-- No binary number is written like an integer. -/
theorem intText_ne_text {i : Int} {negative : Bool} {m : Nat} {e : Int} :
    intText i ≠ ((Binary64.finite negative m e).text floatLayout).toList := by
  intro h
  obtain ⟨-, -, hmarked⟩ := decimalLike_digitsText (shortest_bounds floatLayout.tie m e).1
  have hdigits : ∀ c ∈ digitsText floatLayout (shortest floatLayout.tie m e),
      isDigit c = true ∨ c = '-' := by
    intro c hc
    refine isNumeric_of_mem_intText (i := i) ?_
    rw [h, toList_text]
    exact List.mem_append_right _ hc
  rcases hmarked with hmem | hmem
  · rcases hdigits _ hmem with hbad | hbad <;> simp [isDigit] at hbad
  · rcases hdigits _ hmem with hbad | hbad <;> simp [isDigit] at hbad

/-- Numbers with the same text are the same. -/
theorem numberText_inj {x y : Number} (hx : x.Denoted) (hy : y.Denoted)
    (h : numberText x = numberText y) : x = y := by
  cases x with
  | integer i =>
      cases y with
      | integer j => rw [intText_injective h]
      | float y =>
          cases y with
          | finite => exact (intText_ne_text h).elim
          | infinite => exact hy.elim
          | nan => exact hy.elim
  | float x =>
      cases x with
      | finite =>
          cases y with
          | integer j => exact (intText_ne_text h.symm).elim
          | float y =>
              cases y with
              | finite => rw [text_injective floatLayout hx hy (String.toList_injective h)]
              | infinite => exact hy.elim
              | nan => exact hy.elim
      | infinite => exact hx.elim
      | nan => exact hx.elim

theorem isFloat_of_read {cs : List Char} (hplus : ∀ rest, cs ≠ '+' :: rest)
    (hzero : hasLeadingZero cs = false) {negative : Bool} {m : Nat} {e : Int}
    (hread : readBinary64 (String.ofList cs) = some (.finite negative m e)) :
    isFloat cs = true := by
  cases cs with
  | nil => cases hread
  | cons c rest =>
      have hc : c ≠ '+' := fun h => hplus rest (by rw [h])
      have hfinite : isFinite (readBinary64 (String.ofList (c :: rest))) = true := by
        rw [hread]
        rfl
      unfold isFloat
      simp only [hzero, hfinite, Bool.or_true, Bool.false_or]
      split
      case h_1 heq => exact (hc (List.cons.inj heq).1).elim
      case h_2 heq => exact (hc (List.cons.inj heq).1).elim
      case h_3 => rfl

/-- The text of a number would be read as a number, so no text is written like one. -/
theorem isAmbiguous_numberText {x : Number} (h : x.Denoted) :
    isAmbiguous (String.ofList (numberText x)) = true := by
  obtain ⟨negative, c, rest, htext, hc⟩ := (numberLike_numberText h).digit
  have hplus : ∀ cs, numberText x ≠ '+' :: cs := by
    intro cs hcs
    rw [htext] at hcs
    cases negative with
    | true => cases (List.cons.inj hcs).1
    | false =>
        rw [(List.cons.inj hcs).1] at hc
        cases hc
  have hread := Number.readBinary64_textIn floatLayout h
  rw [← numberText_eq_textIn] at hread
  obtain ⟨negative, m, e, hfinite⟩ := Number.nearest_finite h
  rw [isAmbiguous, String.toList_ofList]
  cases hzero : hasLeadingZero (numberText x) with
  | true => simp
  | false => rw [isFloat_of_read hplus hzero (hread.trans (congrArg some hfinite)), Bool.or_true]

theorem style_eq_plain {s : String} (h : style s = .plain) :
    '\n' ∉ s.toList ∧ isAmbiguous s = false ∧ allowsPlain s.toList = true := by
  rw [style] at h
  split at h
  case isTrue => split at h <;> cases h
  case isFalse hbreak =>
    split at h
    case isTrue hplain =>
      rw [Bool.and_eq_true, Bool.not_eq_true'] at hplain
      exact ⟨by simpa using hbreak, hplain⟩
    case isFalse => split at h <;> cases h

theorem startsWithGap_of_hasInnerMark {b : Char} {cs : List Char} (h : hasInnerMark b cs = false)
    {before after : List Char} (hcs : cs = before ++ ':' :: after) :
    startsWithGap after = false := by
  induction before generalizing b cs with
  | nil =>
      rw [hcs, List.nil_append, hasInnerMark] at h
      simpa using (Bool.or_eq_false_iff.mp (Bool.or_eq_false_iff.mp h).1).1
  | cons c before ih =>
      rw [hcs, List.cons_append, hasInnerMark] at h
      exact ih (Bool.or_eq_false_iff.mp h).2 rfl

theorem marks_of_hasFirstMark {c : Char} {rest : List Char}
    (h : hasFirstMark (c :: rest) = false) :
    (c ≠ '\'' ∧ c ≠ '"' ∧ c ≠ '|' ∧ c ≠ '[' ∧ c ≠ '\x7b') ∧
      (c = '-' ∨ c = '?' ∨ c = ':' → startsWithGap rest = false) := by
  rw [hasFirstMark.eq_def] at h
  split at h
  case h_1 => cases h
  case h_2 => cases h
  case h_3 heq =>
    obtain ⟨rfl, rfl⟩ := List.cons.inj heq
    obtain ⟨hmark, hgap⟩ := Bool.or_eq_false_iff.mp h
    refine ⟨⟨?_, ?_, ?_, ?_, ?_⟩, fun hc => ?_⟩
    · rintro rfl
      cases hmark
    · rintro rfl
      cases hmark
    · rintro rfl
      cases hmark
    · rintro rfl
      cases hmark
    · rintro rfl
      cases hmark
    · rcases hc with rfl | rfl | rfl <;> simpa using hgap
  case h_4 heq => cases heq

theorem bare_of_plain {s : String} (h : style s = .plain) :
    Bare s.toList ∧ ∀ rest, s.toList ≠ '[' :: rest ∧ s.toList ≠ '\x7b' :: rest := by
  obtain ⟨hline, hambiguous, hplain⟩ := style_eq_plain h
  obtain ⟨c, rest, hcs⟩ : ∃ c rest, s.toList = c :: rest := by
    refine List.exists_cons_of_ne_nil fun hnil => ?_
    obtain rfl : s = "" := String.toList_eq_nil_iff.mp hnil
    cases hambiguous
  have hmark : hasMark s.toList = false := by
    rw [allowsPlain, Bool.and_eq_true, Bool.not_eq_true'] at hplain
    exact hplain.2
  rw [hcs, hasMark, Bool.or_eq_false_iff] at hmark
  obtain ⟨⟨hsingle, hdouble, hpipe, hbracket, hbrace⟩, hgap⟩ := marks_of_hasFirstMark hmark.1
  rw [hcs] at hline ⊢
  refine ⟨⟨List.cons_ne_nil c rest, hline, ?_, ?_, ?_⟩, fun rest' => ⟨?_, ?_⟩⟩
  · intro before after hsplit
    cases before with
    | nil =>
        obtain ⟨rfl, rfl⟩ := List.cons.inj hsplit
        exact hgap (.inr (.inr rfl))
    | cons b before => exact startsWithGap_of_hasInnerMark hmark.2 (List.cons.inj hsplit).2
  · rintro _ _ ⟨⟩
    exact ⟨hsingle, hdouble, hpipe⟩
  · rintro _ _ ⟨⟩ hc
    exact hgap (hc.imp_right .inl)
  · exact fun heq => hbracket (List.cons.inj heq).1
  · exact fun heq => hbrace (List.cons.inj heq).1

theorem isGap_of_isDigit {c : Char} (h : isDigit c = true) : isGap c = false := by
  refine Bool.eq_false_iff.mpr fun hgap => ?_
  simp only [isGap, isBreak, Bool.or_eq_true, beq_iff_eq] at hgap
  rcases hgap with ((rfl | rfl) | rfl) | (((rfl | rfl) | rfl) | rfl) | rfl <;> cases h

theorem bare_of_numberLike {t : List Char} (h : NumberLike t) : Bare t := by
  obtain ⟨negative, d, rest, rfl, hd⟩ := h.digit
  have hnever : ∀ c ∈ signText negative ++ d :: rest, c ≠ '\n' ∧ c ≠ ':' := by
    intro c hc
    constructor <;> rintro rfl <;> rcases h.numeric _ hc with hbad | hbad | hbad | hbad <;> cases hbad
  have hplain : ∀ c, isDigit c = true → c ≠ '\'' ∧ c ≠ '"' ∧ c ≠ '|' := by
    intro c hc
    refine ⟨?_, ?_, ?_⟩ <;> rintro rfl <;> cases hc
  refine ⟨by simp, fun hmem => (hnever _ hmem).1 rfl, ?_, ?_, ?_⟩
  · intro before after hsplit
    exact ((hnever ':' (by simp [hsplit])).2 rfl).elim
  · intro c cs hcs
    cases negative with
    | true =>
        rw [← (List.cons.inj hcs).1]
        decide
    | false => exact (List.cons.inj hcs).1 ▸ hplain d hd
  · intro c cs hcs hc
    cases negative with
    | true =>
        rw [← (List.cons.inj hcs).2]
        exact isGap_of_isDigit hd
    | false =>
        rw [← (List.cons.inj hcs).1] at hc
        rcases hc with rfl | rfl <;> cases hd

/-- The values that are written without quotes on one line, each with its text. -/
inductive BareOf : Value → List Char → Prop where
  | null : BareOf .null ['n', 'u', 'l', 'l']
  | yes : BareOf (.bool true) ['t', 'r', 'u', 'e']
  | no : BareOf (.bool false) ['f', 'a', 'l', 's', 'e']
  | number {x : Number} (h : x.Denoted) : BareOf (.number x) (numberText x)
  | plain {s : String} (h : style s = .plain) : BareOf (.string s) s.toList
  | array : BareOf (.array []) ['[', ']']
  | object : BareOf (.object []) ['\x7b', '\x7d']

theorem bare_of_word {c : Char} {rest : List Char} (hline : '\n' ∉ c :: rest)
    (hcolon : ':' ∉ c :: rest)
    (hmark : c ≠ '\'' ∧ c ≠ '"' ∧ c ≠ '|' ∧ c ≠ '-' ∧ c ≠ '?') : Bare (c :: rest) := by
  obtain ⟨hsingle, hdouble, hpipe, hdash, hquestion⟩ := hmark
  refine ⟨List.cons_ne_nil c rest, hline, ?_, ?_, ?_⟩
  · intro before after hsplit
    exact (hcolon (by simp [hsplit])).elim
  · rintro _ _ ⟨⟩
    exact ⟨hsingle, hdouble, hpipe⟩
  · rintro _ _ ⟨⟩ hc
    exact (hc.elim hdash hquestion).elim

theorem BareOf.bare {v : Value} {t : List Char} (h : BareOf v t) : Bare t := by
  cases h with
  | number h => exact bare_of_numberLike (numberLike_numberText h)
  | plain h => exact (bare_of_plain h).1
  | _ => exact bare_of_word (by decide) (by decide) (by decide)

/-- No text is written plain where it would be read as something else. -/
theorem BareOf.eq_string {v : Value} {s : String} (h : BareOf v s.toList)
    (hs : style s = .plain) : v = .string s := by
  obtain ⟨-, hambiguous, -⟩ := style_eq_plain hs
  obtain ⟨-, hbrackets⟩ := bare_of_plain hs
  generalize ht : s.toList = t at h
  have hword : s = String.ofList t := by rw [← ht, String.ofList_toList]
  cases h with
  | number h =>
      rw [hword, isAmbiguous_numberText h] at hambiguous
      cases hambiguous
  | plain h => rw [String.toList_injective ht]
  | array => exact ((hbrackets _).1 ht).elim
  | object => exact ((hbrackets _).2 ht).elim
  | _ =>
      rw [hword] at hambiguous
      cases hambiguous

theorem NumberLike.ne_word {t : List Char} (h : NumberLike t) {c : Char} {rest : List Char}
    (hc : isDigit c = false ∧ c ≠ '-') : t ≠ c :: rest := by
  obtain ⟨negative, d, ds, rfl, hd⟩ := h.digit
  intro heq
  cases negative with
  | true => exact hc.2 (List.cons.inj heq).1.symm
  | false =>
      rw [(List.cons.inj heq).1, hc.1] at hd
      cases hd

/-- Values with the same text are the same. -/
theorem BareOf.inj {v w : Value} {t : List Char} (hv : BareOf v t) (hw : BareOf w t) : v = w := by
  have hwords : ∀ {c : Char} {rest : List Char}, isDigit c = false ∧ c ≠ '-' → ∀ {x : Number},
      x.Denoted → numberText x ≠ c :: rest :=
    fun hc _ hx => (numberLike_numberText hx).ne_word hc
  have hv' := hv
  cases hv with
  | plain h => exact (hw.eq_string h).symm
  | number h =>
      generalize ht : numberText _ = t at hw
      cases hw with
      | number h' => rw [numberText_inj h h' ht]
      | plain h' => exact BareOf.eq_string (ht ▸ hv') h'
      | _ => exact (hwords (by decide) h ht).elim
  | _ =>
      generalize ht : List.cons _ _ = t at hw
      cases hw with
      | number h => exact (hwords (by decide) h ht.symm).elim
      | plain h => exact BareOf.eq_string (ht ▸ hv') h
      | _ => first | rfl | cases ht

end ApiCommands.Yaml
