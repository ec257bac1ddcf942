import ApiCommands.Proofs.Yaml.Bare
import ApiCommands.Proofs.Yaml.Block

namespace ApiCommands.Yaml

/-!
# How a node begins

The first characters of a node tell whether it is a list, an object, a block or a value on one
line, and for the last two kinds of line also which text or value stands on it.
-/

open Json (Value)

/-- A value that is written on one line or between quotes, with its text. -/
inductive Scalar (indent : Nat) : Value → List Char → Prop where
  | bare {v : Value} {t : List Char} (h : BareOf v t) : Scalar indent v t
  | single {s : String} (h : style s = .single) :
      Scalar indent (.string s) (writeSingle indent s.toList)
  | double {s : String} (h : style s = .double) : Scalar indent (.string s) (writeDouble s.toList)

section Scalar

variable {indent : Nat} {v w : Value} {t t' x x' : List Char}

theorem Ends.head?_ne_quote (hx : Ends x) : x.head? ≠ some '\'' := by
  cases hx <;> exact fun h => by cases Option.some.inj h

theorem BareOf.head (h : BareOf v t) :
    ∃ c rest, t = c :: rest ∧ c ≠ '\'' ∧ c ≠ '"' ∧ c ≠ '|' := by
  obtain ⟨c, rest, rfl⟩ := List.exists_cons_of_ne_nil h.bare.ne_nil
  exact ⟨c, rest, rfl, h.bare.mark c rest rfl⟩

/-- A value without quotes does not look like one between quotes. -/
theorem BareOf.append_ne_quote (h : BareOf v t) {c : Char} (hc : c = '\'' ∨ c = '"')
    (rest : List Char) : t ++ x ≠ c :: rest := by
  obtain ⟨d, rest', rfl, hsingle, hdouble, -⟩ := h.head
  intro heq
  obtain ⟨rfl, -⟩ := List.cons.inj heq
  exact hc.elim hsingle hdouble

/-- A value on one line is told by its text up to where the text ends. -/
theorem Scalar.inj (hv : Scalar indent v t) (hw : Scalar indent w t') (hx : Ends x)
    (hx' : Ends x') (h : t ++ x = t' ++ x') : v = w ∧ x = x' := by
  cases hv with
  | bare hv =>
      cases hw with
      | bare hw =>
          obtain ⟨rfl, rfl⟩ := hv.bare.append_inj hw.bare hx hx' h
          exact ⟨hv.inj hw, rfl⟩
      | single => exact (hv.append_ne_quote (.inl rfl) _ h).elim
      | double => exact (hv.append_ne_quote (.inr rfl) _ h).elim
  | single =>
      cases hw with
      | bare hw => exact (hw.append_ne_quote (.inl rfl) _ h.symm).elim
      | single =>
          obtain ⟨hs, hrest⟩ := writeSingle_inj hx.head?_ne_quote hx'.head?_ne_quote h
          exact ⟨by rw [String.toList_injective hs], hrest⟩
      | double => cases (List.cons.inj h).1
  | double =>
      cases hw with
      | bare hw => exact (hw.append_ne_quote (.inr rfl) _ h.symm).elim
      | single => cases (List.cons.inj h).1
      | double =>
          obtain ⟨hs, hrest⟩ := writeDouble_inj h
          exact ⟨by rw [String.toList_injective hs], hrest⟩

theorem Scalar.ne_block (hv : Scalar indent v t) (rest : List Char) : t ++ x ≠ '|' :: rest := by
  intro heq
  cases hv with
  | bare h =>
      obtain ⟨c, rest', rfl, -, -, hpipe⟩ := h.head
      exact hpipe (List.cons.inj heq).1
  | single => cases (List.cons.inj heq).1
  | double => cases (List.cons.inj heq).1

/-- A value on one line does not look like an item or a long name. -/
theorem Scalar.ne_mark (hv : Scalar indent v t) {c : Char} (hc : c = '-' ∨ c = '?')
    (rest : List Char) : t ++ x ≠ c :: ' ' :: rest := by
  intro heq
  cases hv with
  | bare h =>
      obtain ⟨d, rest', rfl, -⟩ := h.head
      obtain ⟨rfl, htail⟩ := List.cons.inj heq
      have hgap := h.bare.gap d rest' rfl hc
      cases rest' with
      | nil => cases hgap
      | cons e rest' =>
          rw [(List.cons.inj htail).1] at hgap
          cases hgap
  | single => rcases hc with rfl | rfl <;> cases (List.cons.inj heq).1
  | double => rcases hc with rfl | rfl <;> cases (List.cons.inj heq).1

end Scalar

theorem not_break_of_plain {s : String} (h : style s = .plain) : s.toList.any isBreak = false := by
  obtain ⟨-, -, hplain⟩ := style_eq_plain h
  simp only [allowsPlain, Bool.and_eq_true, Bool.not_eq_true'] at hplain
  exact hplain.1.2

/-- A text on one line begins with something that is neither a blank nor a line break. -/
theorem Scalar.head {indent : Nat} {s : String} {t : List Char} (h : Scalar indent (.string s) t) :
    ∃ c rest, t = c :: rest ∧ c ≠ ' ' ∧ isBreak c = false := by
  cases h with
  | bare h =>
      cases h with
      | plain hstyle =>
          obtain ⟨c, rest, hcs⟩ := List.exists_cons_of_ne_nil (bare_of_plain hstyle).1.ne_nil
          have hbreak := not_break_of_plain hstyle
          obtain ⟨-, -, hplain⟩ := style_eq_plain hstyle
          simp only [allowsPlain, edgeIs, Bool.and_eq_true, Bool.not_eq_true'] at hplain
          have hspace := (Bool.or_eq_false_iff.mp hplain.1.1.2).1
          rw [hcs] at hspace hbreak ⊢
          exact ⟨c, rest, rfl, by simpa [isSpace] using hspace, (Bool.or_eq_false_iff.mp hbreak).1⟩
  | single => exact ⟨_, _, rfl, by decide, rfl⟩
  | double => exact ⟨_, _, rfl, by decide, rfl⟩

theorem indentLines_of_not_break {cs : List Char} (h : cs.any isBreak = false) (indent : Nat)
    (write : Char → List Char) : indentLines indent write false cs = cs.flatMap write := by
  induction cs with
  | nil => rfl
  | cons c cs ih =>
      obtain ⟨hc, hcs⟩ := Bool.or_eq_false_iff.mp h
      rw [indentLines_cons_of_not_break indent write false hc, ih hcs, List.flatMap_cons]
      rfl

theorem getLast?_not_break {cs : List Char} (h : cs.any isBreak = false) :
    cs.getLast?.any isBreak = false := by
  rw [List.any_eq_false] at h
  cases hlast : cs.getLast? with
  | none => rfl
  | some c => exact Bool.eq_false_iff.mpr (h c (List.mem_of_getLast? hlast))

theorem writeSingle_of_not_break {cs : List Char} (h : cs.any isBreak = false) (indent : Nat) :
    writeSingle indent cs = '\'' :: cs.flatMap singleChar ++ ['\''] := by
  rw [writeSingle, indentLines_of_not_break h, getLast?_not_break h]
  simp

theorem endLine_of_not_break {cs : List Char} (h : cs.getLast?.any isBreak = false) :
    endLine cs = cs ++ ['\n'] := by
  rw [endLine, if_neg (by simp [h])]

/-- A short name stands before its colon as it would on a line of its own. -/
theorem scalar_of_isShortName {name : String} (h : isShortName name = true) (indent indent' : Nat) :
    Scalar indent (.string name) (writeText indent' name) := by
  have hbreak : name.toList.any isBreak = false := by
    rw [isShortName, Bool.and_eq_true, Bool.not_eq_true'] at h
    exact h.1
  rw [writeText]
  split
  case h_1 hstyle => exact .bare (.plain hstyle)
  case h_2 hstyle =>
    rw [writeSingle_of_not_break hbreak, ← writeSingle_of_not_break hbreak indent]
    exact .single hstyle
  case h_3 hstyle => exact .double hstyle
  case h_4 hstyle =>
    exact (List.any_eq_false.mp hbreak '\n' (mem_of_literal hstyle) rfl).elim

/-- A value that has no items or members on lines of their own. -/
def IsLeaf : Value → Prop
  | .array (_ :: _) => False
  | .object (_ :: _) => False
  | _ => True

theorem leafText_of_literal {s : String} (indent : Nat) (h : style s = .literal) :
    leafText indent (.string s) = blockText indent s.toList := by
  rw [leafText, writeText, h]
  exact endLine_writeLiteral indent (List.ne_nil_of_mem (mem_of_literal h))

/-- A text stands in a block or on one line. -/
theorem textLine_cases (indent : Nat) (s : String) :
    style s = .literal ∨ ∃ t, Scalar indent (.string s) t ∧
      leafText indent (.string s) = t ++ ['\n'] := by
  rw [leafText, writeText]
  split
  case h_1 hstyle =>
    exact .inr ⟨_, .bare (.plain hstyle),
      endLine_of_not_break (getLast?_not_break (not_break_of_plain hstyle))⟩
  case h_2 hstyle =>
    refine .inr ⟨_, .single hstyle, endLine_of_not_break ?_⟩
    rw [writeSingle, List.getLast?_concat]
    rfl
  case h_3 hstyle =>
    refine .inr ⟨_, .double hstyle, endLine_of_not_break ?_⟩
    rw [writeDouble, List.getLast?_concat]
    rfl
  case h_4 hstyle => exact .inl hstyle

theorem leafText_cases {v : Value} (hv : v.Denotes) (hleaf : IsLeaf v) (indent : Nat) :
    (∃ s, v = .string s ∧ style s = .literal) ∨
      ∃ t, Scalar indent v t ∧ leafText indent v = t ++ ['\n'] := by
  cases hv with
  | null => exact .inr ⟨_, .bare .null, rfl⟩
  | bool b =>
      cases b with
      | true => exact .inr ⟨_, .bare .yes, rfl⟩
      | false => exact .inr ⟨_, .bare .no, rfl⟩
  | number hx => exact .inr ⟨_, .bare (.number hx), rfl⟩
  | string s => exact (textLine_cases indent s).imp_left fun h => ⟨s, rfl, h⟩
  | @array items =>
      cases items with
      | nil => exact .inr ⟨_, .bare .array, rfl⟩
      | cons => exact hleaf.elim
  | @object members =>
      cases members with
      | nil => exact .inr ⟨_, .bare .object, rfl⟩
      | cons => exact hleaf.elim

inductive Kind where
  | items
  | members
  | leaf

/-- How a node of each kind begins. -/
inductive Opens (indent : Nat) : Kind → List Char → Prop where
  | item (x : List Char) : Opens indent .items ('-' :: ' ' :: x)
  | longName (x : List Char) : Opens indent .members ('?' :: ' ' :: x)
  | shortName {name : String} {t : List Char} (h : Scalar indent (.string name) t) {c : Char}
      (hc : isGap c = true) (x : List Char) : Opens indent .members (t ++ ':' :: c :: x)
  | block (x : List Char) : Opens indent .leaf ('|' :: x)
  | line {v : Value} {t : List Char} (h : Scalar indent v t) (x : List Char) :
      Opens indent .leaf (t ++ '\n' :: x)

/-- No text opens two kinds of nodes. -/
theorem Opens.unique {indent : Nat} {k k' : Kind} {x : List Char} (h : Opens indent k x)
    (h' : Opens indent k' x) : k = k' := by
  generalize hx : x = y at h'
  cases h with
  | item =>
      cases h' with
      | item => rfl
      | shortName ht => exact (ht.ne_mark (.inl rfl) _ hx.symm).elim
      | line ht => exact (ht.ne_mark (.inl rfl) _ hx.symm).elim
      | _ => cases (List.cons.inj hx).1
  | longName =>
      cases h' with
      | longName => rfl
      | shortName => rfl
      | line ht => exact (ht.ne_mark (.inr rfl) _ hx.symm).elim
      | _ => cases (List.cons.inj hx).1
  | block =>
      cases h' with
      | shortName ht => exact (ht.ne_block _ hx.symm).elim
      | block => rfl
      | line => rfl
      | _ => cases (List.cons.inj hx).1
  | shortName ht hc rest =>
      cases h' with
      | item => exact (ht.ne_mark (.inl rfl) _ hx).elim
      | block => exact (ht.ne_block _ hx).elim
      | line ht' rest' => cases (ht.inj ht' (.colon hc rest) (.line rest') hx).2
      | _ => rfl
  | line ht rest =>
      cases h' with
      | item => exact (ht.ne_mark (.inl rfl) _ hx).elim
      | longName => exact (ht.ne_mark (.inr rfl) _ hx).elim
      | shortName ht' hc' rest' => cases (ht.inj ht' (.line rest) (.colon hc' rest') hx).2
      | _ => rfl

end ApiCommands.Yaml
