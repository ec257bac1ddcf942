import ApiCommands.Output
import ApiCommands.Proofs.Text.Trimmed
import ApiCommands.Proofs.Yaml.Apart
import Mathlib

namespace ApiCommands.Yaml

/-!
# What is printed of a value

The line breaks at the end of a document are cut off, and with them those of a kept block that the
document ends with. Two values have the same text just when they differ in nothing else.
-/

open Json (Value)

/-- Two values with the same texts but for line breaks at the end, of which each has its own
number. -/
structure SameUpTo (j k : Nat) (v w : Value) : Prop where
  node (indent inner : Nat) : nodeText indent inner v ++ List.replicate j '\n' =
    nodeText indent inner w ++ List.replicate k '\n'
  name (indent : Nat) : afterName indent v ++ List.replicate j '\n' =
    afterName indent w ++ List.replicate k '\n'
  eq_of_eq : j = k → v = w

theorem blockLines_breaks (indent : Nat) (atBreak : Bool) (n : Nat) :
    blockLines indent atBreak (List.replicate n '\n') = List.replicate n '\n' := by
  induction n generalizing atBreak with
  | zero => rfl
  | succ n ih =>
      rw [List.replicate_succ, blockLines_cons_of_break indent atBreak _ rfl, ih]

theorem indentHint_breaks {base : List Char} {j k : Nat}
    (hj : base ++ List.replicate j '\n' ≠ []) (hk : base ++ List.replicate k '\n' ≠ []) :
    indentHint (base ++ List.replicate j '\n') = indentHint (base ++ List.replicate k '\n') := by
  cases base with
  | cons c base => rfl
  | nil =>
      cases j with
      | zero => exact (hj rfl).elim
      | succ j =>
          cases k with
          | zero => exact (hk rfl).elim
          | succ k => rfl

/-- Kept blocks are written as they are, so the line breaks at their end are those of the text. -/
theorem blockText_alike {s s' : String} (h : AlikeBlocks s s') :
    ∃ j k, (j = k → s = s') ∧ ∀ indent, blockText indent s.toList ++ List.replicate j '\n' =
      blockText indent s'.toList ++ List.replicate k '\n' := by
  have hne := List.ne_nil_of_mem (mem_of_literal h.literal)
  have hne' := List.ne_nil_of_mem (mem_of_literal h.literal')
  have hkept := h.kept
  have hkept' := h.kept'
  obtain ⟨base, j, k, hs, hs'⟩ := h.alike
  refine ⟨k, j, ?_, fun indent => ?_⟩
  · rintro rfl
    exact String.toList_injective (hs.trans hs'.symm)
  rw [blockText, blockText, closed_of_kept hne hkept, closed_of_kept hne' hkept', blockMarks,
    blockMarks, hkept, hkept']
  rw [hs] at hne ⊢
  rw [hs'] at hne' ⊢
  rw [indentHint_breaks hne hne']
  simp only [blockLines_append, blockLines_breaks, List.cons_append, List.append_assoc,
    List.replicate_append_replicate, Nat.add_comm j k]

theorem spaces_nodeText_items (indent inner : Nat) (front : List Value) (v : Value) :
    spaces indent ++ nodeText indent inner (.array (front ++ [v])) =
      lines indent (itemText indent) (front ++ [v]) := by
  cases front with
  | nil => exact spaces_itemLines indent v []
  | cons x xs => exact spaces_itemLines indent x (xs ++ [v])

theorem spaces_nodeText_members (indent inner : Nat) (front : List (String × Value))
    (m : String × Value) :
    spaces indent ++ nodeText indent inner (.object (front ++ [m])) =
      lines indent (memberText indent) (front ++ [m]) := by
  cases front with
  | nil => exact spaces_memberLines indent m []
  | cons x xs => exact spaces_memberLines indent x (xs ++ [m])

theorem afterName_items (indent : Nat) (front : List Value) (v : Value) :
    afterName indent (.array (front ++ [v])) =
      '\n' :: lines indent (itemText indent) (front ++ [v]) := by
  cases front with
  | nil => rw [List.nil_append, afterName, itemLines_false]
  | cons x xs => rw [List.cons_append, afterName, itemLines_false]

theorem afterName_members (indent : Nat) (front : List (String × Value)) (m : String × Value) :
    afterName indent (.object (front ++ [m])) =
      '\n' :: lines (indent + 2) (memberText (indent + 2)) (front ++ [m]) := by
  cases front with
  | nil => rw [List.nil_append, afterName, memberLines_false]
  | cons x xs => rw [List.cons_append, afterName, memberLines_false]

section Last

variable {α : Type} {indent j k : Nat} {entry : α → List Char}

theorem lines_concat_append (front : List α) (a : α) (r : List Char) :
    lines indent entry (front ++ [a]) ++ r =
      lines indent entry front ++ (spaces indent ++ (entry a ++ r)) := by
  simp only [lines, List.flatMap_append, List.flatMap_cons, List.flatMap_nil, List.append_nil,
    List.append_assoc]

theorem lines_concat_congr {a b : α} (h : entry a ++ List.replicate j '\n' =
    entry b ++ List.replicate k '\n') (front : List α) :
    lines indent entry (front ++ [a]) ++ List.replicate j '\n' =
      lines indent entry (front ++ [b]) ++ List.replicate k '\n' := by
  rw [lines_concat_append, lines_concat_append, h]

end Last

theorem itemText_congr {j k : Nat} {v w : Value} (h : SameUpTo j k v w) (indent : Nat) :
    itemText indent v ++ List.replicate j '\n' = itemText indent w ++ List.replicate k '\n' := by
  rw [itemText_append, itemText_append, h.node]

theorem memberText_congr {j k : Nat} {v w : Value} (h : SameUpTo j k v w) (indent : Nat)
    (name : String) : memberText indent (name, v) ++ List.replicate j '\n' =
      memberText indent (name, w) ++ List.replicate k '\n' := by
  cases hshort : isShortName name with
  | true =>
      rw [memberText_of_short indent hshort, memberText_of_short indent hshort, List.append_assoc,
        List.append_assoc, List.cons_append, List.cons_append, h.name]
  | false =>
      rw [memberText_of_long indent hshort, memberText_of_long indent hshort]
      simp only [List.cons_append, List.append_assoc, h.node]

/-- Alike values have the same texts but for line breaks at the end. -/
theorem Alike.sameUpTo {v w : Value} (h : Alike v w) : ∃ j k, SameUpTo j k v w := by
  induction h with
  | @text s s' h =>
      obtain ⟨j, k, heq, hblock⟩ := blockText_alike h
      have hleaf : ∀ indent, leafText indent (.string s) ++ List.replicate j '\n' =
          leafText indent (.string s') ++ List.replicate k '\n' := by
        intro indent
        rw [leafText_of_literal indent h.literal, leafText_of_literal indent h.literal', hblock]
      refine ⟨j, k, fun indent inner => hleaf inner, fun indent => ?_, fun hjk => ?_⟩
      swap
      · rw [heq hjk]
      · rw [afterName_of_isLeaf indent (v := .string s) trivial,
          afterName_of_isLeaf indent (v := .string s') trivial]
        exact congrArg (' ' :: ·) (hleaf (indent + 2))
  | array front h ih =>
      obtain ⟨j, k, hsame⟩ := ih
      refine ⟨j, k, fun indent inner => ?_, fun indent => ?_, fun hjk => by rw [hsame.eq_of_eq hjk]⟩
      · refine (List.append_right_inj (spaces indent)).mp ?_
        rw [← List.append_assoc, ← List.append_assoc, spaces_nodeText_items,
          spaces_nodeText_items, lines_concat_congr (itemText_congr hsame indent)]
      · rw [afterName_items, afterName_items, List.cons_append, List.cons_append,
          lines_concat_congr (itemText_congr hsame _)]
  | object front name h ih =>
      obtain ⟨j, k, hsame⟩ := ih
      refine ⟨j, k, fun indent inner => ?_, fun indent => ?_, fun hjk => by rw [hsame.eq_of_eq hjk]⟩
      · refine (List.append_right_inj (spaces indent)).mp ?_
        rw [← List.append_assoc, ← List.append_assoc, spaces_nodeText_members,
          spaces_nodeText_members, lines_concat_congr (memberText_congr hsame indent name)]
      · rw [afterName_members, afterName_members, List.cons_append, List.cons_append,
          lines_concat_congr (memberText_congr hsame _ name)]

section Documents

variable {v w : Value}

theorem told_of_documentChars (hv : v.Denotes) (hw : w.Denotes) {j k : Nat}
    (h : documentChars v ++ List.replicate j '\n' = documentChars w ++ List.replicate k '\n') :
    v = w ∨ Alike v w := by
  rw [documentChars_eq, documentChars_eq] at h
  exact ((apart hv).node (Nat.zero_le 2) hw (.breaks j) (.breaks k) h).or

/-- A document as it is written tells its value. -/
theorem documentChars_inj (hv : v.Denotes) (hw : w.Denotes)
    (h : documentChars v = documentChars w) : v = w := by
  rcases told_of_documentChars hv hw (congrArg (· ++ List.replicate 0 '\n') h) with
    hsame | halike
  · exact hsame
  · obtain ⟨j, k, hsame⟩ := halike.sameUpTo
    have hnode := hsame.node 0 2
    rw [← documentChars_eq, ← documentChars_eq, h] at hnode
    refine hsame.eq_of_eq ?_
    simpa using congrArg List.length (List.append_cancel_left hnode)

theorem render_eq_iff (hv : v.Denotes) (hw : w.Denotes) :
    render v = render w ↔ v = w ∨ Alike v w := by
  rw [render, render, String.ofList_inj, Text.dropEndWhile_eq_iff]
  constructor
  · rintro ⟨j, k, h⟩
    exact told_of_documentChars hv hw h
  · rintro (rfl | halike)
    · exact ⟨0, 0, rfl⟩
    · obtain ⟨j, k, hsame⟩ := halike.sameUpTo
      refine ⟨j, k, ?_⟩
      rw [documentChars_eq, documentChars_eq, hsame.node]

end Documents

end ApiCommands.Yaml

namespace ApiCommands.Output

/-- Responses are told apart as YAML unless they differ in nothing but the line breaks at the end
of a kept block that both documents end with. -/
theorem yaml_eq_iff {bytes bytes' : List UInt8} {v w : Json.Value} (hv : Json.parse bytes = .ok v)
    (hw : Json.parse bytes' = .ok w) :
    (response .yaml bytes = response .yaml bytes' ↔ v = w ∨ Yaml.Alike v w) ∧
      (value .yaml v = value .yaml w ↔ v = w ∨ Yaml.Alike v w) := by
  have hrender := Yaml.render_eq_iff (Json.denotes_of_parse hv) (Json.denotes_of_parse hw)
  refine ⟨?_, hrender⟩
  rw [response, response, hv, hw]
  exact hrender

def threeLines : List UInt8 := Text.Utf8.encode "\"a\\n\\n\""

def fourLines : List UInt8 := Text.Utf8.encode "\"a\\n\\n\\n\""

theorem parse_lines : Json.parse threeLines = .ok (.string "a\n\n") ∧
    Json.parse fourLines = .ok (.string "a\n\n\n") :=
  ⟨by cbv, by cbv⟩

theorem yaml_eq_iff_lines :
    Json.parse threeLines = .ok (.string "a\n\n") ∧
      Json.parse fourLines = .ok (.string "a\n\n\n") ∧
      (response .yaml threeLines = response .yaml fourLines ↔
        Json.Value.string "a\n\n" = .string "a\n\n\n" ∨
          Yaml.Alike (.string "a\n\n") (.string "a\n\n\n")) :=
  ⟨parse_lines.1, parse_lines.2, (yaml_eq_iff parse_lines.1 parse_lines.2).1⟩

/-- Two texts whose documents differ are printed alike, since the line breaks that are cut off are
those of the texts. -/
theorem yaml_loses_lines :
    Json.parse threeLines = .ok (.string "a\n\n") ∧
      Json.parse fourLines = .ok (.string "a\n\n\n") ∧
      Json.Value.string "a\n\n" ≠ .string "a\n\n\n" ∧
      Yaml.documentChars (.string "a\n\n") ≠ Yaml.documentChars (.string "a\n\n\n") ∧
      response .yaml threeLines = response .yaml fourLines ∧
      value .yaml (.string "a\n\n") = value .yaml (.string "a\n\n\n") := by
  have hrender : Yaml.render (.string "a\n\n") = Yaml.render (.string "a\n\n\n") := by
    decide +kernel
  have hdocuments :
      Yaml.documentChars (.string "a\n\n") ≠ Yaml.documentChars (.string "a\n\n\n") := by
    intro heq
    have hsame := Yaml.documentChars_inj (Json.denotes_of_parse parse_lines.1)
      (Json.denotes_of_parse parse_lines.2) heq
    simp at hsame
  refine ⟨parse_lines.1, parse_lines.2, by simp, hdocuments, ?_, hrender⟩
  rw [response, response, parse_lines.1, parse_lines.2]
  exact hrender

end ApiCommands.Output
