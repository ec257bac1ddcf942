import ApiCommands.Proofs.Yaml.Quoted
import ApiCommands.Yaml.Printer

namespace ApiCommands.Yaml

/-!
# Literal blocks

A literal block ends where a line is indented less, so its lines can be told from what follows. At
the end of a document nothing tells how many line breaks a kept block ends with.
-/

/-- What may follow a block: a line that is indented less, or nothing but line breaks. -/
inductive Follows (indent : Nat) : List Char → Prop where
  | below {k : Nat} {c : Char} (hk : k < indent) (hspace : c ≠ ' ') (hbreak : isBreak c = false)
      (rest : List Char) : Follows indent (spaces k ++ c :: rest)
  | breaks (k : Nat) : Follows indent (List.replicate k '\n')

def Breaks (r : List Char) : Prop := ∃ k, r = List.replicate k '\n'

/-- Texts that differ in nothing but the line breaks at their end. -/
def AlikeUpToBreaks (cs cs' : List Char) : Prop :=
  ∃ base j k, cs = base ++ List.replicate j '\n' ∧ cs' = base ++ List.replicate k '\n'

theorem AlikeUpToBreaks.cons {cs cs' : List Char} (h : AlikeUpToBreaks cs cs') (c : Char) :
    AlikeUpToBreaks (c :: cs) (c :: cs') := by
  obtain ⟨base, j, k, rfl, rfl⟩ := h
  exact ⟨c :: base, j, k, rfl, rfl⟩

/-- What two texts before `r` and `r'` tell: they hold the same, or nothing but line breaks is left
and they are alike. -/
def Told (same alike : Prop) (r r' : List Char) : Prop :=
  (same ∧ r = r') ∨ (Breaks r ∧ Breaks r' ∧ alike)

theorem Told.imp {same same' alike alike' : Prop} {r r' : List Char} (h : Told same alike r r')
    (hsame : same → same') (halike : alike → alike') : Told same' alike' r r' :=
  Or.imp (And.imp_left hsame) (And.imp_right (And.imp_right halike)) h

theorem Told.or {same alike : Prop} {r r' : List Char} (h : Told same alike r r') :
    same ∨ alike :=
  Or.imp And.left (fun h => h.2.2) h

theorem breaks_of_mem {r : List Char} (h : ∀ c ∈ r, c = '\n') : Breaks r :=
  ⟨r.length, List.eq_replicate_of_mem h⟩

/-- The lines of a block; each text ends with a line break. -/
def blockLines (indent : Nat) (atBreak : Bool) (cs : List Char) : List Char :=
  indentLines indent (fun c => [c]) atBreak cs

section Lines

variable (indent : Nat) (atBreak : Bool) (cs : List Char)

theorem blockLines_cons_of_break {c : Char} (h : isBreak c = true) :
    blockLines indent atBreak (c :: cs) = c :: blockLines indent true cs :=
  indentLines_cons_of_break indent _ atBreak h cs

theorem blockLines_cons_of_not_break {c : Char} (h : isBreak c = false) :
    blockLines indent atBreak (c :: cs) =
      (if atBreak then spaces indent else []) ++ c :: blockLines indent false cs :=
  indentLines_cons_of_not_break indent _ atBreak h cs

theorem mem_blockLines {c : Char} (h : c ∈ cs) : c ∈ blockLines indent atBreak cs := by
  induction cs generalizing atBreak with
  | nil => cases h
  | cons d cs ih =>
      cases hd : isBreak d with
      | true =>
          rw [blockLines_cons_of_break indent atBreak cs hd]
          exact List.mem_cons.mpr ((List.mem_cons.mp h).imp_right (ih true))
      | false =>
          rw [blockLines_cons_of_not_break indent atBreak cs hd]
          exact List.mem_append_right _ (List.mem_cons.mpr ((List.mem_cons.mp h).imp_right (ih false)))

end Lines

/-- No line that follows is indented as deep. -/
theorem Follows.ne_line {indent : Nat} {r : List Char} (hr : Follows indent r) {c : Char}
    (hc : isBreak c = false) (x : List Char) : r ≠ spaces indent ++ c :: x := by
  intro h
  cases hr with
  | breaks k =>
      have hmem : c ∈ List.replicate k '\n' := h ▸ List.mem_append_right _ List.mem_cons_self
      rw [List.eq_of_mem_replicate hmem] at hc
      cases hc
  | @below k d hk hspace hbreak rest =>
      obtain ⟨l, rfl⟩ : ∃ l, indent = k + (l + 1) := ⟨indent - k - 1, by omega⟩
      rw [spaces, spaces, List.replicate_add, List.append_assoc] at h
      exact hspace (List.cons.inj (List.append_cancel_left h)).1

/-- No line that follows a block is a line of it, but for line breaks at the end. -/
theorem breaks_of_follows {indent : Nat} {cs r r' : List Char}
    (hr : Follows indent r) (h : r = blockLines indent true cs ++ r') :
    cs = [] ∨ (Breaks r ∧ Breaks r' ∧ Breaks cs) := by
  cases cs with
  | nil => exact .inl rfl
  | cons d cs =>
      right
      cases hd : isBreak d with
      | false =>
          rw [blockLines_cons_of_not_break indent true cs hd, if_pos rfl, List.append_assoc] at h
          exact (hr.ne_line hd _ h).elim
      | true =>
          cases hr with
          | breaks k =>
              have hall : ∀ c ∈ blockLines indent true (d :: cs) ++ r', c = '\n' := by
                rw [← h]
                exact fun c hc => List.eq_of_mem_replicate hc
              obtain ⟨hlines, hrest⟩ := List.forall_mem_append.mp hall
              exact ⟨⟨k, rfl⟩, breaks_of_mem hrest,
                breaks_of_mem fun c hc => hlines c (mem_blockLines indent true _ hc)⟩
          | @below k c hk hspace hbreak rest =>
              rw [blockLines_cons_of_break indent true cs hd] at h
              exact (spaces_ne_break hbreak hd k _ _ h).elim

/-- The lines of a block and what follows them are told apart, but for line breaks at the end. -/
theorem blockLines_inj {indent : Nat} {atBreak : Bool} {cs cs' r r' : List Char}
    (hcs : breakAtEnd atBreak cs = true) (hcs' : breakAtEnd atBreak cs' = true)
    (hr : Follows indent r) (hr' : Follows indent r')
    (h : blockLines indent atBreak cs ++ r = blockLines indent atBreak cs' ++ r') :
    Told (cs = cs') (AlikeUpToBreaks cs cs') r r' := by
  induction cs generalizing atBreak cs' with
  | nil =>
      obtain rfl : atBreak = true := hcs
      rcases breaks_of_follows hr h with rfl | ⟨hbreaks, hbreaks', k, hk⟩
      · exact .inl ⟨rfl, h⟩
      · exact .inr ⟨hbreaks, hbreaks', [], 0, k, rfl, hk⟩
  | cons c cs ih =>
      cases cs' with
      | nil =>
          obtain rfl : atBreak = true := hcs'
          rcases breaks_of_follows hr' h.symm with hnil | ⟨hbreaks', hbreaks, k, hk⟩
          · cases hnil
          · exact .inr ⟨hbreaks, hbreaks', [], k, 0, hk, rfl⟩
      | cons d cs' =>
          rw [breakAtEnd] at hcs hcs'
          obtain ⟨rfl, htail⟩ := indentLines_cons_inj (fun c => ⟨[], rfl⟩) h
          exact (ih hcs hcs' htail).imp (congrArg _) fun halike => halike.cons c

/-! ### Line breaks at the end of a block -/

theorem breakAtEnd_concat (atBreak : Bool) (cs : List Char) (c : Char) :
    breakAtEnd atBreak (cs ++ [c]) = isBreak c := by
  rw [breakAtEnd_eq]
  simp

theorem breakAtEnd_true (cs : List Char) :
    breakAtEnd true cs = (cs.isEmpty || cs.getLast?.any isBreak) := by
  rw [breakAtEnd_eq]
  cases cs <;> rfl

theorem chomping_concat (cs : List Char) (c : Char) :
    chomping (cs ++ [c]) = if !isBreak c then ['-']
      else if breakAtEnd true cs then ['+'] else [] := by
  rw [chomping, List.reverse_append, breakAtEnd_true]
  simp only [List.reverse_cons, List.reverse_nil, List.nil_append, List.singleton_append,
    List.isEmpty_reverse, List.head?_reverse]

theorem exists_concat {cs : List Char} (hne : cs ≠ []) : ∃ front c, cs = front ++ [c] :=
  ⟨cs.dropLast, cs.getLast hne, (List.dropLast_append_getLast hne).symm⟩

theorem blockLines_append (indent : Nat) (atBreak : Bool) (cs cs' : List Char) :
    blockLines indent atBreak (cs ++ cs') =
      blockLines indent atBreak cs ++ blockLines indent (breakAtEnd atBreak cs) cs' := by
  induction cs generalizing atBreak with
  | nil => rfl
  | cons c cs ih =>
      rw [List.cons_append, breakAtEnd]
      cases hc : isBreak c with
      | true =>
          rw [blockLines_cons_of_break indent atBreak _ hc,
            blockLines_cons_of_break indent atBreak _ hc, ih, List.cons_append]
      | false =>
          rw [blockLines_cons_of_not_break indent atBreak _ hc,
            blockLines_cons_of_not_break indent atBreak _ hc, ih, List.append_assoc,
            List.cons_append]

theorem exists_blockLines_concat (indent : Nat) (atBreak : Bool) (cs : List Char) (c : Char) :
    ∃ lines, blockLines indent atBreak (cs ++ [c]) = lines ++ [c] := by
  rw [blockLines_append]
  cases hc : isBreak c with
  | true =>
      rw [blockLines_cons_of_break indent _ _ hc]
      exact ⟨_, rfl⟩
  | false =>
      rw [blockLines_cons_of_not_break indent _ _ hc]
      exact ⟨_, (List.append_assoc ..).symm⟩

theorem endLine_concat (cs : List Char) (c : Char) :
    endLine (cs ++ [c]) = if isBreak c then cs ++ [c] else cs ++ [c] ++ ['\n'] := by
  simp [endLine]

/-- A text with a single line break at its end. -/
def EndsOnce (cs : List Char) : Prop :=
  ∃ front c, cs = front ++ [c] ∧ breakAtEnd true front = false ∧ isBreak c = true

theorem EndsOnce.breaks {base : List Char} {j : Nat}
    (h : EndsOnce (base ++ List.replicate j '\n')) :
    (j = 0 ∧ breakAtEnd true base = true) ∨ (j = 1 ∧ breakAtEnd true base = false) := by
  obtain ⟨front, c, hsplit, hfront, hc⟩ := h
  cases j with
  | zero =>
      rw [List.replicate_zero, List.append_nil] at hsplit
      rw [hsplit, breakAtEnd_concat]
      exact .inl ⟨rfl, hc⟩
  | succ i =>
      rw [List.replicate_succ', ← List.append_assoc] at hsplit
      obtain ⟨rfl, -⟩ := List.append_inj' hsplit rfl
      cases i with
      | zero =>
          rw [List.replicate_zero, List.append_nil] at hfront
          exact .inr ⟨rfl, hfront⟩
      | succ i =>
          rw [List.replicate_succ', ← List.append_assoc, breakAtEnd_concat] at hfront
          cases hfront

/-- A single line break at the end is not lost. -/
theorem EndsOnce.eq_of_alike {cs cs' : List Char} (hcs : EndsOnce cs) (hcs' : EndsOnce cs')
    (h : AlikeUpToBreaks cs cs') : cs = cs' := by
  obtain ⟨base, j, k, rfl, rfl⟩ := h
  rcases hcs.breaks with ⟨rfl, hbase⟩ | ⟨rfl, hbase⟩ <;>
    rcases hcs'.breaks with ⟨rfl, hbase'⟩ | ⟨rfl, hbase'⟩
  · rfl
  · rw [hbase] at hbase'
    cases hbase'
  · rw [hbase] at hbase'
    cases hbase'
  · rfl

/-- The lines of a block, of which the last one is ended. -/
def closed (cs : List Char) : List Char := if breakAtEnd true cs then cs else cs ++ ['\n']

theorem breakAtEnd_closed (cs : List Char) : breakAtEnd true (closed cs) = true := by
  rw [closed]
  split
  case isTrue h => exact h
  case isFalse =>
    rw [breakAtEnd_concat]
    rfl

/-- The marks that a block begins with. -/
def blockMarks (cs : List Char) : List Char := indentHint cs ++ chomping cs

theorem writeLiteral_eq (indent : Nat) (cs : List Char) :
    writeLiteral indent cs = '|' :: (blockMarks cs ++ '\n' :: blockLines indent true cs) := rfl

/-- A block of which the last line is ended. -/
def blockText (indent : Nat) (cs : List Char) : List Char :=
  '|' :: (blockMarks cs ++ '\n' :: blockLines indent true (closed cs))

theorem endLine_writeLiteral (indent : Nat) {cs : List Char} (hne : cs ≠ []) :
    endLine (writeLiteral indent cs) = blockText indent cs := by
  obtain ⟨front, c, rfl⟩ := exists_concat hne
  obtain ⟨lines, hlines⟩ := exists_blockLines_concat indent true front c
  rw [writeLiteral_eq, blockText, closed, breakAtEnd_concat]
  generalize blockMarks (front ++ [c]) = marks
  have hwrite : '|' :: (marks ++ '\n' :: blockLines indent true (front ++ [c])) =
      '|' :: (marks ++ '\n' :: lines) ++ [c] := by
    rw [hlines, List.cons_append, List.append_assoc, List.cons_append]
  rw [hwrite, endLine_concat, ← hwrite]
  cases hc : isBreak c with
  | true => rfl
  | false =>
      have hlast : blockLines indent false ['\n'] = ['\n'] := rfl
      rw [if_neg (by decide), if_neg (by decide), blockLines_append indent true (front ++ [c]),
        breakAtEnd_concat, hc, hlast, List.cons_append, List.append_assoc, List.cons_append]

/-- The mark of a block tells how its text ends. -/
theorem chomping_spec {cs : List Char} (hne : cs ≠ []) :
    (chomping cs = ['-'] ∧ breakAtEnd true cs = false) ∨
      (chomping cs = ['+'] ∧ breakAtEnd true cs = true) ∨
      (chomping cs = [] ∧ breakAtEnd true cs = true ∧ EndsOnce cs) := by
  obtain ⟨front, c, rfl⟩ := exists_concat hne
  rw [chomping_concat, breakAtEnd_concat]
  cases hc : isBreak c with
  | false => exact .inl ⟨rfl, rfl⟩
  | true =>
      right
      cases hfront : breakAtEnd true front with
      | true => exact .inl ⟨rfl, rfl⟩
      | false => exact .inr ⟨rfl, rfl, front, c, rfl, hfront, hc⟩

theorem breakAtEnd_eq_chomping {cs : List Char} (hne : cs ≠ []) :
    breakAtEnd true cs = (chomping cs != ['-']) := by
  rcases chomping_spec hne with ⟨hchomp, hend⟩ | ⟨hchomp, hend⟩ | ⟨hchomp, hend, -⟩ <;>
    rw [hchomp, hend] <;> rfl

/-- A block that is not kept has one line break at its end. -/
theorem endsOnce_closed {cs : List Char} (hne : cs ≠ []) (h : chomping cs ≠ ['+']) :
    EndsOnce (closed cs) := by
  rw [closed]
  rcases chomping_spec hne with ⟨-, hend⟩ | ⟨hchomp, -⟩ | ⟨-, hend, honce⟩
  · rw [if_neg (by simp [hend])]
    exact ⟨cs, '\n', rfl, hend, rfl⟩
  · exact (h hchomp).elim
  · rwa [if_pos hend]

theorem closed_of_kept {cs : List Char} (hne : cs ≠ []) (h : chomping cs = ['+']) :
    closed cs = cs := by
  rw [closed, breakAtEnd_eq_chomping hne, h]
  rfl

theorem blockMarks_spec {cs : List Char} (hne : cs ≠ []) :
    (∀ c ∈ blockMarks cs, c ≠ '\n') ∧ (blockMarks cs).filter (· != '2') = chomping cs := by
  have hhint : indentHint cs = [] ∨ indentHint cs = ['2'] := by
    rw [indentHint]
    split
    case isTrue => exact .inr rfl
    case isFalse => exact .inl rfl
  rw [blockMarks]
  rcases chomping_spec hne with ⟨hchomp, -⟩ | ⟨hchomp, -⟩ | ⟨hchomp, -⟩ <;>
    rcases hhint with hhint | hhint <;> rw [hchomp, hhint] <;> exact ⟨by simp, rfl⟩

/-- The marks of a block end with their line. -/
theorem blockMarks_inj {cs cs' r r' : List Char} (hne : cs ≠ []) (hne' : cs' ≠ [])
    (h : blockMarks cs ++ '\n' :: r = blockMarks cs' ++ '\n' :: r') :
    chomping cs = chomping cs' ∧ r = r' := by
  have hline : ∀ {cs r}, cs ≠ [] →
      (blockMarks cs ++ '\n' :: r).takeWhile (· != '\n') = blockMarks cs := by
    intro cs r hne
    rw [List.takeWhile_append_of_pos fun c hc => by simpa using (blockMarks_spec hne).1 c hc]
    simp
  have hmarks : blockMarks cs = blockMarks cs' := by
    rw [← hline (r := r) hne, h, hline hne']
  rw [hmarks] at h
  rw [← (blockMarks_spec hne).2, ← (blockMarks_spec hne').2, hmarks]
  exact ⟨rfl, (List.cons.inj (List.append_cancel_left h)).2⟩

/-- Kept blocks that differ in nothing but the line breaks at their end. -/
structure AlikeBlocks (s s' : String) : Prop where
  literal : style s = .literal
  literal' : style s' = .literal
  kept : chomping s.toList = ['+']
  kept' : chomping s'.toList = ['+']
  alike : AlikeUpToBreaks s.toList s'.toList

theorem mem_of_literal {s : String} (h : style s = .literal) : '\n' ∈ s.toList := by
  rw [style] at h
  split at h
  case isTrue hbreak => simpa using hbreak
  case isFalse =>
    split at h
    case isTrue => cases h
    case isFalse => split at h <;> cases h

theorem eq_of_closed {cs cs' : List Char} (h : closed cs = closed cs')
    (hend : breakAtEnd true cs = breakAtEnd true cs') : cs = cs' := by
  rw [closed, closed, hend] at h
  split at h
  case isTrue => exact h
  case isFalse => exact (List.append_inj' h rfl).1

/-- Blocks that are told apart by nothing are the same text or kept ones at the end. -/
theorem literal_inj {indent : Nat} {s s' : String} (hs : style s = .literal)
    (hs' : style s' = .literal) {r r' : List Char} (hr : Follows indent r)
    (hr' : Follows indent r')
    (h : blockText indent s.toList ++ r = blockText indent s'.toList ++ r') :
    Told (s = s') (AlikeBlocks s s') r r' := by
  have hne := List.ne_nil_of_mem (mem_of_literal hs)
  have hne' := List.ne_nil_of_mem (mem_of_literal hs')
  rw [blockText, blockText, List.cons_append, List.cons_append, List.append_assoc,
    List.append_assoc, List.cons_append, List.cons_append] at h
  obtain ⟨hmark, hlines⟩ := blockMarks_inj hne hne' (List.cons.inj h).2
  have hend : breakAtEnd true s.toList = breakAtEnd true s'.toList := by
    rw [breakAtEnd_eq_chomping hne, breakAtEnd_eq_chomping hne', hmark]
  have heq : closed s.toList = closed s'.toList → s = s' ∧ r = r' := by
    intro hclosed
    rw [hclosed] at hlines
    exact ⟨String.toList_injective (eq_of_closed hclosed hend), List.append_cancel_left hlines⟩
  rcases blockLines_inj (breakAtEnd_closed _) (breakAtEnd_closed _) hr hr' hlines with
    ⟨hclosed, -⟩ | ⟨hbreaks, hbreaks', halike⟩
  · exact .inl (heq hclosed)
  · by_cases hkept : chomping s.toList = ['+']
    · have hkept' := hmark ▸ hkept
      rw [closed_of_kept hne hkept, closed_of_kept hne' hkept'] at halike
      exact .inr ⟨hbreaks, hbreaks', hs, hs', hkept, hkept', halike⟩
    · exact .inl (heq ((endsOnce_closed hne hkept).eq_of_alike
        (endsOnce_closed hne' (hmark ▸ hkept)) halike))

end ApiCommands.Yaml
