import ApiCommands.Proofs.Compile.Sites
import Mathlib.Logic.Relation

namespace ApiCommands

/-!
# Names come from literal segments

The name of a command and its parent are told by the literal segments of the path after the base,
of which at most one is dropped, a grouping one at the front. Segments that are empty or hold a
placeholder may stand anywhere among them and change nothing.
-/

open Document (PathItem)
open Schema (Components)

namespace Naming

/-- The segments of a path, between its slashes. -/
structure IsSplit (path : String) (segs : List String) : Prop where
  ne_nil : segs ≠ []
  slash_notMem : ∀ s ∈ segs, '/' ∉ s.toList
  join : String.intercalate "/" segs = path

def IsLiteral (s : String) : Prop := s ≠ "" ∧ '{' ∉ s.toList

instance (s : String) : Decidable (IsLiteral s) := inferInstanceAs (Decidable (_ ∧ _))

def literalsOf (segs : List String) : List String := segs.filter fun s => IsLiteral s

/-- The literals that are kept: a grouping one at the front goes if another one follows it. -/
inductive Keeps (grouping : List String) : List String → List String → Prop where
  | grouped {first second : String} {rest : List String} (hfirst : first ∈ grouping) :
      Keeps grouping (first :: second :: rest) (second :: rest)
  | all {literals : List String}
      (hfirst : ∀ first second rest, literals = first :: second :: rest → first ∉ grouping) :
      Keeps grouping literals literals

/-- The parent and the name that the kept literals tell. -/
inductive Tells (fallback : String) : List String → String → String → Prop where
  | nothing : Tells fallback [] "" fallback
  | only (name : String) : Tells fallback [name] "" name
  | nested {parent second name : String} {rest : List String}
      (hjoin : parent ++ "-" ++ name = String.intercalate "-" (parent :: second :: rest)) :
      Tells fallback (parent :: second :: rest) parent name

/-- How a command under some segments is called. -/
def Calls (grouping : List String) (fallback : String) (segs : List String)
    (parent name : String) : Prop :=
  name ≠ "" ∧ ∃ kept, Keeps grouping (literalsOf segs) kept ∧ Tells fallback kept parent name

/-- Inserts a segment that is empty or holds a placeholder. -/
inductive Pads : List String → List String → Prop where
  | insert (before after : List String) {s : String} (hslash : '/' ∉ s.toList)
      (hs : s = "" ∨ '{' ∈ s.toList) : Pads (before ++ after) (before ++ s :: after)

theorem segments_cons_of_ne {c : Char} (h : c ≠ '/') (rest : List Char) :
    ∃ s ss, segments rest = s :: ss ∧ segments (c :: rest) = (c :: s) :: ss := by
  obtain ⟨s, ss, hrest⟩ := List.exists_cons_of_ne_nil (segments_ne_nil rest)
  exact ⟨s, ss, hrest, by rw [segments, if_neg h, hrest]⟩

theorem segments_eq_splitOn (cs : List Char) : segments cs = cs.splitOn '/' := by
  induction cs with
  | nil => rfl
  | cons c rest ih =>
      rw [List.splitOn, List.splitOnP_cons_eq_if_modifyHead, ← List.splitOn, ← ih]
      by_cases h : c = '/'
      · simp [segments, h]
      · obtain ⟨s, ss, hrest, hcons⟩ := segments_cons_of_ne h rest
        simp [hcons, hrest, h]

theorem slash_notMem_segments (cs : List Char) : ∀ s ∈ segments cs, '/' ∉ s := by
  induction cs with
  | nil => simp [segments]
  | cons c rest ih =>
      by_cases h : c = '/'
      · rw [segments, if_pos h]
        exact List.forall_mem_cons.mpr ⟨List.not_mem_nil, ih⟩
      · obtain ⟨s, ss, hrest, hcons⟩ := segments_cons_of_ne h rest
        rw [hcons]
        rw [hrest] at ih
        obtain ⟨hs, hss⟩ := List.forall_mem_cons.mp ih
        refine List.forall_mem_cons.mpr ⟨fun hmem => ?_, hss⟩
        rcases List.mem_cons.mp hmem with heq | hmem
        · exact h heq.symm
        · exact hs hmem

theorem exists_isSplit (path : String) : ∃ segs, IsSplit path segs := by
  refine ⟨(segments path.toList).map String.ofList, ?_, ?_, ?_⟩
  · simpa using segments_ne_nil path.toList
  · intro s hs
    obtain ⟨cs, hcs, rfl⟩ := List.mem_map.mp hs
    simpa using slash_notMem_segments path.toList cs hcs
  · apply String.toList_injective
    simp [segments_eq_splitOn, String.toList_intercalate, Function.comp_def,
      List.intercalate_splitOn]

theorem IsSplit.segments_eq {path : String} {segs : List String} (h : IsSplit path segs) :
    segments path.toList = segs.map String.toList := by
  rw [segments_eq_splitOn, ← h.join, String.toList_intercalate]
  refine List.splitOn_intercalate '/' (fun cs hcs => ?_) (by simpa using h.ne_nil)
  obtain ⟨s, hs, rfl⟩ := List.mem_map.mp hcs
  exact h.slash_notMem s hs

theorem isLiteral_toList (s : String) : isLiteral s.toList = decide (IsLiteral s) := by
  by_cases h : s = ""
  · simp [h, isLiteral, IsLiteral]
  · have hne : s.toList.isEmpty = false := by simpa using h
    simp [h, hne, isLiteral, IsLiteral]

theorem IsSplit.literals_eq {path : String} {segs : List String} (h : IsSplit path segs) :
    literals path = literalsOf segs := by
  rw [literals, h.segments_eq, List.filter_map, List.map_map, literalsOf]
  simp [Function.comp_def, isLiteral_toList]

theorem keeps_dropGrouping (grouping literals : List String) :
    Keeps grouping literals (dropGrouping grouping literals) := by
  match literals with
  | [] => exact .all nofun
  | [_] => exact .all nofun
  | first :: second :: rest =>
      rw [dropGrouping]
      split
      case isTrue hgrouping => exact .grouped (by simpa using hgrouping)
      case isFalse hgrouping =>
        refine .all fun first' second' rest' heq => ?_
        cases heq
        simpa using hgrouping

theorem Keeps.subset {grouping literals kept : List String} (h : Keeps grouping literals kept) :
    kept ⊆ literals := by
  cases h with
  | grouped => exact List.subset_cons_self _ _
  | all => exact List.Subset.refl _

theorem tells_derive (fallback : String) (kept : List String) :
    Tells fallback kept (derive fallback kept).1 (derive fallback kept).2 := by
  match kept with
  | [] => exact .nothing
  | [only] => exact .only only
  | parent :: second :: rest =>
      refine .nested (String.toList_injective ?_)
      simp [derive]

theorem intercalate_ne_empty {first : String} (h : first ≠ "") (mark : String)
    (rest : List String) : String.intercalate mark (first :: rest) ≠ "" := by
  cases rest <;> simp [h]

/-- No name is empty where neither the fallback nor a literal is. -/
theorem Tells.name_ne_empty {fallback : String} {kept : List String} {parent name : String}
    (h : Tells fallback kept parent name) (hfallback : fallback ≠ "") (hkept : ∀ s ∈ kept, s ≠ "") :
    name ≠ "" := by
  cases h with
  | nothing => exact hfallback
  | only => exact hkept name (List.mem_singleton_self name)
  | @nested _ second _ rest hjoin =>
      rintro rfl
      -- Behind the dash there would have to be nothing, but the second literal stands there.
      have hchars : parent.toList ++ ['-'] =
          parent.toList ++ '-' :: (String.intercalate "-" (second :: rest)).toList := by
        simpa [String.toList_intercalate] using congrArg String.toList hjoin
      have hnil := (List.cons.inj (List.append_cancel_left hchars)).2
      have hsecond : second ≠ "" := hkept second (by simp)
      exact intercalate_ne_empty hsecond _ _ (String.toList_eq_nil_iff.mp hnil.symm)

theorem calls_ofPath {grouping : List String} {fallback : String} (hfallback : fallback ≠ "")
    {path : String} {segs : List String} (h : IsSplit path segs) :
    Calls grouping fallback segs (ofPath grouping fallback path).1
      (ofPath grouping fallback path).2 := by
  have hkeeps := keeps_dropGrouping grouping (literalsOf segs)
  have htells := tells_derive fallback (dropGrouping grouping (literalsOf segs))
  rw [ofPath, h.literals_eq]
  refine ⟨htells.name_ne_empty hfallback fun s hs => ?_, _, hkeeps, htells⟩
  have hliteral := (List.mem_filter.mp (hkeeps.subset hs)).2
  exact (of_decide_eq_true hliteral).1

theorem Pads.literalsOf_eq {segs segs' : List String} (h : Pads segs segs') :
    literalsOf segs = literalsOf segs' := by
  obtain ⟨before, after, _, hs⟩ := h
  have hskip : ¬IsLiteral _ := fun hliteral => hs.elim hliteral.1 hliteral.2
  simp [literalsOf, hskip]

theorem literalsOf_eq_of_pads {segs segs' : List String} (h : Relation.EqvGen Pads segs segs') :
    literalsOf segs = literalsOf segs' := by
  induction h with
  | rel _ _ hpads => exact hpads.literalsOf_eq
  | refl => rfl
  | symm _ _ _ ih => exact ih.symm
  | trans _ _ _ _ _ ih ih' => exact ih.trans ih'

end Naming

namespace Compile

open Naming

/-- The name of a command is derived from the path after the base. -/
theorem ofPath_of_mem {options : Options} {components : Components} {rest : String}
    {item : PathItem} {c : Command}
    (h : c ∈ (ofPath options components (options.base ++ rest) item).1) :
    (c.parent, c.name) = Naming.ofPath options.grouping options.fallback rest := by
  rw [(ofPath_eq ..).1] at h
  obtain ⟨site, hsite, rfl⟩ := List.mem_map.mp h
  have hpath : site.path = options.base ++ rest := by
    rw [sitesAt] at hsite
    split at hsite
    case isTrue => simp at hsite
    case isFalse =>
      obtain ⟨_, _, rfl⟩ := List.mem_map.mp hsite
      rfl
  rw [commandAt, relative?_eq_some_iff.mpr hpath]
  rfl

/-- The literal segments of a path after the base, without a grouping one at the front that another
follows, tell the parent and the name of its commands, and the name is not empty. Segments that are
empty or hold a placeholder can be inserted, removed and moved without any change of both. -/
theorem calls_of_mem_ofPath {options : Options} (hfallback : options.fallback ≠ "") :
    (∀ rest, ∃ segs, IsSplit rest segs) ∧
    ∀ rest segs, IsSplit rest segs → ∀ components item,
      ∀ c ∈ (ofPath options components (options.base ++ rest) item).1,
        Calls options.grouping options.fallback segs c.parent c.name ∧
        ∀ rest' segs', IsSplit rest' segs' → Relation.EqvGen Pads segs segs' →
          ∀ components' item', ∀ c' ∈ (ofPath options components' (options.base ++ rest') item').1,
            c'.parent = c.parent ∧ c'.name = c.name := by
  refine ⟨exists_isSplit, fun rest segs hsplit components item c hc => ?_⟩
  have hnames := ofPath_of_mem hc
  obtain ⟨hparent, hname⟩ := Prod.mk.inj hnames
  refine ⟨?_, fun rest' segs' hsplit' hpads components' item' c' hc' => ?_⟩
  · rw [hparent, hname]
    exact calls_ofPath hfallback hsplit
  · have hsame : literals rest = literals rest' := by
      rw [hsplit.literals_eq, hsplit'.literals_eq, literalsOf_eq_of_pads hpads]
    have hnames' := ofPath_of_mem hc'
    rw [Naming.ofPath, ← hsame, ← Naming.ofPath, ← hnames] at hnames'
    exact Prod.mk.inj hnames'

def bareItem : PathItem := [(.get, ⟨"", "", [], []⟩)]

/-- Two empty segments go, and the placeholder moves behind the first literal that is kept. -/
theorem pads_moved : Relation.EqvGen Pads ["tools", "", "\x7bid\x7d", "x", "y", ""]
    ["tools", "x", "\x7bid\x7d", "y"] := by
  have hempty : Pads ["tools", "\x7bid\x7d", "x", "y", ""]
      ["tools", "", "\x7bid\x7d", "x", "y", ""] :=
    .insert ["tools"] ["\x7bid\x7d", "x", "y", ""] (by decide) (Or.inl rfl)
  have hfront : Pads ["tools", "x", "y", ""] ["tools", "\x7bid\x7d", "x", "y", ""] :=
    .insert ["tools"] ["x", "y", ""] (by decide) (Or.inr (by decide))
  have hmiddle : Pads ["tools", "x", "y", ""] ["tools", "x", "\x7bid\x7d", "y", ""] :=
    .insert ["tools", "x"] ["y", ""] (by decide) (Or.inr (by decide))
  have hend : Pads ["tools", "x", "\x7bid\x7d", "y"] ["tools", "x", "\x7bid\x7d", "y", ""] :=
    .insert ["tools", "x", "\x7bid\x7d", "y"] [] (by decide) (Or.inl rfl)
  refine .trans _ _ _ (.symm _ _ (.rel _ _ hempty)) (.trans _ _ _ (.symm _ _ (.rel _ _ hfront)) ?_)
  exact .trans _ _ _ (.rel _ _ hmiddle) (.symm _ _ (.rel _ _ hend))

theorem calls_of_mem_ofPath_moved :
    Calls ["tools"] "unknown" ["tools", "", "\x7bid\x7d", "x", "y", ""] "x" "y" ∧
    ∀ c ∈ (ofPath {} [] "/api/v1/tools/x/\x7bid\x7d/y" bareItem).1,
      c.parent = "x" ∧ c.name = "y" := by
  obtain ⟨_, hcalls⟩ := calls_of_mem_ofPath (show ({} : Options).fallback ≠ "" by decide)
  have hmem :
      { name := "y", parent := "x", short := "", long := "", method := "GET"
        path := "/api/v1/tools//\x7bid\x7d/x/y/"
        params := [{ name := "id", required := true, location := .path }] : Command } ∈
      (ofPath {} [] "/api/v1/tools//\x7bid\x7d/x/y/" bareItem).1 := by
    decide +kernel
  have hsplit : IsSplit "tools//\x7bid\x7d/x/y/" ["tools", "", "\x7bid\x7d", "x", "y", ""] :=
    ⟨by decide, by decide, by decide +kernel⟩
  have hsplit' : IsSplit "tools/x/\x7bid\x7d/y" ["tools", "x", "\x7bid\x7d", "y"] :=
    ⟨by decide, by decide, by decide +kernel⟩
  obtain ⟨hcall, hsame⟩ := hcalls _ _ hsplit [] bareItem _ hmem
  exact ⟨hcall, hsame _ _ hsplit' pads_moved [] bareItem⟩

end Compile

end ApiCommands
