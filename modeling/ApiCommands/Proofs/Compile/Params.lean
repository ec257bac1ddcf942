import ApiCommands.Proofs.Compile.Draft

namespace ApiCommands.Compile

/-!
# The parameters of a command

The path parameters are the placeholders of the path, then come the declared query parameters and
the members of the body, each unless its name is taken.
-/

open Document (Declared Operation)
open Schema (Components)
open Text.Template (firsts names)

def asksQuery (x : Declared) : Bool := x.place == "query" && x.name != ""

def queries (components : Components) (declared : List Declared) : List Param :=
  (declared.filter asksQuery).map fun x => queryParam (lookUp components x.schema).1 x

def offers (components : Components) (op : Operation) : List Param :=
  (bodyParams components "" "" op).1

theorem bodyParams_fst (components : Components) (method path : String) (op : Operation) :
    (bodyParams components method path op).1 = offers components op := by
  rw [offers, bodyParams, bodyParams]
  cases op.body with
  | none => rfl
  | some schema => cases h : Schema.resolve components schema <;> simp [h]

theorem duplicates_lookUp (components : Components) (schema : Option Schema.Node) :
    duplicates (lookUp components schema).2 = [] := by
  cases schema with
  | none => rfl
  | some n =>
      rw [lookUp]
      cases Schema.resolve components n <;> rfl

theorem duplicates_bodyParams (components : Components) (method path : String) (op : Operation) :
    duplicates (bodyParams components method path op).2 = [] := by
  rw [bodyParams]
  split
  case h_1 => rfl
  case h_2 =>
    split
    case h_1 => rfl
    case h_2 body _ =>
      refine List.filter_eq_nil_iff.mpr fun notice hnotice => ?_
      simp only [bodyOf, List.flatMap_map] at hnotice
      obtain ⟨⟨name, property⟩, _, hmem⟩ := List.mem_flatMap.mp hnotice
      have hnone := List.filter_eq_nil_iff.mp (duplicates_lookUp components (some property))
      exact hnone notice hmem

theorem updateFirst_append {α : Type} {p : α → Bool} {ys : List α} (h : ∀ y ∈ ys, p y = false)
    (f : α → α) (xs : List α) : updateFirst p f (xs ++ ys) = updateFirst p f xs ++ ys := by
  induction xs with
  | nil =>
      induction ys with
      | nil => rfl
      | cons y ys ih =>
          have hy := h y List.mem_cons_self
          have htail := ih fun z hz => h z (List.mem_cons_of_mem y hz)
          simpa [updateFirst, hy] using htail
  | cons x xs ih =>
      by_cases hx : p x = true
      · simp [updateFirst, hx]
      · simp [updateFirst, hx, ih]

theorem map_updateFirst {α β : Type} {g : α → β} {f : α → α} (h : ∀ x, g (f x) = g x)
    (p : α → Bool) (xs : List α) : (updateFirst p f xs).map g = xs.map g := by
  induction xs with
  | nil => rfl
  | cons x xs ih =>
      by_cases hx : p x = true <;> simp [updateFirst, hx, h, ih]

/-- What declarations leave as it is. -/
def place (p : Param) : String × Location × Bool := (p.name, p.location, p.required)

/-- A draft begins with a required path parameter for each of some names; the other parameters
travel elsewhere. -/
structure Parts (ns : List String) (others : List Param) (d : Draft) : Prop where
  split : ∃ paths, paths.map place = ns.map (fun n => (n, .path, true)) ∧
    d.params = paths ++ others
  other : ∀ p ∈ others, p.location ≠ .path

namespace Parts

variable {ns : List String} {others : List Param} {d : Draft} (components : Components)

theorem names_eq (h : Parts ns others d) :
    d.params.map Param.name = ns ++ others.map Param.name := by
  obtain ⟨paths, hpaths, hparams⟩ := h.split
  have hnames := congrArg (List.map Prod.fst) hpaths
  rw [List.map_map, List.map_map] at hnames
  rw [hparams, List.map_append]
  exact congrArg (· ++ others.map Param.name) (hnames.trans (List.map_id ns))

theorem start (relative : String) :
    Parts (names relative) [] { params := (names relative).map placeholder } where
  split := ⟨_, by rw [List.map_map]; rfl, (List.append_nil _).symm⟩
  other := by simp

theorem note (h : Parts ns others d) (notices : List Notice) : Parts ns others (d.note notices) :=
  ⟨h.split, h.other⟩

/-- A declaration for a placeholder changes neither names nor places nor what is required. -/
theorem describe (h : Parts ns others d) (x : Declared) :
    Parts ns others (d.describe components x) := by
  rw [Draft.describe]
  split
  case isFalse => exact h
  case isTrue =>
    obtain ⟨paths, hpaths, hparams⟩ := h.split
    have hothers : ∀ p ∈ others, isPathParam x.name p = false := by
      intro p hp
      simp [isPathParam, h.other p hp]
    refine ⟨⟨updateFirst (isPathParam x.name) (enrich (lookUp components x.schema).1 x) paths,
      ?_, ?_⟩, h.other⟩
    · rw [← hpaths]
      exact map_updateFirst (f := enrich (lookUp components x.schema).1 x) (fun _ => rfl) _ _
    · rw [← updateFirst_append hothers, ← hparams]

theorem push (h : Parts ns others d) (method path : String) {ps : List Param}
    (hps : ∀ p ∈ ps, p.location ≠ .path) :
    Parts ns (others ++ fresh Param.name (ns ++ others.map Param.name) ps)
      (ps.foldl (Draft.push method path) d) := by
  obtain ⟨paths, hpaths, hparams⟩ := h.split
  refine ⟨⟨paths, hpaths, ?_⟩, fun p hp => ?_⟩
  · rw [params_foldl_push, h.names_eq, hparams, List.append_assoc]
  · rcases List.mem_append.mp hp with hp | hp
    · exact h.other p hp
    · exact hps p (mem_of_mem_fresh hp)

end Parts

theorem duplicates_describe (components : Components) (d : Draft) (x : Declared) :
    duplicates (d.describe components x).notices = duplicates d.notices := by
  rw [Draft.describe]
  split
  case isFalse => rfl
  case isTrue => rw [duplicates_append, duplicates_lookUp, List.append_nil]

/-- A declaration adds the query parameter that it asks for, if it does, and nothing else. -/
theorem declare_cases (components : Components) (method path : String) (d : Draft) (x : Declared) :
    (queries components [x] = [] ∧ (d.declare components method path x = d ∨
      d.declare components method path x = d.describe components x)) ∨
    ∃ notices, duplicates notices = [] ∧ d.declare components method path x =
      (queries components [x]).foldl (Draft.push method path) (d.note notices) := by
  rw [Draft.declare]
  by_cases hpath : x.place = "path"
  · exact Or.inl ⟨by simp [queries, asksQuery, hpath], Or.inr (if_pos hpath)⟩
  · by_cases hquery : x.place = "query" ∧ x.name ≠ ""
    · refine Or.inr ⟨_, duplicates_lookUp components x.schema, ?_⟩
      simp [queries, asksQuery, hquery]
    · refine Or.inl ⟨?_, Or.inl (by rw [if_neg hpath, if_neg hquery])⟩
      simpa [queries, asksQuery] using hquery

theorem queries_cons (components : Components) (x : Declared) (xs : List Declared) :
    queries components (x :: xs) = queries components [x] ++ queries components xs := by
  simp only [queries, ← List.map_append, ← List.filter_append, List.singleton_append]

/-- What some declarations or members of a body leave behind in a draft and in its notices. -/
structure Extends (method path : String) (ps : List Param) (ns : List String)
    (others : List Param) (d d' : Draft) : Prop where
  parts : Parts ns (others ++ fresh Param.name (ns ++ others.map Param.name) ps) d'
  duplicates : duplicates d'.notices = duplicates d.notices ++
    (repeats (ns ++ others.map Param.name) (ps.map Param.name)).map (.duplicateParam method path)

theorem location_of_mem_queries {components : Components} {xs : List Declared} {p : Param}
    (h : p ∈ queries components xs) : p.location = .query := by
  obtain ⟨x, _, rfl⟩ := List.mem_map.mp h
  rfl

namespace Extends

variable {method path : String} {ps qs : List Param} {ns : List String} {others : List Param}
  {d d' d'' : Draft}

theorem trans (h : Extends method path ps ns others d d')
    (h' : Extends method path qs ns
      (others ++ fresh Param.name (ns ++ others.map Param.name) ps) d' d'') :
    Extends method path (ps ++ qs) ns others d d'' := by
  have hseen : ∀ n, n ∈ ns ++ (others ++ fresh Param.name (ns ++ others.map Param.name)
      ps).map Param.name ↔ n ∈ ns ++ others.map Param.name ++ ps.map Param.name := by
    intro n
    rw [List.map_append, ← List.append_assoc, mem_append_fresh]
  refine ⟨?_, ?_⟩
  · rw [fresh_append, ← List.append_assoc, ← fresh_congr Param.name hseen]
    exact h'.parts
  · rw [List.map_append, repeats_append, List.map_append, ← List.append_assoc, ← h.duplicates,
      ← repeats_congr hseen]
    exact h'.duplicates

theorem note (h : Extends method path ps ns others d d') {notices : List Notice}
    (hnotices : Compile.duplicates notices = []) :
    Extends method path ps ns others d (d'.note notices) := by
  refine ⟨h.parts.note notices, ?_⟩
  rw [Draft.note, duplicates_append, hnotices, List.append_nil, h.duplicates]

end Extends

theorem Parts.extends_refl {ns : List String} {others : List Param} {d : Draft}
    (h : Parts ns others d) (method path : String) : Extends method path [] ns others d d :=
  ⟨by simpa [fresh] using h, by simp [repeats]⟩

theorem Parts.extends_push {ns : List String} {others : List Param} {d : Draft}
    (h : Parts ns others d) (method path : String) {ps : List Param}
    (hps : ∀ p ∈ ps, p.location ≠ .path) :
    Extends method path ps ns others d (ps.foldl (Draft.push method path) d) :=
  ⟨h.push method path hps, by rw [duplicates_foldl_push, h.names_eq]⟩

theorem Parts.extends_declare {ns : List String} {others : List Param} {d : Draft}
    (h : Parts ns others d) (components : Components) (method path : String) (x : Declared) :
    Extends method path (queries components [x]) ns others d
      (d.declare components method path x) := by
  rcases declare_cases components method path d x with ⟨hnone, hd | hd⟩ | ⟨notices, hnotices, hd⟩
  · rw [hnone, hd]
    exact h.extends_refl method path
  · rw [hnone, hd]
    exact ⟨by simpa [fresh] using h.describe components x,
      by simp [repeats, duplicates_describe]⟩
  · have hquery : ∀ p ∈ queries components [x], p.location ≠ .path := by
      intro p hp
      simp [location_of_mem_queries hp]
    have hnote := (h.extends_refl method path).note hnotices
    rw [hd]
    exact hnote.trans (hnote.parts.extends_push method path hquery)

theorem Parts.extends_declared {ns : List String} {others : List Param} {d : Draft}
    (h : Parts ns others d) (components : Components) (method path : String)
    (xs : List Declared) :
    Extends method path (queries components xs) ns others d
      (xs.foldl (Draft.declare components method path) d) := by
  induction xs generalizing d others with
  | nil => exact h.extends_refl method path
  | cons x xs ih =>
      have hstep := h.extends_declare components method path x
      rw [List.foldl_cons, queries_cons]
      exact hstep.trans (ih hstep.parts)

theorem location_of_mem_offers {components : Components} {op : Operation} {p : Param}
    (h : p ∈ offers components op) : p.location = .body := by
  rw [offers, bodyParams] at h
  split at h
  case h_1 => simp at h
  case h_2 =>
    split at h
    case h_1 => simp at h
    case h_2 =>
      simp only [bodyOf, List.map_map] at h
      obtain ⟨_, _, rfl⟩ := List.mem_map.mp h
      rfl

/-- All parameters of an operation and all notices about taken names. -/
theorem extends_draft (components : Components) (method path relative : String)
    (op : Operation) :
    Extends method path (queries components op.parameters ++ offers components op)
      (names relative) [] { params := (names relative).map placeholder }
      (draft components method path relative op) := by
  have hbody : ∀ p ∈ offers components op, p.location ≠ .path := by
    intro p hp
    simp [location_of_mem_offers hp]
  rw [← bodyParams_fst components method path op] at hbody ⊢
  have hdeclared := (Parts.start relative).extends_declared components method path op.parameters
  have hnote := hdeclared.note (duplicates_bodyParams components method path op)
  exact hnote.trans (hnote.parts.extends_push method path hbody)

def choicesAt (p : Param) : Location × List String := (p.location, p.choices)

/-- The parameters of the path may be any text. -/
def PathsFree (d : Draft) : Prop := ∀ p ∈ d.params, p.location = .path → p.choices = []

namespace PathsFree

variable {d : Draft}

theorem describe (h : PathsFree d) (components : Components) (x : Declared) :
    PathsFree (d.describe components x) := by
  rw [Draft.describe]
  split
  case isFalse => exact h
  case isTrue =>
    have hall : ∀ e ∈ d.params.map choicesAt, e.1 = .path → e.2 = [] := List.forall_mem_map.mpr h
    rw [← map_updateFirst (f := enrich (lookUp components x.schema).1 x) (fun _ => rfl)
      (isPathParam x.name)] at hall
    exact List.forall_mem_map.mp hall

theorem push (h : PathsFree d) (method path : String) {ps : List Param}
    (hps : ∀ p ∈ ps, p.location ≠ .path) : PathsFree (ps.foldl (Draft.push method path) d) := by
  intro p hp hpath
  rw [params_foldl_push] at hp
  rcases List.mem_append.mp hp with hp | hp
  · exact h p hp hpath
  · exact (hps p (mem_of_mem_fresh hp) hpath).elim

theorem declare (h : PathsFree d) (components : Components) (method path : String)
    (x : Declared) : PathsFree (d.declare components method path x) := by
  rcases declare_cases components method path d x with ⟨_, hd | hd⟩ | ⟨notices, _, hd⟩
  · rw [hd]
    exact h
  · rw [hd]
    exact h.describe components x
  · have hnoted : PathsFree (d.note notices) := h
    rw [hd]
    refine hnoted.push method path fun p hp => ?_
    simp [location_of_mem_queries hp]

theorem declared (h : PathsFree d) (components : Components) (method path : String)
    (xs : List Declared) : PathsFree (xs.foldl (Draft.declare components method path) d) := by
  induction xs generalizing d with
  | nil => exact h
  | cons x xs ih => exact ih (h.declare components method path x)

end PathsFree

theorem pathsFree_draft (components : Components) (method path relative : String)
    (op : Operation) : PathsFree (draft components method path relative op) := by
  have hstart : PathsFree { params := (names relative).map placeholder } := by
    intro p hp _
    obtain ⟨name, _, rfl⟩ := List.mem_map.mp hp
    rfl
  have hbody : ∀ p ∈ offers components op, p.location ≠ .path := by
    intro p hp
    simp [location_of_mem_offers hp]
  rw [← bodyParams_fst components method path op] at hbody
  have hdeclared := hstart.declared components method path op.parameters
  exact PathsFree.push (d := Draft.note _ _) hdeclared method path hbody

end ApiCommands.Compile
