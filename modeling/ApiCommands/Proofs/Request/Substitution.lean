import ApiCommands.Proofs.Request.Carried

namespace ApiCommands

/-!
# Path values take their places at once

Reading a template from left to right, each placeholder that has a value gives way to the value and
all other text stays. Filling the placeholders one after the other comes to the same, in whatever
order the values are given, since no encoded value holds a brace.
-/

namespace Text.Template

/-- One pass over a template, in which an occurrence of a placeholder is replaced by its value. What
has been put in is not read again. -/
inductive Filled (value : List Char → List Char → Prop) : List Char → List Char → Prop where
  | nil : Filled value [] []
  | placeholder {name x cs out : List Char} (hvalue : value name x) (h : Filled value cs out) :
      Filled value (group name ++ cs) (x ++ out)
  | text {c : Char} {cs out : List Char}
      (hnone : ∀ name x, value name x → ¬group name <+: c :: cs) (h : Filled value cs out) :
      Filled value (c :: cs) (c :: out)

theorem group_append_inj {name other cs ds : List Char} (hname : '}' ∉ name) (hother : '}' ∉ other)
    (h : group name ++ cs = group other ++ ds) : name = other ∧ cs = ds := by
  have hgroups := congrArg (groups none) h
  rw [groups_group_append hname, groups_group_append hother] at hgroups
  obtain rfl := (List.cons.inj hgroups).1
  exact ⟨rfl, List.append_cancel_left h⟩

section Filled

variable {value : List Char → List Char → Prop} {cs out : List Char}

theorem Filled.append_of_notMem {pre : List Char} (h : '{' ∉ pre) (hcs : Filled value cs out) :
    Filled value (pre ++ cs) (pre ++ out) := by
  induction pre with
  | nil => exact hcs
  | cons c pre ih =>
      obtain ⟨hc, hpre⟩ := not_or.mp (mt List.mem_cons.mpr h)
      refine .text (fun name x _ hprefix => hc ?_) (ih hpre)
      exact (List.cons_prefix_cons.mp hprefix).1

theorem filled_of_notMem (h : '}' ∉ cs) : Filled value cs cs := by
  induction cs with
  | nil => exact .nil
  | cons c cs ih =>
      refine .text (fun name x _ hprefix => h ?_) (ih fun hmem => h (List.mem_cons_of_mem c hmem))
      exact hprefix.subset (by simp [group])

/-- Names that hold no closing brace, each with one value, leave no choice. -/
theorem Filled.unique (hclose : ∀ name x, value name x → '}' ∉ name)
    (honly : ∀ name x y, value name x → value name y → x = y) {out' : List Char}
    (h : Filled value cs out) (h' : Filled value cs out') : out = out' := by
  induction h generalizing out' with
  | nil =>
      generalize hcs : ([] : List Char) = ds at h'
      cases h' with
      | nil => rfl
      | placeholder => simp [group] at hcs
      | text => cases hcs
  | @placeholder name x cs out hvalue _ ih =>
      generalize hcs : group name ++ cs = ds at h'
      cases h' with
      | nil => simp [group] at hcs
      | placeholder hother h' =>
          obtain ⟨rfl, rfl⟩ := group_append_inj (hclose _ _ hvalue) (hclose _ _ hother) hcs
          rw [honly _ _ _ hvalue hother, ih h']
      | text hnone => exact (hnone name x hvalue ⟨cs, hcs⟩).elim
  | @text c cs out hnone _ ih =>
      generalize hcs : c :: cs = ds at h'
      cases h' with
      | nil => cases hcs
      | placeholder hvalue => exact (hnone _ _ hvalue ⟨_, hcs.symm⟩).elim
      | text _ h' =>
          cases hcs
          rw [ih h']

/-- The values do not matter, as long as the same placeholders have one. -/
theorem Filled.mono {value' : List Char → List Char → Prop} (h : Filled value cs out)
    (hsub : ∀ name x, value name x → value' name x)
    (hsame : ∀ name x, value' name x → ∃ y, value name y) : Filled value' cs out := by
  induction h with
  | nil => exact .nil
  | placeholder hvalue _ ih => exact .placeholder (hsub _ _ hvalue) ih
  | text hnone _ ih =>
      refine .text (fun name x hvalue => ?_) ih
      obtain ⟨y, hy⟩ := hsame name x hvalue
      exact hnone name y hy

/-- Inside a placeholder in which no other one hides nothing is replaced. -/
theorem Filled.append_suffix (hclose : ∀ name x, value name x → '}' ∉ name)
    {other tail : List Char} (hother : '}' ∉ other)
    (hapart : ∀ name x, value name x → ¬HidesIn name other) (htail : tail <:+ other)
    (hcs : Filled value cs out) : Filled value (tail ++ '}' :: cs) (tail ++ '}' :: out) := by
  have hnone : ∀ rest, rest <:+ other → ∀ name x, value name x →
      ¬group name <+: rest ++ '}' :: cs := by
    intro rest hrest name x hvalue hprefix
    have hno := group_isPrefixOf_suffix (hclose name x hvalue) hother (hapart name x hvalue)
      hrest cs
    rw [List.isPrefixOf_iff_prefix.mpr hprefix] at hno
    cases hno
  induction tail with
  | nil => exact .text (hnone [] htail) hcs
  | cons c tail ih =>
      exact .text (hnone (c :: tail) htail) (ih ((List.suffix_cons c tail).trans htail))

/-- The scan that looks for the next closing brace replaces every occurrence. -/
theorem filled_substitute {f : List Char → Option (List Char)}
    (hclose : ∀ name x, f name = some x → '}' ∉ name)
    (hapart : ∀ other ∈ groups none cs, ∀ name x, f name = some x → ¬HidesIn name other) :
    Filled (fun name x => f name = some x) cs (substitute f none cs) := by
  induction cs using scan_induction with
  | nil => exact .nil
  | text c cs hc ih =>
      rw [substitute_cons_of_ne hc]
      have hpre : '{' ∉ [c] := by simpa using Ne.symm hc
      exact (ih (groups_cons_of_ne hc cs ▸ hapart)).append_of_notMem hpre
  | closed name cs hname ih =>
      rw [groups_group_append hname] at hapart
      have hrest := ih fun other hother => hapart other (List.mem_cons_of_mem _ hother)
      rw [substitute_group_append hname]
      cases hvalue : f name with
      | some x => exact .placeholder hvalue hrest
      | none =>
          have htail := hrest.append_suffix hclose hname (hapart name List.mem_cons_self)
            List.suffix_rfl
          rw [Option.getD_none, group_append, group_append]
          refine .text (fun other x hother hprefix => ?_) htail
          -- Of all placeholders only the one of this name begins here, and it has no value.
          have heq := group_isPrefixOf (hclose other x hother) hname cs
          rw [List.isPrefixOf_iff_prefix.mpr hprefix] at heq
          obtain rfl : name = other := by simpa using heq.symm
          rw [hvalue] at hother
          cases hother
  | unclosed cs hcs =>
      rw [substitute_unclosed hcs]
      exact filled_of_notMem (by simpa using hcs)

end Filled

end Text.Template

namespace Request

open Text (percentChars)
open Text.Template

/-- The text of a placeholder's value: the encoding of what is given for it in the path. -/
def IsPathText (given : List Given) (name x : List Char) : Prop :=
  ∃ g ∈ given, g.isAt .path = true ∧ g.name.toList = name ∧ percentChars g.raw.toList = x

section Given

variable {given given' : List Given} {method template : String}

theorem isPathText_of_pathValue {name x : List Char} (h : pathValue given name = some x) :
    IsPathText given name x := by
  obtain ⟨g, hfind, hx⟩ := Option.map_eq_some_iff.mp h
  obtain ⟨hg, hpath⟩ := List.mem_filter.mp (List.mem_of_find?_eq_some hfind)
  exact ⟨g, hg, hpath, by simpa using List.find?_some hfind, hx⟩

theorem exists_pathValue {name x : List Char} (h : IsPathText given name x) :
    ∃ y, pathValue given name = some y := by
  obtain ⟨g, hg, hpath, rfl, _⟩ := h
  exact Option.isSome_iff_exists.mp (pathValue_isSome hg hpath)

theorem pathValue_eq_some_iff (hnodup : ((given.filter (·.isAt .path)).map Given.name).Nodup)
    {name x : List Char} : pathValue given name = some x ↔ IsPathText given name x := by
  refine ⟨isPathText_of_pathValue, ?_⟩
  rintro ⟨g, hg, hpath, rfl, rfl⟩
  exact pathValue_of_mem hnodup hg hpath

/-- Each placeholder with a value has given way to it. -/
theorem Plain.filled (h : Plain template given) :
    Filled (IsPathText given) template.toList (fillPath template given).toList := by
  have hclose : ∀ name x, pathValue given name = some x → '}' ∉ name := by
    intro name x hx
    obtain ⟨g, hg, hpath, rfl, _⟩ := isPathText_of_pathValue hx
    exact h.closeBrace g hg hpath
  have hapart : ∀ other ∈ groups none template.toList, ∀ name x,
      pathValue given name = some x → ¬HidesIn name other := by
    intro other hother name x hx
    obtain ⟨g, hg, hpath, rfl, _⟩ := isPathText_of_pathValue hx
    exact h.not_hidesIn_groups hg hpath hother
  rw [h.toList_fillPath]
  exact (filled_substitute hclose hapart).mono (fun _ _ => isPathText_of_pathValue)
    fun _ _ => exists_pathValue

theorem mem_of_perm (hperm : (given'.filter (·.isAt .path)).Perm (given.filter (·.isAt .path)))
    {g : Given} : g ∈ given' ∧ g.isAt .path = true ↔ g ∈ given ∧ g.isAt .path = true := by
  rw [← List.mem_filter, ← List.mem_filter]
  exact hperm.mem_iff

theorem isPathText_congr
    (hperm : (given'.filter (·.isAt .path)).Perm (given.filter (·.isAt .path)))
    (name x : List Char) : IsPathText given' name x ↔ IsPathText given name x := by
  simp only [IsPathText, ← and_assoc, mem_of_perm hperm]

/-- Values that can fill a template: each placeholder has one, and no name holds a brace that would
hide another placeholder. -/
structure Covers (template : String) (given : List Given) : Prop where
  openBrace : ∀ name ∈ names template, '{' ∉ name.toList
  closeBrace : ∀ g ∈ given, g.isAt .path = true → '}' ∉ g.name.toList
  nodup : ((given.filter (·.isAt .path)).map Given.name).Nodup
  cover : ∀ name ∈ names template, ∃ g ∈ given, g.isAt .path = true ∧ g.name = name

namespace Covers

theorem of_perm (h : Covers template given)
    (hperm : (given'.filter (·.isAt .path)).Perm (given.filter (·.isAt .path))) :
    Covers template given' where
  openBrace := h.openBrace
  closeBrace := fun g hg hpath => by
    obtain ⟨hg, hpath⟩ := (mem_of_perm hperm).mp ⟨hg, hpath⟩
    exact h.closeBrace g hg hpath
  nodup := (hperm.map Given.name).nodup_iff.mpr h.nodup
  cover := fun name hname => by
    obtain ⟨g, hg, hpath, heq⟩ := h.cover name hname
    obtain ⟨hg, hpath⟩ := (mem_of_perm hperm).mpr ⟨hg, hpath⟩
    exact ⟨g, hg, hpath, heq⟩

theorem plain (h : Covers template given) : Plain template given :=
  .of_notMem h.openBrace h.closeBrace

theorem unique (h : Covers template given) {out : List Char}
    (hout : Filled (IsPathText given) template.toList out) :
    out = (fillPath template given).toList := by
  refine hout.unique ?_ ?_ h.plain.filled
  · rintro _ _ ⟨g, hg, hpath, rfl, _⟩
    exact h.closeBrace g hg hpath
  · intro name x y hx hy
    rw [← pathValue_eq_some_iff h.nodup] at hx hy
    exact Option.some.inj (hx.symm.trans hy)

theorem fillPath_eq (h : Covers template given)
    (hperm : (given'.filter (·.isAt .path)).Perm (given.filter (·.isAt .path))) :
    fillPath template given' = fillPath template given := by
  have hsame : IsPathText given' = IsPathText given := by
    funext name x
    exact propext (isPathText_congr hperm name x)
  exact String.toList_injective (h.unique (hsame ▸ (h.of_perm hperm).plain.filled))

theorem exists_prepare (h : Covers template given)
    (hmethod : isMethod (Text.asciiUpper method) = true) :
    ∃ r, prepare method template given = .ok r ∧
      r.path = appendQuery (fillPath template given) (queryOf given) := by
  obtain ⟨r, hr⟩ := (exists_prepare_iff hmethod).mpr (h.plain.names_fillPath_eq_nil h.cover)
  exact ⟨r, hr, path_of_prepare hr⟩

end Covers

/-- A request is prepared from values that cover its template. Before the query its path is the one
text that one pass over the template makes, and no order of the values and no query or body value
among them changes that. -/
theorem prepare_fills (hmethod : isMethod (Text.asciiUpper method) = true)
    (h : Covers template given) :
    ∃ path : String,
      (∀ out, Filled (IsPathText given) template.toList out ↔ out = path.toList) ∧
      ∀ given', (given'.filter (·.isAt .path)).Perm (given.filter (·.isAt .path)) →
        ∃ r, prepare method template given' = .ok r ∧
          r.path = appendQuery path (queryOf given') := by
  refine ⟨fillPath template given, fun out => ⟨h.unique, ?_⟩, fun given' hperm => ?_⟩
  · rintro rfl
    exact h.plain.filled
  · rw [← h.fillPath_eq hperm]
    exact (h.of_perm hperm).exists_prepare hmethod

end Given

/-- Values with braces, a percent sign and the text of another placeholder. -/
def bracedGiven : List Given :=
  [⟨"b", .path, "50%"⟩, ⟨"q", .query, "\x7ba\x7d"⟩, ⟨"a", .path, "\x7bb\x7d"⟩]

theorem prepare_fills_braces :
    ∃ path : String,
      (∀ out, Filled (IsPathText bracedGiven) "/x/\x7ba\x7d/\x7bb\x7d\x7ba\x7d".toList out ↔
        out = path.toList) ∧
      ∀ given', (given'.filter (·.isAt .path)).Perm (bracedGiven.filter (·.isAt .path)) →
        ∃ r, prepare "put" "/x/\x7ba\x7d/\x7bb\x7d\x7ba\x7d" given' = .ok r ∧
          r.path = appendQuery path (queryOf given') :=
  prepare_fills (by decide +kernel)
    ⟨by decide +kernel, by decide +kernel, by decide +kernel, by decide +kernel⟩

example :
    (prepare "put" "/x/\x7ba\x7d/\x7bb\x7d\x7ba\x7d" bracedGiven).map Prepared.path =
      .ok "/x/%7Bb%7D/50%25%7Bb%7D?q=%7Ba%7D" := by
  decide +kernel

end Request

end ApiCommands
