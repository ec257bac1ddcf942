import ApiCommands.Proofs.Command.Inputs
import Mathlib.Data.List.Sort

namespace ApiCommands

/-!
# How parameters are divided

A parameter is told by its place in the list, for a list may hold equal ones. Every place is given
in one way: the places of the path, in order, are positional, after them the place of the free text
if there is just one such place, and all other places are flags, in order.
-/

section Places

variable {α : Type} {p : α → Bool} {xs : List α}

/-- The places of the elements of a class, in order. -/
def placesOf (p : α → Bool) (xs : List α) : List (Fin xs.length) :=
  (List.finRange xs.length).filter fun k => p xs[k]

theorem mem_placesOf {k : Fin xs.length} : k ∈ placesOf p xs ↔ p xs[k] = true := by
  simp [placesOf]

theorem pairwise_placesOf (p : α → Bool) (xs : List α) : (placesOf p xs).Pairwise (· < ·) :=
  (List.sortedLT_iff_pairwise.mp (List.sortedLT_finRange _)).sublist List.filter_sublist

theorem map_placesOf (p : α → Bool) (xs : List α) : (placesOf p xs).map xs.get = xs.filter p := by
  have hfilter := List.filter_map (p := p) (f := xs.get) (l := List.finRange xs.length)
  rw [List.map_get_finRange] at hfilter
  exact hfilter.symm

/-- The place of the one element of a class, where there is just one. -/
def onlyPlace (p : α → Bool) (xs : List α) : Option (Fin xs.length) :=
  match placesOf p xs with
  | [k] => some k
  | _ => none

theorem onlyPlace_eq_some_iff {k : Fin xs.length} :
    onlyPlace p xs = some k ↔ p xs[k] = true ∧ ∀ j : Fin xs.length, p xs[j] = true → j = k := by
  have honly : onlyPlace p xs = some k ↔ placesOf p xs = [k] := by
    rw [onlyPlace]
    split
    case h_1 j hj => simp [hj]
    case h_2 hmany => simpa using hmany k
  rw [honly]
  constructor
  · intro h
    refine ⟨mem_placesOf.mp (h ▸ List.mem_singleton_self k), fun j hj => ?_⟩
    exact List.mem_singleton.mp (h ▸ mem_placesOf.mpr hj)
  · rintro ⟨hk, hother⟩
    have hnodup : (placesOf p xs).Nodup := (pairwise_placesOf p xs).imp Fin.ne_of_lt
    refine List.perm_singleton.mp ((List.perm_ext_iff_of_nodup hnodup (List.nodup_singleton k)).mpr
      fun j => ?_)
    rw [mem_placesOf, List.mem_singleton]
    exact ⟨hother j, fun h => h ▸ hk⟩

end Places

namespace Param

/-- A parameter of the body that has to be given and may be any text. -/
structure IsFree (p : Param) : Prop where
  location : p.location = .body
  required : p.required = true
  type : p.type = .string
  choices : p.choices = []

theorem isFreeText_iff {p : Param} : p.isFreeText = true ↔ p.IsFree := by
  simp only [isFreeText, Bool.and_eq_true, beq_iff_eq, List.isEmpty_iff]
  constructor
  · rintro ⟨⟨⟨hlocation, hrequired⟩, htype⟩, hchoices⟩
    exact ⟨hlocation, hrequired, htype, hchoices⟩
  · rintro ⟨hlocation, hrequired, htype, hchoices⟩
    exact ⟨⟨⟨hlocation, hrequired⟩, htype⟩, hchoices⟩

/-- The places of a list of parameters in three parts: those of the path and at most one of a free
text, which are positional, and the flags. -/
structure Divides (ps : List Param) (paths : List (Fin ps.length))
    (promoted : Option (Fin ps.length)) (flags : List (Fin ps.length)) : Prop where
  perm : (paths ++ promoted.toList ++ flags).Perm (List.finRange ps.length)
  paths_inOrder : paths.Pairwise (· < ·)
  mem_paths : ∀ k, k ∈ paths ↔ ps[k].location = .path
  promoted_iff : ∀ k, promoted = some k ↔
    ps[k].IsFree ∧ ∀ j : Fin ps.length, ps[j].IsFree → j = k
  flags_inOrder : flags.Pairwise (· < ·)
  mem_flags : ∀ k, k ∈ flags ↔
    (ps[k].location = .query ∨ ps[k].location = .body) ∧ promoted ≠ some k

/-- What stands in each part makes the parts a division. -/
theorem Divides.of_mem {ps : List Param} {paths flags : List (Fin ps.length)}
    {promoted : Option (Fin ps.length)} (hpaths : paths.Pairwise (· < ·))
    (hmempaths : ∀ k, k ∈ paths ↔ ps[k].location = .path)
    (hpromoted : ∀ k, promoted = some k ↔
      ps[k].IsFree ∧ ∀ j : Fin ps.length, ps[j].IsFree → j = k)
    (hflags : flags.Pairwise (· < ·))
    (hmemflags : ∀ k, k ∈ flags ↔
      (ps[k].location = .query ∨ ps[k].location = .body) ∧ promoted ≠ some k) :
    Divides ps paths promoted flags := by
  have hbody : ∀ k, promoted = some k → ps[k].location = .body :=
    fun k hk => ((hpromoted k).mp hk).1.location
  have hnodup : (paths ++ promoted.toList ++ flags).Nodup := by
    refine List.nodup_append.mpr ⟨List.nodup_append.mpr ⟨hpaths.imp Fin.ne_of_lt, ?_, ?_⟩,
      hflags.imp Fin.ne_of_lt, ?_⟩
    · cases promoted <;> simp
    · rintro k hk _ hj rfl
      have hpath := (hmempaths k).mp hk
      rw [hbody k (by simpa using hj)] at hpath
      cases hpath
    · rintro k hk _ hj rfl
      obtain ⟨hlocation, hother⟩ := (hmemflags k).mp hj
      rcases List.mem_append.mp hk with hk | hk
      · rw [(hmempaths k).mp hk] at hlocation
        simp at hlocation
      · exact hother (by simpa using hk)
  refine ⟨(List.perm_ext_iff_of_nodup hnodup (List.nodup_finRange _)).mpr fun k => ?_, hpaths,
    hmempaths, hpromoted, hflags, hmemflags⟩
  simp only [List.mem_append, hmempaths, hmemflags, Option.mem_toList,
    List.mem_finRange, iff_true]
  by_cases hk : promoted = some k
  · exact Or.inl (Or.inr hk)
  · cases hlocation : ps[k].location <;> simp [hk]

theorem promoted_eq_map (ps : List Param) :
    promoted ps = (onlyPlace isFreeText ps).toList.map ps.get := by
  rw [promoted, ← map_placesOf, onlyPlace]
  rcases placesOf isFreeText ps with _ | ⟨k, _ | ⟨j, rest⟩⟩
  · rfl
  · rfl
  · rfl

theorem hasPromoted_iff {ps : List Param} :
    hasPromoted ps = true ↔ ∃ k, onlyPlace isFreeText ps = some k := by
  rw [hasPromoted, promoted_eq_map]
  cases onlyPlace isFreeText ps <;> simp

/-- Just one place of a free text is no flag, even if other places hold the same parameter. -/
theorem isFlag_iff {ps : List Param} {k : Fin ps.length} :
    isFlag (hasPromoted ps) ps[k] = true ↔
      (ps[k].location = .query ∨ ps[k].location = .body) ∧
        onlyPlace isFreeText ps ≠ some k := by
  have hpromoted : (hasPromoted ps && ps[k].isFreeText) = true ↔
      onlyPlace isFreeText ps = some k := by
    rw [Bool.and_eq_true, hasPromoted_iff]
    constructor
    · rintro ⟨⟨j, hj⟩, hk⟩
      rwa [(onlyPlace_eq_some_iff.mp hj).2 k hk]
    · exact fun hk => ⟨⟨k, hk⟩, (onlyPlace_eq_some_iff.mp hk).1⟩
  rw [isFlag, Bool.and_eq_true, Bool.not_eq_true', Bool.not_eq_true', ← Bool.not_eq_true,
    ← Bool.not_eq_true, hpromoted, isPath, beq_iff_eq]
  refine and_congr_left fun _ => ?_
  cases ps[k].location <;> simp

theorem divides_places (ps : List Param) :
    Divides ps (placesOf isPath ps) (onlyPlace isFreeText ps)
      (placesOf (isFlag (hasPromoted ps)) ps) := by
  refine .of_mem (pairwise_placesOf _ _) (fun k => ?_) (fun k => ?_) (pairwise_placesOf _ _)
    fun k => ?_
  · rw [mem_placesOf, isPath, beq_iff_eq]
  · simp only [onlyPlace_eq_some_iff, isFreeText_iff]
  · rw [mem_placesOf, isFlag_iff]

/-- Every place of a list is positional or a flag: positional are the places of the path, in order,
and after them the place of a free text where there is just one, flags are all other places, in
order. The inputs are the parameters at these places, and an endpoint that has these inputs gives
both parts back. -/
theorem exists_divides (ps : List Param) :
    ∃ paths promoted places, Divides ps paths promoted places ∧
      positionals ps = (paths ++ promoted.toList).map ps.get ∧
      flags ps = places.map ps.get ∧
      inputs ps = (paths ++ promoted.toList).map (fun k => ⟨ps.get k, true⟩) ++
        places.map (fun k => ⟨ps.get k, false⟩) ∧
      ∀ method path, Endpoint.positionals ⟨method, path, inputs ps⟩ =
          (positionals ps).map (⟨·, true⟩) ∧
        Endpoint.flags ⟨method, path, inputs ps⟩ = (flags ps).map (⟨·, false⟩) := by
  have hpositionals : positionals ps =
      (placesOf isPath ps ++ (onlyPlace isFreeText ps).toList).map ps.get := by
    rw [positionals, promoted_eq_map, List.map_append, map_placesOf]
  have hflags : flags ps = (placesOf (isFlag (hasPromoted ps)) ps).map ps.get :=
    (map_placesOf _ _).symm
  refine ⟨_, _, _, divides_places ps, hpositionals, hflags, ?_, fun method path => ?_⟩
  · rw [inputs, hpositionals, hflags, List.map_map, List.map_map]
    rfl
  · exact ⟨positionals_eq_of_inputs rfl, flags_eq_of_inputs rfl⟩

/-- Two equal free texts are both flags. -/
example :
    let text : Param := { name := "a", required := true, location := .body }
    let key : Param := { name := "k", required := true, location := .path }
    positionals [text, key, text] = [key] ∧ flags [text, key, text] = [text, text] := by
  decide

end Param

end ApiCommands
