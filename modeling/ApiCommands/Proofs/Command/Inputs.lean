import ApiCommands.Command.Tree
import Mathlib.Data.List.Perm.Basic
import Mathlib.Data.List.Nodup

namespace ApiCommands

/-!
# The inputs of a command

The inputs are the parameters again, each with the way in which it is given. The positional ones
stand before the flags, and every parameter of the path is among them.
-/

namespace Param

/-- Whether one of some parameters is a free text that is positional. -/
def hasPromoted (ps : List Param) : Bool := !(promoted ps).isEmpty

theorem promoted_eq (ps : List Param) :
    promoted ps = ps.filter fun p => hasPromoted ps && p.isFreeText := by
  by_cases h : promoted ps = []
  · simp [hasPromoted, h]
  · have honly : promoted ps = ps.filter isFreeText := by
      rw [promoted] at h ⊢
      split at h
      case h_1 only honly => rw [honly]
      case h_2 => exact (h rfl).elim
    have hsome : hasPromoted ps = true := by simp [hasPromoted, h]
    simp [hsome, honly]

theorem isPath_of_isFreeText {p : Param} (h : p.isFreeText = true) : p.isPath = false := by
  simp only [isFreeText, Bool.and_eq_true, beq_iff_eq] at h
  simp [isPath, h.1.1.1]

theorem choices_of_mem_positionals {ps : List Param}
    (h : ∀ p ∈ ps, p.location = .path → p.choices = []) {p : Param} (hp : p ∈ positionals ps) :
    p.choices = [] := by
  rcases List.mem_append.mp hp with hp | hp
  · obtain ⟨hp, hpath⟩ := List.mem_filter.mp hp
    exact h p hp (by simpa [isPath] using hpath)
  · rw [promoted_eq] at hp
    have hfree := (List.mem_filter.mp hp).2
    simp only [isFreeText, Bool.and_eq_true, List.isEmpty_iff] at hfree
    exact hfree.2.2

/-- Every parameter is either positional or a flag. -/
theorem positionals_append_flags_perm (ps : List Param) :
    (positionals ps ++ flags ps).Perm ps := by
  have hpromoted : promoted ps =
      (ps.filter (!isPath ·)).filter fun p => hasPromoted ps && p.isFreeText := by
    rw [promoted_eq, List.filter_filter]
    refine List.filter_congr fun p _ => ?_
    by_cases hfree : p.isFreeText = true
    · simp [hfree, isPath_of_isFreeText hfree]
    · simp [hfree]
  have hflags : flags ps =
      (ps.filter (!isPath ·)).filter fun p => !(hasPromoted ps && p.isFreeText) := by
    rw [flags, List.filter_filter]
    refine List.filter_congr fun p _ => ?_
    rw [isFlag, Bool.and_comm]
    rfl
  rw [positionals, List.append_assoc, hpromoted, hflags]
  exact ((List.filter_append_perm _ _).append_left _).trans (List.filter_append_perm isPath ps)

end Param

theorem map_toParam_inputs (ps : List Param) :
    (inputs ps).map Input.toParam = Param.positionals ps ++ Param.flags ps := by
  simp [inputs, Function.comp_def]

theorem inputs_perm (ps : List Param) : ((inputs ps).map Input.toParam).Perm ps :=
  map_toParam_inputs ps ▸ Param.positionals_append_flags_perm ps

theorem nodup_names_inputs {ps : List Param} (h : (ps.map Param.name).Nodup) :
    ((inputs ps).map fun i => i.name).Nodup := by
  have hperm := (inputs_perm ps).map Param.name
  rw [List.map_map] at hperm
  exact hperm.nodup_iff.mpr h

theorem toParam_mem_of_mem_inputs {ps : List Param} {i : Input} (h : i ∈ inputs ps) :
    i.toParam ∈ ps :=
  (inputs_perm ps).mem_iff.mp (List.mem_map_of_mem h)

theorem exists_mem_inputs {ps : List Param} {p : Param} (h : p ∈ ps) :
    ∃ i ∈ inputs ps, i.toParam = p :=
  List.mem_map.mp ((inputs_perm ps).mem_iff.mpr h)

theorem positional_of_mem_inputs {ps : List Param} {i : Input} (h : i ∈ inputs ps)
    (hpath : i.location = .path) : i.positional = true := by
  rcases List.mem_append.mp h with h | h
  · obtain ⟨p, _, rfl⟩ := List.mem_map.mp h
    rfl
  · obtain ⟨p, hp, rfl⟩ := List.mem_map.mp h
    have hflag := (List.mem_filter.mp hp).2
    have hp : p.location = .path := hpath
    simp [Param.isFlag, Param.isPath, hp] at hflag

theorem positionals_eq_of_inputs {e : Endpoint} {ps : List Param}
    (h : e.inputs = ApiCommands.inputs ps) :
    e.positionals = (Param.positionals ps).map (⟨·, true⟩) := by
  simp [Endpoint.positionals, h, ApiCommands.inputs, List.filter_append, List.filter_map,
    Function.comp_def]

theorem flags_eq_of_inputs {e : Endpoint} {ps : List Param} (h : e.inputs = ApiCommands.inputs ps) :
    e.flags = (Param.flags ps).map (⟨·, false⟩) := by
  simp [Endpoint.flags, h, ApiCommands.inputs, List.filter_append, List.filter_map,
    Function.comp_def]

/-- The inputs of an endpoint stand in the order of its arguments and have distinct names. -/
structure Endpoint.WellFormed (e : Endpoint) : Prop where
  order : e.positionals ++ e.flags = e.inputs
  nodup : (e.inputs.map fun i => i.name).Nodup

theorem Endpoint.wellFormed_of_params {ps : List Param} (h : (ps.map Param.name).Nodup)
    (method path : String) : Endpoint.WellFormed ⟨method, path, ApiCommands.inputs ps⟩ where
  order := by
    rw [positionals_eq_of_inputs rfl, flags_eq_of_inputs rfl]
    rfl
  nodup := nodup_names_inputs h

end ApiCommands
