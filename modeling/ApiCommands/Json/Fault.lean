namespace ApiCommands.Json

/-!
# Faults of a JSON text

The three ways in which a text fails to be the JSON that is wanted.
-/

inductive Fault where
  /-- The text ends too early. -/
  | cutShort
  /-- The text is no JSON, or JSON beyond what a value can hold. -/
  | malformed
  /-- The text is JSON of another shape than the wanted one. -/
  | wrongShape
deriving DecidableEq, Repr

/-- Where a text breaks off, the fault may depend on whether the broken value is kept or
skipped. -/
structure Cut where
  kept : Fault
  skipped : Fault
deriving DecidableEq, Repr

def Cut.both (f : Fault) : Cut := ⟨f, f⟩

abbrev Reading (α : Type) := Except Fault α

/-- Two outcomes can be compared where their parts can. -/
instance decEqExcept {ε α : Type} [DecidableEq ε] [DecidableEq α] : DecidableEq (Except ε α)
  | .ok a, .ok b => decidable_of_iff (a = b) (by simp)
  | .error e, .error f => decidable_of_iff (e = f) (by simp)
  | .ok _, .error _ => .isFalse nofun
  | .error _, .ok _ => .isFalse nofun

end ApiCommands.Json
