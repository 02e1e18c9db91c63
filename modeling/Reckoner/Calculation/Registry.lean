import Reckoner.Calculation.Builtin

/-!
# Registries

The calculations that expressions may call, by name. Names are case-sensitive, and the first
calculation registered under a name keeps it.
-/

namespace Reckoner

/-- A catalogue of named calculations, in order of registration. -/
structure Registry where
  calculations : List Calculation

namespace Registry

/-- The registry without calculations. -/
def empty : Registry := ⟨[]⟩

/-- The calculation registered under `name`. -/
def lookup (r : Registry) (name : String) : Option Calculation :=
  r.calculations.find? (·.name = some name)

/-- Adds a calculation, unless it has no name or one that is taken; says whether it was added. -/
def register (r : Registry) (f : Calculation) : Bool × Registry :=
  match f.name with
  | none => (false, r)
  | some name =>
    if (r.lookup name).isSome then (false, r) else (true, ⟨r.calculations ++ [f]⟩)

/-- The registry of the built-in calculations. -/
def builtin : Registry :=
  Calculation.builtins.foldl (fun r f => (r.register f).2) empty

/-- How many calculations are registered. -/
def size (r : Registry) : Nat :=
  r.calculations.length

end Registry

end Reckoner
