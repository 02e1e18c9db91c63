import Reckoner.Grade.Calculator
import Reckoner.Json.Access

/-!
# Grades as JSON

A grade is kept as an object with its name, its weighting and its value, which is null for one that
is not set; a calculator as the array of its grades.
-/

namespace Reckoner

namespace Grade

/-- The JSON form of a grade. -/
def toJson (g : Grade Float) : Json :=
  .object <|
    [("name", Json.string g.name), ("weighting", .number (floatOfInt g.weighting.toInt)),
      ("value", g.value.elim .null .number)].foldl
      (fun ms m => Members.insert m.1 m.2 ms) []

/-- Reads a grade back. A value that is missing or null leaves it unset. -/
def ofJson (v : Json) : Except JsonError (Grade Float) := do
  let ms ← v.objectAt "grade"
  let value ← match ms.get? "value" with
    | none | some .null => pure none
    | some v => some <$> v.numberAt "value"
  let name ← (← Json.member ms "name").stringAt "name"
  let weighting ← (← Json.member ms "weighting").integerAt 64 "weighting"
  return ⟨name, .ofInt weighting, value⟩

end Grade

namespace Calculator

/-- The JSON form of a calculator. -/
def toJson (c : Calculator Float) : Json :=
  .array (c.grades.map Grade.toJson)

/-- Reads a calculator back. -/
def ofJson (v : Json) : Except JsonError (Calculator Float) := do
  let items ← v.arrayAt "grades"
  return ⟨← items.mapM Grade.ofJson⟩

end Calculator

end Reckoner
