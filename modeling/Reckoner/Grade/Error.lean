import Reckoner.Decimal.Shortest
import Reckoner.SyntaxError

/-!
# What can go wrong with grades

The causes for which a formula is not a weighted average, or a grade cannot be found or solved for.
-/

namespace Reckoner

/-- Why grades cannot be computed with. -/
inductive GradeError where
  /-- No grade has the name. -/
  | unknownGrade (name : String)
  /-- A weighting leaves the range of its integers. -/
  | weightingOutOfRange
  /-- A multiplier or divisor is not a whole number, or too large a one. -/
  | factorNotInteger (factor : Float)
  /-- The weightings of a formula add up to something other than one. -/
  | weightingsSum (numerator denominator : Int64)
  /-- A formula has a group where only a grade can stand. -/
  | nestedGroup
  /-- A formula has neither a group nor a name where one is needed. -/
  | missingVariable
  /-- The grade to solve for carries no weight. -/
  | zeroWeighting (name : String)
  /-- The formula is malformed, or divides by zero. -/
  | malformed (e : SyntaxError)
  deriving DecidableEq

namespace GradeError

/-- The wording of the error. -/
def message : GradeError → String
  | unknownGrade name => s!"unknown grade '{name}'"
  | weightingOutOfRange => "invalid average expression: weighting is out of range"
  | factorNotInteger factor =>
    let factor := Decimal.text factor
    s!"invalid average expression: factor {factor} is not an integer"
  | weightingsSum numerator denominator =>
    s!"invalid average expression: weightings add up to {numerator}/{denominator}, not 1"
  | nestedGroup => "invalid average expression: nested group in place of a grade"
  | missingVariable => "a variable is needed here"
  | zeroWeighting name => s!"grade '{name}' has zero weighting"
  | malformed e => e.message

end GradeError

end Reckoner
