import Reckoner.Decimal.Whole
import Reckoner.Grade.Calculator
import Reckoner.Grade.Fraction

/-!
# Terms of a formula

A term is a grade or a sum of terms, and carries the share of the final average that it accounts
for: for a sum, the sum of its members' shares. Scaling a term scales the grades beneath it and adds
their shares up anew. The terms of a formula become the grades of a calculator once their shares are
brought to denominators that are products of the same factors.
-/

namespace Reckoner

/-- A part of a formula, with its share of the average. -/
inductive Term where
  | grade (name : String) (weighting : Fraction)
  | sum (weighting : Fraction) (members : List Term)

namespace Term

/-- The share of the average. -/
def weighting : Term → Fraction
  | grade _ w => w
  | sum w _ => w

/-- The sum of the terms' shares; the share of a single term is not reduced. -/
def total : List Term → Except GradeError Fraction
  | [] => .ok .one
  | t :: ts => ts.foldlM (fun acc t => acc.add t.weighting) t.weighting

/-- The sum of some terms. -/
def ofMembers (members : List Term) : Except GradeError Term := do
  return sum (← total members) members

mutual

/-- Changes the shares of all grades beneath the term, and adds them up again. -/
def rescale (change : Fraction → Except GradeError Fraction) : Term → Except GradeError Term
  | grade name w => do return grade name (← change w)
  | sum _ members => do
    let members ← rescaleAll change members
    return sum (← total members) members

/-- Changes the shares of all grades beneath the terms. -/
def rescaleAll (change : Fraction → Except GradeError Fraction) :
    List Term → Except GradeError (List Term)
  | [] => .ok []
  | t :: ts => do
    let t ← rescale change t
    let ts ← rescaleAll change ts
    return t :: ts

end

/-- Multiplies the term; zero is passed over. -/
def multiply (n : Int64) (t : Term) : Except GradeError Term :=
  if n = 0 then .ok t else t.rescale (·.scaleUp n)

/-- Divides the term; zero is passed over. -/
def divide (n : Int64) (t : Term) : Except GradeError Term :=
  if n = 0 then .ok t else t.rescale (·.scaleDown n)

/-- A number as a multiplier or divisor. -/
def factor (n : Float) : Except GradeError Int64 :=
  if isWhole n then
    match truncateTo? 64 n with
    | some i => .ok (.ofInt i)
    | none => .error (.factorNotInteger n)
  else .error (.factorNotInteger n)

mutual

/-- The terms that become grades: a sum of one term is opened in turn, the members of a longer one
stand as they are. -/
def leaves : Term → List Term
  | grade name w => [grade name w]
  | sum _ [] => []
  | sum _ [t] => t.leaves
  | sum _ ts => ts

/-- The terms that become grades, of several terms. -/
def leavesAll : List Term → List Term
  | [] => []
  | t :: ts => t.leaves ++ leavesAll ts

end

/-- The terms that become grades when the term is a whole formula. -/
def gradeTerms : Term → List Term
  | grade name w => [grade name w]
  | sum _ members => leavesAll members

/-- Brings a share to a denominator that it has in common with the others. -/
def align (denominators : List Int64) (w : Fraction) : Except GradeError Fraction :=
  (denominators.filter (· ≠ w.denominator)).foldlM (fun acc d => acc.expand d) w

/-- The grades of a formula: its shares must make up the whole, and no group may stand in place of
a grade. -/
def toCalculator {ν : Type} (t : Term) : Except GradeError (Calculator ν) := do
  let whole ← t.weighting.reduced
  unless whole.isOne do throw (.weightingsSum whole.numerator whole.denominator)
  let terms := t.gradeTerms
  let denominators := (terms.map fun t => t.weighting.denominator).eraseDups
  let grades ← terms.mapM fun t => do
    let w ← align denominators t.weighting
    match t with
    | grade name _ => return Grade.unset name w.numerator
    | sum .. => throw .nestedGroup
  return ⟨grades⟩

end Term

end Reckoner
