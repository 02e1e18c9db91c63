import Reckoner.Decimal.Nearest
import Reckoner.Grade.Error

/-!
# Weighted averages

Named grades with integer weightings, of which some are set. The average is over those that are; a
grade can be solved for, so that the average reaches a target. Values are doubles, or any other
numbers that can be weighted.
-/

namespace Reckoner

/-- Numbers that can be weighted and averaged. -/
class Weighable (ν : Type) extends Add ν, Sub ν, Mul ν, Div ν where
  /-- The number for a weighting. -/
  ofInt : Int → ν
  /-- Whether the number is zero. -/
  isZero : ν → Bool

instance : Weighable Float where
  ofInt := floatOfInt
  isZero x := x == 0

/-- A named grade, its weighting and, if it is set, its value. -/
structure Grade (ν : Type) where
  name : String
  weighting : Int64
  value : Option ν
  deriving BEq

/-- Grades in order. Of several with one name, the first is the one that the name finds. -/
structure Calculator (ν : Type) where
  grades : List (Grade ν)
  deriving BEq

variable {ν : Type}

namespace Grade

/-- A grade that is not set. -/
def unset (name : String) (weighting : Int64) : Grade ν :=
  ⟨name, weighting, none⟩

/-- Whether the grade has a value. -/
def isSet (g : Grade ν) : Bool :=
  g.value.isSome

/-- The weighting as a number. -/
def weight [Weighable ν] (g : Grade ν) : ν :=
  Weighable.ofInt g.weighting.toInt

end Grade

namespace Calculator

/-- The grade called `name`. -/
def grade? (c : Calculator ν) (name : String) : Option (Grade ν) :=
  c.grades.find? (·.name = name)

/-- Changes the first of the grades called `name`. -/
def updateFirst (name : String) (change : Grade ν → Grade ν) : List (Grade ν) → List (Grade ν)
  | [] => []
  | g :: gs => if g.name = name then change g :: gs else g :: updateFirst name change gs

/-- Sets the grade called `name`. -/
def set (c : Calculator ν) (name : String) (value : ν) : Except GradeError (Calculator ν) :=
  if (c.grade? name).isSome then
    .ok ⟨updateFirst name (fun g => { g with value := some value }) c.grades⟩
  else .error (.unknownGrade name)

/-- Takes the value of the grade called `name` away; says whether there is such a grade. -/
def reset (c : Calculator ν) (name : String) : Bool × Calculator ν :=
  ((c.grade? name).isSome, ⟨updateFirst name (fun g => { g with value := none }) c.grades⟩)

/-- Adds a grade, if it is set, to a total of weighted values and a total of weightings. -/
def accumulate [Weighable ν] (acc : ν × ν) (g : Grade ν) : ν × ν :=
  match g.value with
  | some v => (acc.1 + v * g.weight, acc.2 + g.weight)
  | none => acc

/-- The weighted average of the grades that are set; zero where they carry no weight. -/
def average [Weighable ν] (c : Calculator ν) : ν :=
  let (total, weight) :=
    c.grades.foldl accumulate (Weighable.ofInt 0, Weighable.ofInt 0)
  if Weighable.isZero weight then Weighable.ofInt 0 else total / weight

/-- The value that the grade called `name` needs for the average to be `target`. Whatever is set
under that name does not count; all else that is set does. -/
def required [Weighable ν] (c : Calculator ν) (name : String) (target : ν) :
    Except GradeError ν :=
  match c.grade? name with
  | none => .error (.unknownGrade name)
  | some g =>
    if g.weighting = 0 then .error (.zeroWeighting name)
    else
      let others := c.grades.filter (·.name ≠ name)
      let (total, weight) := others.foldl accumulate (Weighable.ofInt 0, g.weight)
      .ok ((target * weight - total) / g.weight)

end Calculator

end Reckoner
