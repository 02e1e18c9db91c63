import Mathlib.Algebra.BigOperators.Group.List.Basic
import Mathlib.Algebra.Field.Rat
import Reckoner.Grade.Calculator
import Reckoner.Proofs.Decimal.Value

/-!
# Exact averages

Weighed without rounding, the average of a calculator is the sum of the values that are set, each
times its weighting, over the sum of their weightings (`Calculator.average_eq`). Where these come to
zero it is zero, as the quotient is.
-/

namespace Reckoner

instance : Weighable ℚ where
  ofInt n := n
  isZero q := decide (q = 0)

variable {ν μ : Type}

/-- The grade with its value read as another number. -/
def Grade.map (f : ν → μ) (g : Grade ν) : Grade μ :=
  ⟨g.name, g.weighting, g.value.map f⟩

namespace Calculator

/-- The grades with their values read as other numbers. -/
def map (f : ν → μ) (c : Calculator ν) : Calculator μ :=
  ⟨c.grades.map (Grade.map f)⟩

/-- The average as it would be without rounding. -/
def exactAverage (c : Calculator Float) : ℚ :=
  (c.map doubleValue).average

/-- The values that are set in order, each with its weighting. -/
def marks (c : Calculator ν) : List (ν × ℤ) :=
  c.grades.filterMap fun g => g.value.map (·, g.weighting.toInt)

theorem marks_map (f : ν → μ) (c : Calculator ν) :
    (c.map f).marks = c.marks.map (Prod.map f id) := by
  simp only [marks, map, List.filterMap_map, List.map_filterMap]
  refine List.filterMap_congr fun g _ => ?_
  cases h : g.value <;> simp [Grade.map, h]

theorem foldl_accumulate (gs : List (Grade ℚ)) (acc : ℚ × ℚ) :
    gs.foldl accumulate acc =
      (acc.1 + ((Calculator.mk gs).marks.map fun m => m.1 * (m.2 : ℚ)).sum,
        acc.2 + ((Calculator.mk gs).marks.map fun m => (m.2 : ℚ)).sum) := by
  induction gs generalizing acc with
  | nil => simp [marks]
  | cons g gs ih =>
    rw [List.foldl_cons, ih]
    cases h : g.value with
    | none => simp [marks, accumulate, h]
    | some v =>
      simp only [marks, accumulate, h, List.filterMap_cons, Option.map_some, List.map_cons,
        List.sum_cons, ← add_assoc]
      rfl

/-- The average is the quotient of two sums. -/
theorem average_eq (c : Calculator ℚ) : c.average =
    (c.marks.map fun m => m.1 * (m.2 : ℚ)).sum / (c.marks.map fun m => (m.2 : ℚ)).sum := by
  have hzero : (Weighable.ofInt 0 : ℚ) = 0 := Int.cast_zero
  have hsums := foldl_accumulate c.grades (0, 0)
  rw [zero_add, zero_add] at hsums
  rw [average, hzero, hsums]
  by_cases h : (c.marks.map fun m => (m.2 : ℚ)).sum = 0
  · exact (if_pos (decide_eq_true h)).trans (by rw [h, div_zero])
  · exact if_neg (by simpa [Weighable.isZero] using h)

theorem exactAverage_eq (c : Calculator Float) : c.exactAverage =
    (c.marks.map fun m => doubleValue m.1 * (m.2 : ℚ)).sum / (c.marks.map fun m => (m.2 : ℚ)).sum := by
  rw [exactAverage, average_eq, marks_map, List.map_map, List.map_map]
  rfl

end Calculator

end Reckoner
