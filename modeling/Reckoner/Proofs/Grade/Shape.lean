import Reckoner.Proofs.Grade.Derivation
import Reckoner.Proofs.Grade.Partition

/-!
# The shape of a formula

Groups within groups, without the names and the numbers in them, are the shape that a formula has in
common with its term (`Term.Derivation.shape_build`). The terms that become grades all are grades just
if groups are nested in one way, a group of one term around anything, and a group of several grades
around nothing else (`Term.all_isGrade_gradeTerms`); else no calculator is made
(`Term.shallow_of_toCalculator`).
-/

namespace Reckoner

/-- A grade, or a group of these. -/
inductive Shape where
  | grade
  | group (members : List Shape)

namespace Shape

def isGrade : Shape → Bool
  | grade => true
  | group _ => false

/-- Nothing but grades is left when a group of one is opened in turn. -/
def opens : Shape → Bool
  | grade => true
  | group [s] => s.opens
  | group ss => ss.all isGrade

/-- Nothing but grades is left when the members of the whole are opened. -/
def shallow : Shape → Bool
  | grade => true
  | group ss => ss.all opens

end Shape

namespace Term

mutual

def shape : Term → Shape
  | grade .. => .grade
  | sum _ members => .group (shapes members)

def shapes : List Term → List Shape
  | [] => []
  | t :: ts => t.shape :: shapes ts

end

theorem shapes_eq_map : (ts : List Term) → shapes ts = ts.map shape
  | [] => rfl
  | t :: ts => by rw [shapes, shapes_eq_map ts, List.map_cons]

section GradeTerms

mutual

theorem all_isGrade_leaves : (t : Term) → (t.leaves.all fun u => u.shape.isGrade) = t.shape.opens
  | .grade .. => by simp [leaves, shape, Shape.opens, Shape.isGrade]
  | .sum _ [] => by simp [leaves, shape, shapes, Shape.opens]
  | .sum _ [t] => by
    rw [leaves, all_isGrade_leaves t]
    simp [shape, shapes, Shape.opens]
  | .sum _ (t :: u :: ts) => by
    rw [leaves, shape, shapes, shapes, Shape.opens, shapes_eq_map]
    · simp [Function.comp_def]
    all_goals simp

theorem all_isGrade_leavesAll : (ts : List Term) →
    ((leavesAll ts).all fun u => u.shape.isGrade) = (shapes ts).all Shape.opens
  | [] => by simp [leavesAll, shapes]
  | t :: ts => by
    rw [leavesAll, List.all_append, all_isGrade_leaves t, all_isGrade_leavesAll ts, shapes,
      List.all_cons]

end

/-- All terms that become grades are grades just if the formula is shallow. -/
theorem all_isGrade_gradeTerms (t : Term) :
    (t.gradeTerms.all fun u => u.shape.isGrade) = t.shape.shallow := by
  cases t with
  | grade name w => rfl
  | sum w members => rw [gradeTerms, all_isGrade_leavesAll, shape, Shape.shallow]

variable {ν : Type}

theorem all_isGrade_of_aligns {dens : List Int64} {ts : List Term} {gs : List (Grade ν)}
    (h : List.Forall₂ (Aligns dens) ts gs) : (ts.all fun u => u.shape.isGrade) = true := by
  induction h with
  | nil => rfl
  | cons hg _ ih =>
    obtain ⟨name, w, w', rfl, -⟩ := hg
    rw [List.all_cons, ih]
    rfl

theorem shallow_of_toCalculator {t : Term} {c : Calculator ν} (h : t.toCalculator = .ok c) :
    t.shape.shallow = true := by
  rw [← all_isGrade_gradeTerms]
  exact all_isGrade_of_aligns (toCalculator_eq_ok.1 h).2

end GradeTerms

section Build

variable {change : Fraction → Except GradeError Fraction} {t t' : Term} {ts ts' : List Term}

mutual

/-- Changing the weights leaves the shape. -/
theorem shape_rescale : {t t' : Term} → t.rescale change = .ok t' → t'.shape = t.shape
  | .grade .., _, h => by
    obtain ⟨w, -, rfl⟩ := rescale_grade_eq_ok.1 h
    rfl
  | .sum _ members, _, h => by
    obtain ⟨members', w, hms, -, rfl⟩ := rescale_sum_eq_ok.1 h
    rw [shape, shapes_rescaleAll hms, shape]

theorem shapes_rescaleAll : {ts ts' : List Term} → rescaleAll change ts = .ok ts' →
    shapes ts' = shapes ts
  | [], _, h => by
    obtain rfl := rescaleAll_nil_eq_ok.1 h
    rfl
  | t :: ts, _, h => by
    obtain ⟨t', ts', ht, hts, rfl⟩ := rescaleAll_cons_eq_ok.1 h
    rw [shapes, shape_rescale ht, shapes_rescaleAll hts, shapes]

end

theorem shape_scaleBy {k : Option Float} (h : scaleBy k t = .ok t') : t'.shape = t.shape := by
  rcases eq_or_rescale_of_scaleBy h with rfl | ⟨n, h⟩
  · rfl
  · exact shape_rescale h

theorem shape_divideBy {ns : List Numeral} (h : divideBy (carried ns) t = .ok t') :
    t'.shape = t.shape := by
  rcases eq_or_rescale_of_divideBy h with ⟨-, rfl⟩ | ⟨-, -, h⟩
  · rfl
  · exact shape_rescale h

mutual

def Derivation.shape : Derivation → Shape
  | .grade .. => .grade
  | .group _ members _ _ => .group members.shapes

def Row.shapes : Row → List Shape
  | .last t => [t.shape]
  | .cons t rest => t.shape :: rest.shapes

end

mutual

/-- The term of a derivation has its shape. -/
theorem Derivation.shape_build : (d : Derivation) → {t : Term} → d.build = .ok t →
    t.shape = d.shape
  | .grade .., _, h => by
    rw [Derivation.build] at h
    obtain ⟨t₁, h₁, h⟩ := bind_eq_ok.1 h
    rw [shape_divideBy h, shape_scaleBy h₁, Term.shape, Derivation.shape]
  | .group _ members _ _, _, h => by
    rw [Derivation.build] at h
    obtain ⟨ts, hts, h⟩ := bind_eq_ok.1 h
    obtain ⟨t₀, h₀, h⟩ := bind_eq_ok.1 h
    obtain ⟨t₁, h₁, h⟩ := bind_eq_ok.1 h
    obtain ⟨w, -, h₀⟩ := bind_eq_ok.1 h₀
    rw [shape_divideBy h, shape_scaleBy h₁, ← Except.ok.inj h₀, Term.shape,
      members.shapes_build hts, Derivation.shape]

theorem Row.shapes_build : (row : Row) → {ts : List Term} → row.build = .ok ts →
    Term.shapes ts = row.shapes
  | .last t, _, h => by
    rw [Row.build] at h
    obtain ⟨u, hu, h⟩ := bind_eq_ok.1 h
    obtain rfl := Except.ok.inj h
    rw [Term.shapes, t.shape_build hu, Term.shapes, Row.shapes]
  | .cons t rest, _, h => by
    rw [Row.build] at h
    obtain ⟨u, hu, h⟩ := bind_eq_ok.1 h
    obtain ⟨us, hus, h⟩ := bind_eq_ok.1 h
    obtain rfl := Except.ok.inj h
    rw [Term.shapes, t.shape_build hu, rest.shapes_build hus, Row.shapes]

end

end Build

end Term

end Reckoner
