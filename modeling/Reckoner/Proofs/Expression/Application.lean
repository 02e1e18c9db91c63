import Reckoner.Expression.Basic
import Reckoner.Proofs.Except

/-!
# What evaluation applies

Evaluating a tree applies calculations one after the other, up to the first that fails. The value is
an error just if one of these applications gives that error (`Expression.value_eq_error_iff`).
-/

namespace Reckoner

/-- A calculation and the numbers that it is applied to. -/
structure Application where
  calculation : Calculation
  args : List Float

namespace Application

def result (a : Application) : Except SyntaxError Float :=
  a.calculation.call a.args

end Application

namespace Expression

/-- What comes after a result; nothing comes after an error. -/
def after {α : Type} (x : Except SyntaxError α) (next : α → List Application) : List Application :=
  match x with
  | .ok a => next a
  | .error _ => []

mutual

/-- What evaluation applies calculations to, in order, up to the first that fails. -/
def applications : Expression → List Application
  | constant _ => []
  | quantity _ => []
  | group inner => inner.applications
  | call f _ args _ => applicationsAll args ++ after (values args) fun xs => [⟨f, xs⟩]
  | chain first rest _ => first.applications ++ after first.value fun x => applicationsFrom x rest

def applicationsAll : List Expression → List Application
  | [] => []
  | e :: es => e.applications ++ after e.value fun _ => applicationsAll es

def applicationsFrom (acc : Float) : List (Operator × Expression) → List Application
  | [] => []
  | (op, e) :: rest => e.applications ++ after e.value fun y =>
    ⟨op.calculation, [acc, y]⟩ :: after (op.apply acc y) fun z => applicationsFrom z rest

end

section Failure

/-- One of the applications fails with the error. -/
def Fails (as : List Application) (err : SyntaxError) : Prop :=
  ∃ a ∈ as, a.result = .error err

variable {err : SyntaxError} {α : Type}

theorem not_fails_nil : ¬ Fails [] err := by
  simp [Fails]

theorem fails_append {as bs : List Application} : Fails (as ++ bs) err ↔ Fails as err ∨ Fails bs err := by
  simp only [Fails, List.mem_append, or_and_right, exists_or]

theorem fails_cons {a : Application} {as : List Application} :
    Fails (a :: as) err ↔ a.result = .error err ∨ Fails as err := by
  simp [Fails]

theorem fails_after {x : Except SyntaxError α} {next : α → List Application} :
    Fails (after x next) err ↔ ∃ a, x = .ok a ∧ Fails (next a) err := by
  cases x <;> simp [after, not_fails_nil]

mutual

theorem value_eq_error_iff : (e : Expression) → (e.value = .error err ↔ Fails e.applications err)
  | constant _ => by simp [value, applications, not_fails_nil]
  | quantity _ => by simp [value, applications, not_fails_nil]
  | group inner => by rw [value, applications, value_eq_error_iff inner]
  | call f _ args _ => by
    rw [value, applications, bind_eq_error, values_eq_error_iff args, fails_append, fails_after]
    simp only [bind_eq_error, pure_eq_ok, reduceCtorEq, and_false, exists_false, or_false,
      fails_cons, not_fails_nil, Application.result]
  | chain first rest _ => by
    rw [value, applications, bind_eq_error, value_eq_error_iff first, fails_append, fails_after]
    simp only [valueFrom_eq_error_iff _ rest]

theorem values_eq_error_iff : (es : List Expression) →
    (values es = .error err ↔ Fails (applicationsAll es) err)
  | [] => by simp [values, applicationsAll, not_fails_nil]
  | e :: es => by
    rw [values, applicationsAll, bind_eq_error, value_eq_error_iff e, fails_append, fails_after]
    simp only [bind_eq_error, pure_eq_ok, reduceCtorEq, and_false, exists_false, or_false,
      values_eq_error_iff es]

theorem valueFrom_eq_error_iff (acc : Float) : (rest : List (Operator × Expression)) →
    (valueFrom acc rest = .error err ↔ Fails (applicationsFrom acc rest) err)
  | [] => by simp [valueFrom, applicationsFrom, not_fails_nil]
  | (op, e) :: rest => by
    rw [valueFrom, applicationsFrom, bind_eq_error, value_eq_error_iff e, fails_append, fails_after]
    simp only [bind_eq_error, fails_cons, fails_after, valueFrom_eq_error_iff _ rest,
      Application.result, Operator.apply]

end

end Failure

end Expression

end Reckoner
