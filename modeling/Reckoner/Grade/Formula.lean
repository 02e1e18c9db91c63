import Reckoner.Cursor.Step
import Reckoner.Grade.Term
import Reckoner.Literal.Basic

/-!
# Formulas

    term := [number] ('*' [number])* (name | '(' term ('+' term)* ')' [number]) ['/' [number]]

The numbers around a term, divisor apart, are multiplied before they are used. They must come to a
whole number, and so must the divisor. The formula as a whole must account for all of the average.
-/

namespace Reckoner

namespace Term

/-- A number, if one stands here. -/
def readFactor (c : Cursor) : Step GradeError (Option Float) c :=
  .ofPair ((Literal.readPlain c).1.mapError .malformed, (Literal.readPlain c).2)
    (Literal.size_readPlain_le c)

/-- The product of what has been multiplied so far and one more number, if there is one. -/
def product (acc n : Option Float) : Option Float :=
  match acc, n with
  | some m, some n => some (m * n)
  | none, some n => some n
  | acc, none => acc

/-- The stars in front of a term, each with a number after it or not. -/
def readMultipliers (acc : Option Float) (c : Cursor) : Step GradeError (Option Float) c :=
  .onNext '*' c
    (fun c₁ _h₁ => (readFactor c₁).andThen fun n c₂ _h₂ => readMultipliers (product acc n) c₂)
    fun c₁ _ => .done acc c₁
  termination_by c.size
  decreasing_by exact Nat.lt_of_le_of_lt _h₂ _h₁

/-- Scales a term by what stood around it, if anything did. -/
def scaleBy (multiplier : Option Float) (t : Term) : Except GradeError Term :=
  match multiplier with
  | none => .ok t
  | some m => do t.multiply (← factor m)

/-- The divisor after a term. -/
def readDivisor (t : Term) (c : Cursor) : Step GradeError Term c :=
  .onNext '/' c
    (fun c₁ _ => (readFactor c₁).andThen fun d c₂ _ =>
      match d with
      | none => .done t c₂
      | some d => .ofPair ((factor d).bind t.divide, c₂) (Nat.le_refl _))
    fun c₁ _ => .done t c₁

/-- Ends a term: what it is, scaled by the numbers before it and divided by the one after it. -/
def finish (multiplier : Option Float) (t : Except GradeError Term) (c : Cursor) :
    Step GradeError Term c :=
  match t.bind (scaleBy multiplier) with
  | .error e => .fail e c
  | .ok t => readDivisor t c

mutual

/-- A term with the numbers around it. -/
def readTerm (c : Cursor) : Step GradeError Term c :=
  (readFactor c).andThen fun n c₁ _h₁ =>
    (readMultipliers n c₁).andThen fun multiplier c₂ _h₂ =>
      .onNext '(' c₂ (fun c₃ _h₃ => readGroup multiplier c₃) fun c₃ _ =>
        .afterBlanks c₃ fun c₄ _ =>
          (Step.name c₄).andThen fun name c₅ _ =>
            match name with
            | none => .fail .missingVariable c₅
            | some name => finish multiplier (.ok (grade name .one)) c₅
  termination_by (c.size, 0)
  decreasing_by exact .left _ _ (Nat.lt_of_lt_of_le _h₃ (Nat.le_trans _h₂ _h₁))

/-- The rest of a group whose opening parenthesis has been read. -/
def readGroup (multiplier : Option Float) (c : Cursor) : Step GradeError Term c :=
  (readMembers c).andThen fun members c₁ _ =>
    .require ')' c₁ (.malformed (.expectedChar ')')) fun c₂ _ =>
      (readFactor c₂).andThen fun n c₃ _ =>
        finish (product multiplier n) (ofMembers members) c₃
  termination_by (c.size, 2)
  decreasing_by exact .right' _ (Nat.le_refl _) (by decide)

/-- One or more terms with plus signs between them. -/
def readMembers (c : Cursor) : Step GradeError (List Term) c :=
  (readTerm c).andThen fun t c₁ _h₁ =>
    .onNext '+' c₁ (fun c₂ _h₂ => (readMembers c₂).map (t :: ·)) fun c₂ _ => .done [t] c₂
  termination_by (c.size, 1)
  decreasing_by
    · exact .right' _ (Nat.le_refl _) (by decide)
    · exact .left _ _ (Nat.lt_of_lt_of_le _h₂ _h₁)

end

end Term

/-- A formula that defines a calculator. -/
structure Formula where
  text : String
  calculator : Calculator Float

/-- Reads one formula and makes its calculator; what follows it stays. -/
def Calculator.read {ν : Type} (c : Cursor) : Except GradeError (Calculator ν) × Cursor :=
  let (r, rest) := (Term.readTerm c).pair
  (r.bind Term.toCalculator, rest)

namespace Formula

/-- Reads a text that is one formula. -/
def parse (text : String) : Except GradeError Formula :=
  match Calculator.read (Cursor.ofString text) with
  | (.error e, _) => .error e
  | (.ok calculator, rest) =>
    match rest.skipBlanks.peek with
    | some x => .error (.malformed (.unexpectedCharacter x))
    | none => .ok ⟨text, calculator⟩

end Formula

end Reckoner
