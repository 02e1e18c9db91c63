import Reckoner.Grade.Formula
import Reckoner.Proofs.Literal.Termination

/-!
# Every rule for formulas comes to an end

The stars in front of a term need not have a number behind them, so their loop counts the stars: each is
passed (`Term.reaches_readMultipliers`). A term is read with its name or with its parentheses, whatever
stands around it, and so uses something up (`Term.consumes_readTerm`).
-/

namespace Reckoner

open Cursor Limited

namespace Term

def readFactorWithin (n : ℕ) : Limited GradeError (Option Float) :=
  ExceptT.adapt .malformed (Literal.readPlainWithin n)

def readMultipliersWithin (acc : Option Float) : ℕ → Limited GradeError (Option Float)
  | 0 => exhausted
  | n + 1 => do
    if ← isNext '*' n then
      let m ← readFactorWithin n
      readMultipliersWithin (product acc m) n
    else return acc

def readDivisorWithin (t : Term) (n : ℕ) : Limited GradeError Term := do
  if ← isNext '/' n then
    let divisor ← readFactorWithin n
    match divisor with
    | none => return t
    | some d => MonadExcept.ofExcept ((factor d).bind t.divide)
  else return t

def finishWithin (multiplier : Option Float) (t : Except GradeError Term) (n : ℕ) :
    Limited GradeError Term :=
  match t.bind (scaleBy multiplier) with
  | .error e => throw e
  | .ok t => readDivisorWithin t n

mutual

def readTermWithin : ℕ → Limited GradeError Term
  | 0 => exhausted
  | n + 1 => do
    let m ← readFactorWithin n
    let multiplier ← readMultipliersWithin m n
    if ← isNext '(' n then readGroupWithin multiplier n
    else
      skipBlanks n
      let name ← Limited.name n
      match name with
      | none => throw .missingVariable
      | some name => finishWithin multiplier (.ok (grade name .one)) n

def readGroupWithin (multiplier : Option Float) : ℕ → Limited GradeError Term
  | 0 => exhausted
  | n + 1 => do
    let members ← readMembersWithin n
    require ')' (.malformed (.expectedChar ')')) n
    let m ← readFactorWithin n
    finishWithin (product multiplier m) (ofMembers members) n

def readMembersWithin : ℕ → Limited GradeError (List Term)
  | 0 => exhausted
  | n + 1 => do
    let t ← readTermWithin n
    if ← isNext '+' n then
      let ts ← readMembersWithin n
      return t :: ts
    else return [t]

end

theorem reaches_readFactor {c : Cursor} {n : ℕ} (hn : c.size < n) :
    Reaches (readFactorWithin n) c (readFactor c).pair :=
  (Literal.reaches_readPlain hn).adapt _

theorem reaches_readMultipliers {acc : Option Float} {c : Cursor} {n : ℕ} (hn : c.size + 1 < n) :
    Reaches (readMultipliersWithin acc n) c (readMultipliers acc c).pair := by
  induction n generalizing acc c with
  | zero => exact absurd hn (Nat.not_lt_zero _)
  | succ n ih =>
    rw [readMultipliersWithin, readMultipliers]
    refine reaches_onNext (by omega) (fun c₁ h₁ => ?_) fun c₁ _ => reaches_pure acc c₁
    exact .andThen (reaches_readFactor (by omega)) fun m c₂ h₂ => ih (by omega)

theorem reaches_readDivisor {t : Term} {c : Cursor} {n : ℕ} (hn : c.size < n) :
    Reaches (readDivisorWithin t n) c (readDivisor t c).pair := by
  unfold readDivisorWithin readDivisor
  refine reaches_onNext hn (fun c₁ h₁ => ?_) fun c₁ _ => reaches_pure t c₁
  refine .andThen (reaches_readFactor (by omega)) fun divisor c₂ _ => ?_
  match divisor with
  | none => exact reaches_pure t c₂
  | some d => exact reaches_ofExcept _ c₂

theorem reaches_finish {multiplier : Option Float} {t : Except GradeError Term} {c : Cursor} {n : ℕ}
    (hn : c.size < n) : Reaches (finishWithin multiplier t n) c (finish multiplier t c).pair := by
  unfold finishWithin finish
  rcases t.bind (scaleBy multiplier) with _ | t
  · exact reaches_throw _ c
  · exact reaches_readDivisor hn

mutual

theorem reaches_readTerm {c : Cursor} : ∀ {n : ℕ}, 3 * c.size + 2 < n →
    Reaches (readTermWithin n) c (readTerm c).pair
  | 0, hn => absurd hn (Nat.not_lt_zero _)
  | n + 1, hn => by
    rw [readTermWithin, readTerm]
    refine .andThen (reaches_readFactor (by omega)) fun m c₁ h₁ => ?_
    refine .andThen (reaches_readMultipliers (by omega)) fun multiplier c₂ h₂ => ?_
    refine reaches_onNext (by omega) (fun c₃ h₃ => reaches_readGroup (by omega)) fun c₃ h₃ => ?_
    refine reaches_afterBlanks (by omega) fun c₄ h₄ => ?_
    refine .andThen (reaches_name (by omega)) fun name c₅ h₅ => ?_
    match name with
    | none => exact reaches_throw _ c₅
    | some name => exact reaches_finish (by omega)

theorem reaches_readGroup {multiplier : Option Float} {c : Cursor} : ∀ {n : ℕ},
    3 * c.size + 4 < n → Reaches (readGroupWithin multiplier n) c (readGroup multiplier c).pair
  | 0, hn => absurd hn (Nat.not_lt_zero _)
  | n + 1, hn => by
    rw [readGroupWithin, readGroup]
    refine .andThen (reaches_readMembers (by omega)) fun members c₁ h₁ => ?_
    refine reaches_require (by omega) fun c₂ h₂ => ?_
    exact .andThen (reaches_readFactor (by omega)) fun m c₃ h₃ => reaches_finish (by omega)

theorem reaches_readMembers {c : Cursor} : ∀ {n : ℕ}, 3 * c.size + 3 < n →
    Reaches (readMembersWithin n) c (readMembers c).pair
  | 0, hn => absurd hn (Nat.not_lt_zero _)
  | n + 1, hn => by
    rw [readMembersWithin, readMembers]
    refine .andThen (reaches_readTerm (by omega)) fun t c₁ h₁ => ?_
    exact reaches_onNext (by omega) (fun c₂ h₂ => .map (reaches_readMembers (by omega)) (t :: ·))
      fun c₂ _ => reaches_pure [t] c₂

end

theorem consumes_readFactor (c : Cursor) : Consumes c Option.isSome (readFactor c).pair :=
  (Literal.consumes_readNumber false c).mapError _

/-- There may be no stars at all. -/
theorem consumes_readMultipliers {acc : Option Float} (c : Cursor) :
    Consumes c (fun _ => false) (readMultipliers acc c).pair := by
  rw [readMultipliers]
  refine .onNext (fun c₁ hc₁ h₁ => ?_) fun c₁ _ h₁ => .ok h₁ fun h => by cases h
  exact .andThen (Nat.le_of_lt h₁) (consumes_readFactor c₁) fun m c₂ hc₂ h₂ _ =>
    (consumes_readMultipliers c₂).of_lt (Nat.lt_of_le_of_lt h₂ h₁)
  termination_by c.size
  decreasing_by exact Nat.lt_of_le_of_lt hc₂ hc₁

theorem consumes_readDivisor {t : Term} (c : Cursor) :
    Consumes c (fun _ => false) (readDivisor t c).pair := by
  rw [readDivisor]
  refine .onNext (fun c₁ _ h₁ => ?_) fun c₁ _ h₁ => .ok h₁ fun h => by cases h
  refine .andThen (Nat.le_of_lt h₁) (consumes_readFactor c₁) fun divisor c₂ _ h₂ _ => ?_
  match divisor with
  | none => exact .done (by omega) _
  | some d => exact ⟨by dsimp only [Step.ofPair, Step.pair]; omega, fun _ _ h => by cases h⟩

theorem consumes_finish {multiplier : Option Float} {t : Except GradeError Term} (c : Cursor) :
    Consumes c (fun _ => false) (finish multiplier t c).pair := by
  rw [finish]
  split
  · exact .fail (Nat.le_refl _) _
  · exact consumes_readDivisor c

mutual

theorem consumes_readTerm (c : Cursor) : Consumes c (fun _ => true) (readTerm c).pair := by
  rw [readTerm]
  refine .andThen (Nat.le_refl _) (consumes_readFactor c) fun m c₁ hc₁ h₁ _ => ?_
  refine .andThen h₁ (consumes_readMultipliers c₁) fun multiplier c₂ hc₂ h₂ _ => ?_
  refine .onNext (fun c₃ hc₃ h₃ => (consumes_readGroup c₃).of_lt (by omega)) fun c₃ _ h₃ => ?_
  refine .afterBlanks fun c₄ _ h₄ => ?_
  refine .andThen (by omega) (consumes_name c₄) fun name c₅ _ h₅ hname => ?_
  match name with
  | none => exact .fail (by omega) _
  | some name =>
    have h₅ := hname rfl
    exact (consumes_finish c₅).of_lt (by omega)
  termination_by (c.size, 0)
  decreasing_by exact .left _ _ (Nat.lt_of_lt_of_le hc₃ (Nat.le_trans hc₂ hc₁))

theorem consumes_readGroup {multiplier : Option Float} (c : Cursor) :
    Consumes c (fun _ => true) (readGroup multiplier c).pair := by
  rw [readGroup]
  refine .andThen (Nat.le_refl _) (consumes_readMembers c) fun members c₁ _ h₁ _ => ?_
  refine .require h₁ fun c₂ _ h₂ => ?_
  exact .andThen (by omega) (consumes_readFactor c₂) fun m c₃ _ h₃ _ =>
    (consumes_finish c₃).of_lt (by omega)
  termination_by (c.size, 2)
  decreasing_by exact .right' _ (Nat.le_refl _) (by decide)

theorem consumes_readMembers (c : Cursor) : Consumes c (fun _ => true) (readMembers c).pair := by
  rw [readMembers]
  refine .andThen (Nat.le_refl _) (consumes_readTerm c) fun t c₁ hc₁ _ ht => ?_
  have h₁ := ht rfl
  exact .onNext (fun c₂ hc₂ h₂ => .map ((consumes_readMembers c₂).of_lt (by omega)))
    fun c₂ _ h₂ => .done (by omega) _
  termination_by (c.size, 1)
  decreasing_by
    · exact .right' _ (Nat.le_refl _) (by decide)
    · exact .left _ _ (Nat.lt_of_lt_of_le hc₂ hc₁)

end

end Term

namespace Calculator

variable {ν : Type}

def readWithin (n : ℕ) : Limited GradeError (Calculator ν) := do
  let t ← Term.readTermWithin n
  MonadExcept.ofExcept t.toCalculator

theorem reaches_read {c : Cursor} {n : ℕ} (hn : 3 * c.size + 2 < n) :
    Reaches (readWithin n) c (read c : Except GradeError (Calculator ν) × Cursor) := by
  have hterm := Term.reaches_readTerm hn
  unfold readWithin read
  rcases hr : (Term.readTerm c).pair with ⟨_ | t, d⟩ <;> rw [hr] at hterm
  · exact hterm.bind_error
  · exact .bind hterm (reaches_ofExcept _ d)

theorem consumes_read (c : Cursor) :
    Consumes c (fun _ => true) (read c : Except GradeError (Calculator ν) × Cursor) := by
  have hterm := Term.consumes_readTerm c
  unfold read
  rcases hr : (Term.readTerm c).pair with ⟨e | t, d⟩ <;> rw [hr] at hterm
  · exact .error hterm.length_le e
  · have hlt := hterm.length_lt t rfl rfl
    exact ⟨Nat.le_of_lt hlt, fun _ _ _ => hlt⟩

end Calculator

end Reckoner
