import Reckoner.Grade.Formula
import Reckoner.Proofs.Literal.Alike

/-!
# Formulas of one text in two cursors

A number may be read where a term starts, and behind a star, a slash, a plus sign and either
parenthesis (`opensFactor`). Reading a formula agrees over two cursors that are alike there.
-/

namespace Reckoner

open Text Cursor

namespace Term

/-- Whether a factor may follow the character. -/
def opensFactor (x : Char) : Bool :=
  x = '*' || x = '/' || x = '+' || x = '(' || x = ')'

theorem agrees_readFactor {c d : Cursor} (h : Alike opensFactor (.outside true) c d) :
    Agrees opensFactor (readFactor c).pair (readFactor d).pair := by
  have hread := Literal.agrees_readPlain h
  refine ⟨⟨congrArg (Except.mapError _) hread.result_eq, hread.remaining_eq⟩, fun n hn => ?_⟩
  have hn : (Literal.readPlain c).1.mapError GradeError.malformed = .ok n := hn
  cases hr : (Literal.readPlain c).1 with
  | error e =>
    rw [hr] at hn
    cases hn
  | ok n => exact hread.alike n hr

theorem agrees_readMultipliers {c d : Cursor} {acc : Option Float}
    (h : Alike opensFactor (.outside false) c d) :
    Agrees opensFactor (readMultipliers acc c).pair (readMultipliers acc d).pair := by
  rw [readMultipliers, readMultipliers]
  refine .onNext rfl h (fun c₁ d₁ hc hd h => ?_) fun _ _ _ _ h => .ok h _
  exact .andThen (agrees_readFactor h) fun n c₂ d₂ hc₂ hd₂ h => agrees_readMultipliers h
  termination_by c.size
  decreasing_by exact Nat.lt_of_le_of_lt hc₂ hc

theorem agrees_readDivisor {c d : Cursor} {t : Term}
    (h : Alike opensFactor (.outside false) c d) :
    Agrees opensFactor (readDivisor t c).pair (readDivisor t d).pair := by
  rw [readDivisor, readDivisor]
  refine .onNext rfl h (fun c₁ d₁ hc hd h => ?_) fun _ _ _ _ h => .ok h _
  refine .andThen (agrees_readFactor h) fun n c₂ d₂ hc₂ hd₂ h => ?_
  match n with
  | none => exact .ok h _
  | some n => exact ⟨⟨rfl, h.remaining_eq⟩, fun _ _ => h⟩

theorem agrees_finish {c d : Cursor} {multiplier : Option Float} {t : Except GradeError Term}
    (h : Alike opensFactor (.outside false) c d) :
    Agrees opensFactor (finish multiplier t c).pair (finish multiplier t d).pair := by
  rw [finish, finish]
  split
  · exact .error h _
  · exact agrees_readDivisor h

mutual

theorem agrees_readTerm {c d : Cursor} (h : Alike opensFactor (.outside true) c d) :
    Agrees opensFactor (readTerm c).pair (readTerm d).pair := by
  rw [readTerm, readTerm]
  refine .andThen (agrees_readFactor h) fun n c₁ d₁ hc hd h => ?_
  refine .andThen (agrees_readMultipliers h) fun multiplier c₂ d₂ hc₂ hd₂ h => ?_
  refine .onNext rfl h (fun c₃ d₃ hc₃ hd₃ h => agrees_readGroup h) fun c₃ d₃ _ _ h => ?_
  refine .afterBlanks h fun c₄ d₄ _ _ h => ?_
  refine .andThen (.name h) fun name c₅ d₅ _ _ h => ?_
  match name with
  | none => exact .error h _
  | some name => exact agrees_finish h
  termination_by (c.size, 0)
  decreasing_by exact .left _ _ (Nat.lt_of_lt_of_le hc₃ (Nat.le_trans hc₂ hc))

theorem agrees_readGroup {c d : Cursor} {multiplier : Option Float}
    (h : Alike opensFactor (.outside true) c d) :
    Agrees opensFactor (readGroup multiplier c).pair (readGroup multiplier d).pair := by
  rw [readGroup, readGroup]
  refine .andThen (agrees_readMembers h) fun members c₁ d₁ _ _ h => ?_
  refine .require rfl h fun c₂ d₂ _ _ h => ?_
  exact .andThen (agrees_readFactor h) fun n c₃ d₃ _ _ h => agrees_finish h
  termination_by (c.size, 2)
  decreasing_by exact .right' _ (Nat.le_refl _) (by decide)

theorem agrees_readMembers {c d : Cursor} (h : Alike opensFactor (.outside true) c d) :
    Agrees opensFactor (readMembers c).pair (readMembers d).pair := by
  rw [readMembers, readMembers]
  refine .andThen (agrees_readTerm h) fun t c₁ d₁ hc hd h => ?_
  exact .onNext rfl h (fun c₂ d₂ hc₂ _ h => .map (agrees_readMembers h) _) fun _ _ _ _ h => .ok h _
  termination_by (c.size, 1)
  decreasing_by
    · exact .right' _ (Nat.le_refl _) (by decide)
    · exact .left _ _ (Nat.lt_of_lt_of_le hc₂ hc)

end

end Term

open Term

/-- A formula is read alike. -/
theorem Calculator.matches_read {ν : Type} {c d : Cursor}
    (h : Alike opensFactor (.outside true) c d) :
    Matches (Calculator.read c : Except GradeError (Calculator ν) × Cursor) (Calculator.read d) := by
  have hread := agrees_readTerm h
  exact ⟨congrArg (Except.bind · toCalculator) hread.result_eq, hread.remaining_eq⟩

end Reckoner
