import Reckoner.Proofs.Cursor.Refinement
import Reckoner.Proofs.Expression.Alike
import Reckoner.Proofs.Grade.Alike
import Reckoner.Proofs.Json.Alike
import Reckoner.Proofs.Literal.Unparsed

/-!
# One text, however it is split

Two states of a cursor may have the same text before them, one with more of it in the queue than the
other. A text between quotes and a truth value are read from both alike. The number rule hands back
behind the queue, so anything in which a number may be read is the same from both as long as the states
are interchangeable where the grammar may read one (`matches_of_remaining_eq`).
-/

namespace Reckoner

open Text Cursor Expression Json Term

/-- Over the same text each reading gives the same result and leaves the same text, errors included: a
text and a truth value always, and all others if the queues are equal or, wherever the grammar in
question may read a number, no signs and points without a digit stand in front of more that waits in the
queue. -/
theorem matches_of_remaining_eq {c d : Cursor} (hc : c.Reachable) (hd : d.Reachable)
    (h : c.remaining = d.remaining) :
    Matches (Literal.readString c) (Literal.readString d) ∧
    Matches (Literal.readBoolean c) (Literal.readBoolean d) ∧
    (Interchangeable (fun _ => false) (.outside true) c d →
      Matches (Literal.readNumber false c) (Literal.readNumber false d)) ∧
    (Interchangeable isMark (.outside true) c d →
      Matches (Literal.readNumber true c) (Literal.readNumber true d) ∧
      Matches (Literal.readValue c) (Literal.readValue d)) ∧
    (Interchangeable opensNumber (.outside false) c d →
      Matches (readDocument c) (readDocument d)) ∧
    (Interchangeable opensOperand (.outside true) c d → ∀ settings,
      Matches (Expression.read settings c) (Expression.read settings d)) ∧
    (Interchangeable opensFactor (.outside true) c d → ∀ ν : Type,
      Matches (Calculator.read c : Except GradeError (Calculator ν) × Cursor) (Calculator.read d)) := by
  have alike : ∀ {opens place}, Interchangeable opens place c d → Alike opens place c d :=
    fun hsplit => ⟨hc.primed, hd.primed, h, hsplit⟩
  have anyway : Alike (fun _ => false) (.outside false) c d :=
    alike (.inr ⟨.never (by simp), .never (by simp)⟩)
  refine ⟨(Literal.agrees_readString anyway).toMatches,
    (Literal.agrees_readBoolean anyway).toMatches, fun hsplit => ?_, fun hsplit => ⟨?_, ?_⟩,
    fun hsplit => ?_, fun hsplit settings => ?_, fun hsplit ν => ?_⟩
  · exact (Literal.agrees_readPlain (alike hsplit)).toMatches
  · exact (Literal.agrees_readNumber (fun _ _ hx => hx) (alike hsplit)).toMatches
  · exact (Literal.agrees_readValue (fun _ hx => hx) (alike hsplit)).toMatches
  · exact (agrees_readDocument (alike hsplit)).toMatches
  · exact (agrees_readTier (alike hsplit)).toMatches
  · exact Calculator.matches_read (alike hsplit)

/-- A number of which the source still holds the digit, and a document with a loose sign between its
quotes. -/
theorem matches_of_remaining_eq_cut :
    (∀ settings, Matches (Expression.read settings ((ofList ['1', '+', 'x']).inject ['-']))
      (Expression.read settings ((ofList ['x']).inject ['-', '1', '+']))) ∧
    Matches (readDocument ((ofList ['"', ']']).inject ['[', '"', ',', '-', 'b']))
      (readDocument (ofList ['[', '"', ',', '-', 'b', '"', ']'])) := by
  constructor
  · exact (matches_of_remaining_eq ((reachable_ofList _).inject _) ((reachable_ofList _).inject _)
      (by decide)).2.2.2.2.2.1 (by decide)
  · exact (matches_of_remaining_eq ((reachable_ofList _).inject _) (reachable_ofList _)
      (by decide)).2.2.2.2.1 (by decide)

/-- With a letter behind it in the queue a sign is handed back behind the letter; from the source it
stays in front. -/
theorem matches_of_remaining_eq_displaced :
    let c := (ofList []).inject ['-', 'x']
    let d := ofList ['-', 'x']
    c.Reachable ∧ d.Reachable ∧ c.remaining = d.remaining ∧
      ¬ Matches (Literal.readNumber false c) (Literal.readNumber false d) := by
  intro c d
  refine ⟨(reachable_ofList _).inject _, reachable_ofList _, by decide, fun h => ?_⟩
  have hc : Literal.readNumber false c = (.ok none, (ofList []).inject ['x', '-']) :=
    Literal.readPlain_displaced
  have hd : Literal.readNumber false d = (.ok none, (ofList ['x']).inject ['-']) :=
    Literal.readPlain_sign (skipBlanks_ofList _) rfl fun _ hx => by cases hx; rfl
  have hrest := h.remaining_eq
  rw [hc, hd] at hrest
  exact absurd hrest (by decide)

end Reckoner
