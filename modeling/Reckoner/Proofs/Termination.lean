import Reckoner.Proofs.Expression.Termination
import Reckoner.Proofs.Grade.Termination
import Reckoner.Proofs.Json.Termination

/-!
# Reading comes to an end

Whatever the queue holds and whatever the source replies, each rule that a caller may start from
returns, and a value that it returns has cost a character at least (`rules_return_and_advance`). For all
of them it is enough to let turns nest eight deep for each character and reply that remains, and once
more for the end.
-/

namespace Reckoner

/-- From every cursor, `rule` comes to what `read` gives within the limit that the cursor's size sets,
and whatever greater limit; no more characters remain then, and fewer with a value of the kind. -/
structure Terminates {ε α : Type} (rule : ℕ → Limited ε α) (read : Cursor → Except ε α × Cursor)
    (kind : α → Bool) : Prop where
  returns : ∀ c n, 8 * (c.size + 1) ≤ n → (rule n).Reaches c (read c)
  length_le : ∀ c, (read c).2.remaining.length ≤ c.remaining.length
  length_lt : ∀ c a, (read c).1 = .ok a → kind a = true →
    (read c).2.remaining.length < c.remaining.length

theorem Terminates.of_consumes {ε α : Type} {rule : ℕ → Limited ε α}
    {read : Cursor → Except ε α × Cursor} {kind : α → Bool}
    (hreturns : ∀ {c n}, 8 * c.size + 7 < n → (rule n).Reaches c (read c))
    (hconsumes : ∀ c, Consumes c kind (read c)) : Terminates rule read kind where
  returns _ _ hn := hreturns (by omega)
  length_le c := (hconsumes c).length_le
  length_lt c := (hconsumes c).length_lt

/-- Numbers with and without an exponent, texts, truth values, literals, documents, expressions and
formulas are read in finitely many steps, and never for nothing. -/
theorem rules_return_and_advance {ν : Type} (s : Expression.Settings) :
    (∀ exponent, Terminates (Literal.readNumberWithin exponent) (Literal.readNumber exponent)
      Option.isSome) ∧
    Terminates Literal.readStringWithin Literal.readString Option.isSome ∧
    Terminates Literal.readBooleanWithin Literal.readBoolean Option.isSome ∧
    Terminates Literal.readValueWithin Literal.readValue Option.isSome ∧
    Terminates Json.readDocumentWithin Json.readDocument Option.isSome ∧
    Terminates (Expression.readWithin s) (Expression.read s) (fun _ => true) ∧
    Terminates Calculator.readWithin
      (Calculator.read : Cursor → Except GradeError (Calculator ν) × Cursor) (fun _ => true) := by
  refine ⟨fun exponent => ?number, ?string, ?boolean, ?value, ?document, ?expression, ?formula⟩
  case number =>
    exact .of_consumes (fun hn => Literal.reaches_readNumber exponent (by omega))
      (Literal.consumes_readNumber exponent)
  case string =>
    exact .of_consumes (fun hn => Literal.reaches_readString (by omega)) Literal.consumes_readString
  case boolean =>
    exact .of_consumes (fun hn => Literal.reaches_readBoolean (by omega)) Literal.consumes_readBoolean
  case value =>
    exact .of_consumes (fun hn => Literal.reaches_readValue (by omega)) Literal.consumes_readValue
  case document =>
    exact .of_consumes (fun hn => Json.reaches_readDocument (by omega)) Json.consumes_readDocument
  case expression =>
    exact .of_consumes (fun hn => Expression.reaches_read (by omega)) Expression.consumes_read
  case formula =>
    exact .of_consumes (fun hn => Calculator.reaches_read (by omega)) Calculator.consumes_read

end Reckoner
