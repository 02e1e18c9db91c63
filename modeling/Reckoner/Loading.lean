import Reckoner.Expression.Grammar
import Reckoner.Json.Grammar
import Reckoner.Source.Resolver

/-!
# Loading by location

Cursors, expressions and documents read from what a resolver opens. An expression must be all that
is there; a document may be followed by anything.
-/

namespace Reckoner

variable {υ : Type} [Url υ]

/-- A cursor at the start of what the text names. -/
def Cursor.load (r : Resolver υ) (text : String) : Except InputError Cursor :=
  (r.resolve text).map Cursor.ofSource

/-- The expression that the text names. -/
def Expression.load (r : Resolver υ) (registry : Registry) (text : String) :
    Except InputError Expression := do
  let c ← Cursor.load r text
  (readWhole { registry } c).mapError .malformed

/-- The document that the text names. -/
def Json.load (r : Resolver υ) (text : String) : Except InputError Json := do
  let c ← Cursor.load r text
  match (readDocument c).1 with
  | .error e => throw (.malformed e)
  | .ok none => throw (.notADocument text)
  | .ok (some v) => return v

end Reckoner
