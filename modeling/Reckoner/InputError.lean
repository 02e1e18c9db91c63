import Reckoner.Cursor.Basic
import Reckoner.SyntaxError

/-!
# Input that cannot be used

What can go wrong before and while an input is read: there is nothing to read from, its location
cannot be opened, or what it holds is malformed or of the wrong sort.
-/

namespace Reckoner

/-- Why an input gives nothing. -/
inductive InputError where
  /-- There is no source to read from. -/
  | absentSource
  /-- Nothing can be opened at the location. -/
  | cannotOpen (location : String)
  /-- The location holds neither an object nor an array. -/
  | notADocument (location : String)
  /-- The input is malformed. -/
  | malformed (e : SyntaxError)
  deriving DecidableEq, Repr

namespace InputError

/-- The wording of the error. -/
def message : InputError → String
  | absentSource => "invalid argument: character source is absent"
  | cannotOpen location => s!"invalid argument: cannot open '{location}'"
  | notADocument location =>
    s!"invalid argument: '{location}' does not hold a JSON object or array"
  | malformed e => e.message

end InputError

/-- A cursor at the start of a source that may be absent. -/
def Cursor.ofSource? : Option Source → Except InputError Cursor
  | none => .error .absentSource
  | some s => .ok (ofSource s)

end Reckoner
