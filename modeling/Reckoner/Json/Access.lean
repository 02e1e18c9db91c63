import Reckoner.Decimal.Whole
import Reckoner.Json.Basic
import Reckoner.SyntaxError

/-!
# Typed access to JSON values

An entry is looked up first and then taken as a value of one sort; each step has its own error. A
number taken as an integer loses its fraction, and must then be a signed number of the width asked
for.
-/

namespace Reckoner

/-- Why a JSON value does not hold what is asked of it. -/
inductive JsonError where
  /-- The object has no such key. -/
  | missingKey (key : String)
  /-- The array ends before the index. -/
  | indexOutOfRange (index length : Nat)
  /-- The value is of another sort. -/
  | wrongType (place : String) (expected found : Json.Kind)
  /-- The number does not fit the type asked for. -/
  | numberOutOfRange (place : String) (target : String)
  /-- The document itself is malformed. -/
  | malformed (e : SyntaxError)
  deriving DecidableEq, Repr

namespace JsonError

/-- The wording of the error. -/
def message : JsonError → String
  | missingKey key => s!"no entry for key '{key}'"
  | indexOutOfRange index length => s!"index {index} out of range for array of length {length}"
  | wrongType place expected found =>
    let expected := expected.describe
    let found := found.describe
    s!"value at '{place}' is {found}, expected {expected}"
  | numberOutOfRange place target => s!"number at '{place}' does not fit in {target}"
  | malformed e => e.message

end JsonError

namespace Json

/-- The member under `key`. -/
def member (ms : Members Json) (key : String) : Except JsonError Json :=
  match ms.get? key with
  | some v => .ok v
  | none => .error (.missingKey key)

/-- The item at `index`. -/
def item (items : List Json) (index : Nat) : Except JsonError Json :=
  match items[index]? with
  | some v => .ok v
  | none => .error (.indexOutOfRange index items.length)

/-- Replaces the item at an index that exists; also gives the old one. -/
def setItem (items : List Json) (index : Nat) (v : Json) : Except JsonError (Json × List Json) := do
  let old ← item items index
  return (old, items.set index v)

/-- Removes the item at an index; also gives it. -/
def removeItem (items : List Json) (index : Nat) : Except JsonError (Json × List Json) := do
  let old ← item items index
  return (old, items.eraseIdx index)

/-- Takes the value found at `place` as one of a sort. -/
def expect {α : Type} (place : String) (expected : Kind) (convert : Json → Option α) (v : Json) :
    Except JsonError α :=
  match convert v with
  | some a => .ok a
  | none => .error (.wrongType place expected v.kind)

def objectAt (place : String) (v : Json) : Except JsonError (Members Json) :=
  v.expect place .object asObject?

def arrayAt (place : String) (v : Json) : Except JsonError (List Json) :=
  v.expect place .array asArray?

def numberAt (place : String) (v : Json) : Except JsonError Float :=
  v.expect place .number asNumber?

def booleanAt (place : String) (v : Json) : Except JsonError Bool :=
  v.expect place .boolean asBoolean?

def stringAt (place : String) (v : Json) : Except JsonError String :=
  v.expect place .string asString?

/-- The number in single precision, infinite where that has no number so large. -/
def singleAt (place : String) (v : Json) : Except JsonError Float32 :=
  (v.numberAt place).map Float.toFloat32

/-- The number as a signed integer of `bits` bits, its fraction dropped. -/
def integerAt (bits : Nat) (place : String) (v : Json) : Except JsonError Int := do
  let n ← v.numberAt place
  match truncateTo? bits n with
  | some i => return i
  | none => throw (.numberOutOfRange place ("i" ++ toString bits))

end Json

end Reckoner
