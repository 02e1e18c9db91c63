import Reckoner.Json.Members

/-!
# JSON values

Objects keep their members ascending by key. Equality is that of the numbers inside: what is not a
number differs from itself, and the two zeros are equal.
-/

namespace Reckoner

/-- A JSON value. -/
inductive Json where
  | object (members : List (String × Json))
  | array (items : List Json)
  | number (n : Float)
  | boolean (b : Bool)
  | string (s : String)
  | null

namespace Json

/-- The sorts of JSON values. -/
inductive Kind where
  | object
  | array
  | number
  | boolean
  | string
  | null
  deriving DecidableEq, Repr

namespace Kind

/-- The sort in words. -/
def describe : Kind → String
  | object => "an object"
  | array => "an array"
  | number => "a number"
  | boolean => "a boolean"
  | string => "a string"
  | null => "null"

end Kind

/-- The sort of a value. -/
def kind : Json → Kind
  | object _ => .object
  | array _ => .array
  | number _ => .number
  | boolean _ => .boolean
  | string _ => .string
  | null => .null

/-- Whether the value is an explicit null. -/
def isNull : Json → Bool
  | null => true
  | _ => false

def asObject? : Json → Option (Members Json)
  | object ms => some ms
  | _ => none

def asArray? : Json → Option (List Json)
  | array items => some items
  | _ => none

def asNumber? : Json → Option Float
  | number n => some n
  | _ => none

def asBoolean? : Json → Option Bool
  | boolean b => some b
  | _ => none

def asString? : Json → Option String
  | string s => some s
  | _ => none

mutual

/-- Whether two values are equal. -/
def equals : Json → Json → Bool
  | object a, object b => equalMembers a b
  | array a, array b => equalItems a b
  | number a, number b => a == b
  | boolean a, boolean b => a == b
  | string a, string b => a == b
  | null, null => true
  | _, _ => false

/-- Whether two lists of members are equal, entry by entry. -/
def equalMembers : List (String × Json) → List (String × Json) → Bool
  | [], [] => true
  | (k, v) :: a, (l, w) :: b => k == l && equals v w && equalMembers a b
  | _, _ => false

/-- Whether two lists of items are equal, item by item. -/
def equalItems : List Json → List Json → Bool
  | [], [] => true
  | v :: a, w :: b => equals v w && equalItems a b
  | _, _ => false

end

instance : BEq Json := ⟨equals⟩

end Json

end Reckoner
