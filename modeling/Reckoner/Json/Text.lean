import Reckoner.Decimal.Shortest
import Reckoner.Json.Basic

/-!
# JSON as text

The text of a value, compact or indented by one tab for each level. Members follow each other as
they are kept; a number that is not finite has no JSON form and is written as null; strings are
written as they are stored, escapes included.
-/

namespace Reckoner

namespace Json

/-- A string between double quotes. -/
def quoted (s : String) : List Char :=
  '"' :: s.toList ++ ['"']

/-- The start of a new line at the given depth, if lines are used at all. -/
def lineBreak (indent : Bool) (depth : Nat) : List Char :=
  if indent then '\n' :: List.replicate depth '\t' else []

/-- What stands between a key and its value. -/
def colon (indent : Bool) : List Char :=
  if indent then [':', ' '] else [':']

/-- The text of a number. -/
def numberChars (n : Float) : List Char :=
  if n.isFinite then (Decimal.text n).toList else "null".toList

mutual

/-- The text of a value whose first line stands at the given depth. -/
def chars (indent : Bool) (depth : Nat) : Json → List Char
  | object [] => ['\x7b', '\x7d']
  | object (m :: ms) =>
    '\x7b' :: memberChars indent (depth + 1) (m :: ms) ++ lineBreak indent depth ++ ['\x7d']
  | array [] => ['[', ']']
  | array (v :: vs) =>
    '[' :: itemChars indent (depth + 1) (v :: vs) ++ lineBreak indent depth ++ [']']
  | number n => numberChars n
  | boolean b => (toString b).toList
  | string s => quoted s
  | null => "null".toList

/-- The text of members, each on a line of its own, with commas between them. -/
def memberChars (indent : Bool) (depth : Nat) : List (String × Json) → List Char
  | [] => []
  | (k, v) :: rest =>
    lineBreak indent depth ++ quoted k ++ colon indent ++ v.chars indent depth
      ++ (if rest.isEmpty then [] else [',']) ++ memberChars indent depth rest

/-- The text of items, each on a line of its own, with commas between them. -/
def itemChars (indent : Bool) (depth : Nat) : List Json → List Char
  | [] => []
  | v :: rest =>
    lineBreak indent depth ++ v.chars indent depth
      ++ (if rest.isEmpty then [] else [',']) ++ itemChars indent depth rest

end

/-- The value on a single line without blanks. -/
def compact (v : Json) : String :=
  String.ofList (v.chars false 0)

/-- The value with every entry on a line of its own. -/
def pretty (v : Json) : String :=
  String.ofList (v.chars true 0)

end Json

end Reckoner
