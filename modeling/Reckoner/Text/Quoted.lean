import Reckoner.Text.Glyph

/-!
# Quoted forms

Characters and texts as they appear in diagnostics: between quotes, with the quote itself, the
backslash and every character that a terminal would not show written as an escape.
-/

namespace Reckoner.Text.Quoted

/-- The escape that names a character by its number in base sixteen. -/
def numbered (c : Char) : List Char :=
  ['\\', 'u', '\x7b'] ++ Nat.toDigits 16 c.toNat ++ ['\x7d']

/-- A character as it stands between two `quote`s. -/
def escape (quote c : Char) : List Char :=
  if c = '\x00' then ['\\', '0']
  else if c = '\t' then ['\\', 't']
  else if c = '\n' then ['\\', 'n']
  else if c = '\r' then ['\\', 'r']
  else if c = '\\' || c = quote then ['\\', c]
  else if Glyph.standsAlone c then [c]
  else numbered c

/-- A character between single quotes. -/
def char (c : Char) : String :=
  String.ofList ('\'' :: escape '\'' c ++ ['\''])

/-- A text between double quotes. -/
def text (s : String) : String :=
  String.ofList ('"' :: s.toList.flatMap (escape '"') ++ ['"'])

/-- A list of shown items between brackets. -/
def list (items : List String) : String :=
  "[" ++ ", ".intercalate items ++ "]"

/-- An optional value: its shown form in `Some`, or `None`. -/
def option (item : Option String) : String :=
  match item with
  | some s => "Some(" ++ s ++ ")"
  | none => "None"

end Reckoner.Text.Quoted
