import Reckoner.Cursor.Runs
import Reckoner.Decimal.Reading
import Reckoner.SyntaxError

/-!
# Literals

Texts, numbers and truth values, read off the front of a cursor. Each rule skips blanks and then
gives a literal, nothing if what follows cannot start one, or an error once it is committed to one
that is malformed. What a number rule has taken and cannot use it hands back.
-/

namespace Reckoner

/-- A literal value. -/
inductive Literal where
  /-- What stands between the quotes, escapes included. -/
  | string (s : String)
  | number (n : Float)
  | boolean (b : Bool)

namespace Literal

/-- What stands before the closing quote, and the cursor past it; nothing if the input ends first.
The character after a backslash never closes the text. -/
def content (quote : Char) (escaped : Bool) (c : Cursor) : Option (List Char) × Cursor :=
  match _h : c.peek with
  | none => (none, c.pop.2)
  | some x =>
    if !escaped && x = quote then (some [], c.pop.2)
    else
      let (body, rest) := content quote (!escaped && x = '\\') c.pop.2
      (body.map (x :: ·), rest)
  termination_by c.size
  decreasing_by exact Cursor.size_pop_lt _h

/-- A text between single or double quotes. -/
def readString (c : Cursor) : Except SyntaxError (Option String) × Cursor :=
  let c := c.skipBlanks
  match c.peek with
  | some quote =>
    if quote = '\'' || quote = '"' then
      match content quote false c.pop.2 with
      | (some body, rest) => (.ok (some (String.ofList body)), rest)
      | (none, rest) => (.error .unterminatedString, rest)
    else (.ok none, c)
  | none => (.ok none, c)

/-- Whether `x` continues a number that has begun with `taken`: a digit, a sign at the very front,
or the first point. -/
def continues (taken : List Char) (x : Char) : Bool :=
  x.isDigit || ((x = '+' || x = '-') && taken.isEmpty) || (x = '.' && !taken.contains '.')

/-- Ends a number: without a digit in it, it is none, and is handed back. -/
def settle (taken : List Char) (c : Cursor) : Except SyntaxError (Option Float) × Cursor :=
  if taken.any Char.isDigit then (.ok ((Decimal.readPlain? taken).map Decimal.toFloat), c)
  else (.ok none, c.inject taken)

/-- Reads on in a number without an exponent. -/
def scanPlain (taken : List Char) (c : Cursor) : Except SyntaxError (Option Float) × Cursor :=
  match _h : c.peek with
  | none => settle taken c
  | some x =>
    if continues taken x then scanPlain (taken ++ [x]) c.pop.2
    else if x = '.' then (.error .multipleDecimalPoints, c)
    else settle taken c
  termination_by c.size
  decreasing_by exact Cursor.size_pop_lt _h

/-- A number without an exponent. -/
def readPlain (c : Cursor) : Except SyntaxError (Option Float) × Cursor :=
  scanPlain [] c.skipBlanks

theorem size_settle_le (taken : List Char) (c : Cursor) :
    (settle taken c).2.size ≤ c.size + taken.length := by
  simp only [settle]
  split
  · exact Nat.le_add_right _ _
  · exact Nat.le_of_eq (Cursor.size_inject c taken)

theorem size_scanPlain_le (taken : List Char) (c : Cursor) :
    (scanPlain taken c).2.size ≤ c.size + taken.length := by
  fun_induction scanPlain taken c with
  | case1 => exact size_settle_le _ _
  | case2 taken c x h _ ih =>
    have := Cursor.size_pop_lt h
    simp only [List.length_append, List.length_singleton] at ih
    omega
  | case3 => exact Nat.le_add_right _ _
  | case4 => exact size_settle_le _ _

theorem size_readPlain_le (c : Cursor) : (readPlain c).2.size ≤ c.size :=
  Nat.le_trans (size_scanPlain_le [] c.skipBlanks) (Cursor.size_skipBlanks_le c)

/-- Reads on in a number that may have an exponent. Its mark is consumed in any case; a sign alone
before it stands for one with that sign. -/
def scanScientific (taken : List Char) (c : Cursor) :
    Except SyntaxError (Option Float) × Cursor :=
  match _h : c.peek with
  | none => settle taken c
  | some x =>
    if continues taken x then scanScientific (taken ++ [x]) c.pop.2
    else if x = '.' then (.error .multipleDecimalPoints, c)
    else if (x = 'e' || x = 'E') && !taken.isEmpty then
      let taken := if taken = ['+'] || taken = ['-'] then taken ++ ['1'] else taken
      let after := readPlain c.pop.2
      match after.1 with
      | .error e => (.error e, after.2)
      | .ok (some exponent) =>
        (.ok ((Decimal.readPlain? taken).map fun m => m.toFloat * Float.pow 10 exponent), after.2)
      | .ok none => scanScientific taken after.2
    else settle taken c
  termination_by c.size
  decreasing_by
    · exact Cursor.size_pop_lt _h
    · exact Nat.lt_of_le_of_lt (size_readPlain_le _) (Cursor.size_pop_lt _h)

/-- A number, with an exponent if one follows and `exponent` allows it. -/
def readNumber (exponent : Bool) (c : Cursor) : Except SyntaxError (Option Float) × Cursor :=
  if exponent then scanScientific [] c.skipBlanks else readPlain c

/-- The word that spells a truth value. -/
def word (b : Bool) : List Char :=
  if b then ['t', 'r', 'u', 'e'] else ['f', 'a', 'l', 's', 'e']

/-- Reads as many characters as the word has, and compares. -/
def readWord (expected : Bool) (c : Cursor) : Except SyntaxError (Option Bool) × Cursor :=
  let (found, rest) := c.take (word expected).length
  if found = word expected then (.ok (some expected), rest)
  else (.error (.invalidBooleanLiteral expected (String.ofList found)), rest)

/-- A truth value, `true` or `false`; its first letter commits to it. -/
def readBoolean (c : Cursor) : Except SyntaxError (Option Bool) × Cursor :=
  let c := c.skipBlanks
  match c.peek with
  | some 't' => readWord true c
  | some 'f' => readWord false c
  | _ => (.ok none, c)

/-- Whichever literal the next character announces: a quote a text, a digit or a sign a number,
`t` or `f` a truth value. -/
def readValue (c : Cursor) : Except SyntaxError (Option Literal) × Cursor :=
  let c := c.skipBlanks
  match c.peek with
  | none => (.ok none, c)
  | some x =>
    if x = '\'' || x = '"' then
      let (r, rest) := readString c
      (r.map (·.map string), rest)
    else if x.isDigit || x = '+' || x = '-' then
      let (r, rest) := readNumber true c
      (r.map (·.map number), rest)
    else if x = 't' || x = 'f' then
      let (r, rest) := readBoolean c
      (r.map (·.map boolean), rest)
    else (.ok none, c)

end Literal

end Reckoner
