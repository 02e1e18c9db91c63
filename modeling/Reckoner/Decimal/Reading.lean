import Reckoner.Decimal.Basic

/-!
# Reading decimals

The plain form is an optional sign and digits, one point at most among them, at least one digit.
The full form adds an exponent and the words for infinity and for what is not a number.
-/

namespace Reckoner

namespace Decimal

/-- The number a row of digits spells. -/
def natOfDigits (ds : List Char) : Nat :=
  ds.foldl (fun n c => 10 * n + (c.toNat - '0'.toNat)) 0

/-- Digits with at most one point among them. -/
def readUnsigned? (cs : List Char) : Option (Nat × Int) :=
  let whole := cs.takeWhile Char.isDigit
  match cs.dropWhile Char.isDigit with
  | [] => if whole.isEmpty then none else some (natOfDigits whole, 0)
  | '.' :: part =>
    if part.all Char.isDigit && !(whole.isEmpty && part.isEmpty) then
      some (natOfDigits (whole ++ part), -part.length)
    else none
  | _ => none

/-- Splits a sign off the front; no sign means plus. -/
def splitSign : List Char → Bool × List Char
  | '-' :: cs => (true, cs)
  | '+' :: cs => (false, cs)
  | cs => (false, cs)

/-- Reads the plain form. -/
def readPlain? (cs : List Char) : Option Decimal :=
  let (negative, body) := splitSign cs
  (readUnsigned? body).map fun (digits, exponent) => ⟨negative, digits, exponent⟩

/-- Reads the digits after an exponent mark, a sign first if there is one. -/
def readExponent? (cs : List Char) : Option Int :=
  let (negative, ds) := splitSign cs
  if ds.isEmpty || !ds.all Char.isDigit then none
  else some (if negative then -natOfDigits ds else natOfDigits ds)

/-- Reads the plain form, with or without an exponent after it. -/
def readScientific? (cs : List Char) : Option Decimal :=
  let isMark (c : Char) := c == 'e' || c == 'E'
  match cs.dropWhile (!isMark ·) with
  | [] => readPlain? cs
  | _ :: rest => do
    let d ← readPlain? (cs.takeWhile (!isMark ·))
    let exponent ← readExponent? rest
    return { d with exponent := d.exponent + exponent }

/-- The rank of the double that is no number. -/
def nanRank : Nat :=
  Magnitude.infinityRank + Magnitude.binade / 2

/-- Reads a double in the full form: a decimal, or in any case of letters `inf`, `infinity` or
`nan`, each with an optional sign. -/
def read? (s : String) : Option Float :=
  let (negative, body) := splitSign s.toList
  let word := String.ofList (body.map Char.toLower)
  if word = "inf" || word = "infinity" then some (floatOfRank negative Magnitude.infinityRank)
  else if word = "nan" then some (floatOfRank negative nanRank)
  else (readScientific? s.toList).map toFloat

end Decimal

end Reckoner
