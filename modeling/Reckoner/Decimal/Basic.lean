import Reckoner.Decimal.Nearest

/-!
# Decimals

A decimal is a sign, a row of digits and a power of ten. Each stands for the double nearest to it,
and is written out in full, without an exponent: `positional`.
-/

namespace Reckoner

/-- The number `digits * 10 ^ exponent`, negated if `negative`. -/
structure Decimal where
  negative : Bool
  digits : Nat
  exponent : Int
  deriving DecidableEq, Repr

namespace Decimal

/-- The rank of the nearest double. Exponents so far out that the digits cannot matter are
settled first, so that no power of ten is larger than a double calls for. -/
def rank (d : Decimal) : Nat :=
  if d.digits = 0 then 0
  else if 400 ≤ d.exponent then Magnitude.infinityRank
  else if 3 * d.exponent + d.digits.log2 + 1100 ≤ 0 then 0
  else rankOfRatio (d.digits * Nat.pow 10 d.exponent.toNat) (Nat.pow 10 (-d.exponent).toNat)

/-- The nearest double. -/
def toFloat (d : Decimal) : Float :=
  floatOfRank d.negative d.rank

/-- A row of digits times a power of ten, written out: zeros fill the places between the digits
and the point. -/
def positional (digits : List Char) (exponent : Int) : List Char :=
  if 0 ≤ exponent then digits ++ List.replicate exponent.toNat '0'
  else
    let places := (-exponent).toNat
    if places < digits.length then
      digits.take (digits.length - places) ++ '.' :: digits.drop (digits.length - places)
    else '0' :: '.' :: List.replicate (places - digits.length) '0' ++ digits

/-- The decimal written out, its sign in front. -/
def chars (d : Decimal) : List Char :=
  let body := positional (Nat.toDigits 10 d.digits) d.exponent
  if d.negative then '-' :: body else body

end Decimal

end Reckoner
