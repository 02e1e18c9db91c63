import Reckoner.Decimal.Magnitude

/-!
# The whole part of a double

Conversions from doubles to integers, exact on the value that the double holds.
-/

namespace Reckoner

/-- The double without its fraction, if it is finite. -/
def truncate? (x : Float) : Option Int :=
  let rank := rankOfFloat x
  if rank < Magnitude.infinityRank then
    let whole : Nat := (Magnitude.ofRank rank).units / Magnitude.one
    some (if hasMinus x then -whole else whole)
  else none

/-- Whether the double is finite and has no fraction. -/
def isWhole (x : Float) : Bool :=
  let rank := rankOfFloat x
  rank < Magnitude.infinityRank && (Magnitude.ofRank rank).units % Magnitude.one == 0

/-- The double without its fraction, if that is a signed number of `bits` bits. -/
def truncateTo? (bits : Nat) (x : Float) : Option Int :=
  let bound : Nat := 1 <<< (bits - 1)
  (truncate? x).filter fun n => -bound ≤ n && n < bound

end Reckoner
