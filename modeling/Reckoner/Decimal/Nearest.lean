import Reckoner.Decimal.Magnitude

/-!
# The double nearest to a ratio

A ratio of natural numbers is rounded once, to the nearest magnitude, a tie going to the even
mantissa. What lies past the last finite magnitude by half a step or more is infinite.
-/

namespace Reckoner

/-- The whole number nearest to `n / d`; halfway between two, the even one. -/
def divNearest (n d : Nat) : Nat :=
  let q := n / d
  let r := n % d
  if 2 * r < d then q else if d < 2 * r then q + 1 else q + q % 2

/-- The rank of the double nearest to `n / d`. -/
def rankOfRatio (n d : Nat) : Nat :=
  let units := n * Magnitude.one
  let shift := (units / d).log2 - 52
  min (Magnitude.rank ⟨divNearest units (d <<< shift), shift⟩) Magnitude.infinityRank

/-- The double nearest to an integer. -/
def floatOfInt (n : Int) : Float :=
  floatOfRank (n < 0) (rankOfRatio n.natAbs 1)

end Reckoner
