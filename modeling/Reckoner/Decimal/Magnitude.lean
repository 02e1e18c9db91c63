/-!
# The finite doubles

Up to its sign a finite double is a whole number of units of `2 ^ -1074`, written
`mantissa * 2 ^ shift`. Its bits without the sign, read as a number, count the magnitudes upward
from zero: that number is its rank (`rank_ofRank`). The rank after the last finite one is
infinity's, and those past it are not numbers.
-/

namespace Reckoner

/-- The size of a finite double: `mantissa * 2 ^ shift` units. -/
structure Magnitude where
  mantissa : Nat
  shift : Nat
  deriving DecidableEq, Repr

namespace Magnitude

/-- How many units make one. -/
def one : Nat := 1 <<< 1074

/-- How many magnitudes a binade has, which is `2 ^ 52`. -/
def binade : Nat := 0x10000000000000

/-- The rank of infinity. -/
def infinityRank : Nat := 2047 * binade

/-- The magnitude with `rank` magnitudes below it. -/
def ofRank (rank : Nat) : Magnitude :=
  if rank < binade then ⟨rank, 0⟩ else ⟨binade + rank % binade, rank / binade - 1⟩

/-- How many magnitudes lie below this one. -/
def rank (m : Magnitude) : Nat :=
  m.shift * binade + m.mantissa

/-- The size in units. -/
def units (m : Magnitude) : Nat :=
  m.mantissa <<< m.shift

theorem rank_ofRank (r : Nat) : (ofRank r).rank = r := by
  simp only [ofRank]
  split
  · simp [rank]
  · simp only [rank, binade] at *
    omega

end Magnitude

/-- The sign bit as a number, which is `2 ^ 63`. -/
def signBit : Nat := 0x8000000000000000

/-- The double with the given sign and rank. -/
def floatOfRank (negative : Bool) (rank : Nat) : Float :=
  Float.ofBits (UInt64.ofNat ((if negative then signBit else 0) + rank))

/-- The rank of a double, its sign aside. -/
def rankOfFloat (x : Float) : Nat :=
  x.toBits.toNat % signBit

/-- Whether the sign bit is set, as it is in negative zero. -/
def hasMinus (x : Float) : Bool :=
  signBit ≤ x.toBits.toNat

end Reckoner
