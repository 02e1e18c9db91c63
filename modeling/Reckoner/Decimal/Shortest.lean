import Reckoner.Decimal.Basic

/-!
# The shortest decimal of a double

A double is written with the fewest digits that read back as it. The points that read back lie
around it, at most half a step to either side (`Around.holds`). Coarser grids of powers of ten are
tried before finer ones; of two neighbours on the first grid that has one, the nearer wins, and the
larger if neither is nearer.
-/

namespace Reckoner

/-- What rounds to one magnitude, measured in half units: the points from `down` below its
`centre` to `up` above it, the ends among them if `closed`. -/
structure Around where
  centre : Nat
  down : Nat
  up : Nat
  closed : Bool

namespace Around

/-- The points that round to the magnitude of the given rank. Its lower neighbour is half as far
away where the mantissa is the smallest of its binade. -/
def ofRank (rank : Nat) : Around :=
  let m := Magnitude.ofRank rank
  let step := 1 <<< m.shift
  { centre := 2 * m.units
    down := if m.mantissa = Magnitude.binade ∧ 0 < m.shift then step / 2 else step
    up := step
    closed := m.mantissa % 2 == 0 }

/-- Whether `n / d` half units lie in the range. -/
def holds (a : Around) (n d : Nat) : Bool :=
  if a.closed then (a.centre - a.down) * d ≤ n && n ≤ (a.centre + a.up) * d
  else (a.centre - a.down) * d < n && n < (a.centre + a.up) * d

/-- The multiple of `10 ^ exponent` that stands for the range, if one lies in it: the neighbour
of the centre on that grid, on the side that is nearer. -/
def onGrid (a : Around) (exponent : Int) : Option Nat :=
  let n := 2 * Magnitude.one * Nat.pow 10 exponent.toNat
  let d := Nat.pow 10 (-exponent).toNat
  let low := a.centre * d / n
  let high := low + 1
  match a.holds (low * n) d, a.holds (high * n) d with
  | true, true => some (if a.centre * d - low * n < high * n - a.centre * d then low else high)
  | true, false => some low
  | false, true => some high
  | false, false => none

/-- The first hit on the grids from `10 ^ (steps - 324)` down to `10 ^ -324`. The last of them is
finer than the smallest double, so it always has one. -/
def shortest (a : Around) : (steps : Nat) → Nat × Int
  | 0 => ((a.onGrid (-324)).getD 0, -324)
  | steps + 1 =>
    match a.onGrid (steps + 1 - 324) with
    | some digits => (digits, steps + 1 - 324)
    | none => a.shortest steps

/-- Steps enough to start above the range: every point of a grid that coarse, zero apart, is too
large. A half unit is a little more than `10 ^ -324`, and each bit is less than 31 hundredths of a
decimal place. -/
def coarsest (a : Around) : Nat :=
  a.centre.log2 * 31 / 100 + 2

end Around

namespace Decimal

/-- The shortest decimal that reads back as the finite double of this sign and rank. -/
def ofRank (negative : Bool) (rank : Nat) : Decimal :=
  if rank = 0 then ⟨negative, 0, 0⟩
  else
    let a := Around.ofRank rank
    let (digits, exponent) := a.shortest a.coarsest
    ⟨negative, digits, exponent⟩

/-- A double as text: every digit in its place, never an exponent. -/
def text (x : Float) : String :=
  let rank := rankOfFloat x
  if Magnitude.infinityRank < rank then "NaN"
  else if rank = Magnitude.infinityRank then (if hasMinus x then "-inf" else "inf")
  else String.ofList (ofRank (hasMinus x) rank).chars

end Decimal

end Reckoner
