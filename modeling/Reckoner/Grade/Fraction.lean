import Reckoner.Decimal.Nearest
import Reckoner.Grade.Error

/-!
# Fractions

Fractions of 64-bit integers, for keeping account of weightings. Making a fraction, adding and
multiplying give lowest terms; scaling and expanding leave the terms as they are, so that a
weighting can be carried at a chosen denominator. A result that does not fit is an error.
-/

namespace Reckoner

/-- The quotient of two 64-bit integers, as it is carried. -/
structure Fraction where
  numerator : Int64
  denominator : Int64
  deriving DecidableEq

namespace Fraction

def zero : Fraction := ⟨0, 1⟩

def one : Fraction := ⟨1, 1⟩

instance : Inhabited Fraction := ⟨zero⟩

/-- An integer in 64 bits, if it fits. -/
def narrow (n : Int) : Except GradeError Int64 :=
  if Int64.minValue.toInt ≤ n ∧ n ≤ Int64.maxValue.toInt then .ok (.ofInt n)
  else .error .weightingOutOfRange

/-- Euclid's algorithm: until the second number is zero, it stands in for the first one, and the
remainder of the two for it. -/
def euclid (a b : UInt64) : UInt64 :=
  if b = 0 then a else euclid b (a % b)
termination_by b.toNat
decreasing_by
  rename_i hb
  rw [UInt64.toNat_mod]
  exact Nat.mod_lt _ (Nat.pos_of_ne_zero fun hzero => hb (UInt64.toNat_inj.1 hzero))

/-- An integer without its sign, for which there is always room. -/
def magnitude (n : Int64) : UInt64 :=
  .ofNat n.toInt.natAbs

/-- The same value in lowest terms, the sign in the numerator. The common divisor has to fit as
well as the terms. -/
def reduced (f : Fraction) : Except GradeError Fraction := do
  let n := f.numerator.toInt
  let d := f.denominator.toInt
  let divisor ← narrow (max (euclid (magnitude f.numerator) (magnitude f.denominator)).toNat 1)
  let sign : Int := if d < 0 then -1 else 1
  return ⟨← narrow (n.tdiv divisor.toInt * sign), ← narrow (d.tdiv divisor.toInt * sign)⟩

/-- The fraction of two integers in lowest terms. -/
def make (numerator denominator : Int64) : Except GradeError Fraction :=
  if denominator = 0 then .error (.malformed .divideByZero)
  else reduced ⟨numerator, denominator⟩

/-- Multiplies the numerator. -/
def scaleUp (n : Int64) (f : Fraction) : Except GradeError Fraction := do
  return { f with numerator := ← narrow (f.numerator.toInt * n.toInt) }

/-- Multiplies the denominator by anything but zero. -/
def scaleDown (n : Int64) (f : Fraction) : Except GradeError Fraction := do
  if n = 0 then throw (.malformed .divideByZero)
  return { f with denominator := ← narrow (f.denominator.toInt * n.toInt) }

/-- Multiplies both terms by anything but zero. -/
def expand (n : Int64) (f : Fraction) : Except GradeError Fraction := do
  if n = 0 then throw (.malformed .divideByZero)
  return ⟨← narrow (f.numerator.toInt * n.toInt), ← narrow (f.denominator.toInt * n.toInt)⟩

/-- The sum in lowest terms. Equal denominators are kept until then, others multiplied. -/
def add (f g : Fraction) : Except GradeError Fraction := do
  let a := f.numerator.toInt
  let b := f.denominator.toInt
  let c := g.numerator.toInt
  let d := g.denominator.toInt
  if b = d then
    reduced ⟨← narrow (a + c), f.denominator⟩
  else
    let ad ← narrow (a * d)
    let cb ← narrow (c * b)
    reduced ⟨← narrow (ad.toInt + cb.toInt), ← narrow (b * d)⟩

/-- The product in lowest terms. -/
def mul (f g : Fraction) : Except GradeError Fraction := do
  reduced ⟨← narrow (f.numerator.toInt * g.numerator.toInt),
    ← narrow (f.denominator.toInt * g.denominator.toInt)⟩

/-- Whether the value is zero. -/
def isZero (f : Fraction) : Bool :=
  f.numerator = 0

/-- Whether the value is one, at any denominator. -/
def isOne (f : Fraction) : Bool :=
  f.numerator = f.denominator

/-- The quotient of the terms, each of them first made a double. -/
def toFloat (f : Fraction) : Float :=
  floatOfInt f.numerator.toInt / floatOfInt f.denominator.toInt

/-- Numerator and denominator with a slash between them. -/
def text (f : Fraction) : String :=
  s!"{f.numerator}/{f.denominator}"

/-- Ways to make a fraction of another one, or to make one anew. -/
inductive Operation where
  | make (numerator denominator : Int64)
  | scaleUp (n : Int64)
  | scaleDown (n : Int64)
  | expand (n : Int64)
  | reduce
  | add (g : Fraction)
  | multiply (g : Fraction)

namespace Operation

def apply : Operation → Fraction → Except GradeError Fraction
  | make n d, _ => Fraction.make n d
  | scaleUp n, f => f.scaleUp n
  | scaleDown n, f => f.scaleDown n
  | expand n, f => f.expand n
  | reduce, f => f.reduced
  | add g, f => f.add g
  | multiply g, f => f.mul g

/-- The operation on a fraction that is held in place, of which it changes the terms it has to. -/
def perform : Operation → EStateM GradeError Fraction Unit
  | make n d => do set (← MonadExcept.ofExcept (Fraction.make n d))
  | scaleUp n => do
    let numerator ← MonadExcept.ofExcept (narrow ((← get).numerator.toInt * n.toInt))
    modify ({ · with numerator })
  | scaleDown n =>
    if n = 0 then throw (.malformed .divideByZero)
    else do
      let denominator ← MonadExcept.ofExcept (narrow ((← get).denominator.toInt * n.toInt))
      modify ({ · with denominator })
  | expand n =>
    if n = 0 then throw (.malformed .divideByZero)
    else do
      let numerator ← MonadExcept.ofExcept (narrow ((← get).numerator.toInt * n.toInt))
      let denominator ← MonadExcept.ofExcept (narrow ((← get).denominator.toInt * n.toInt))
      set (Fraction.mk numerator denominator)
  | reduce => do set (← MonadExcept.ofExcept (← get).reduced)
  | add g => do set (← MonadExcept.ofExcept ((← get).add g))
  | multiply g => do set (← MonadExcept.ofExcept ((← get).mul g))

end Operation

end Fraction

end Reckoner
