import Reckoner.Calculation.Builtin

/-!
# Operators

The five binary operators, in two tiers of precedence. Each computes by a calculation and knows the
one that undoes it.
-/

namespace Reckoner

/-- How tightly operators bind. -/
inductive Tier where
  /-- Addition and subtraction, which bind loosest. -/
  | low
  /-- Multiplication, division and powers. -/
  | high
  deriving DecidableEq, Repr

/-- A binary operator. -/
inductive Operator where
  | add
  | subtract
  | multiply
  | divide
  | power
  deriving DecidableEq, Repr

namespace Operator

/-- All operators, in the order in which they are listed. -/
def all : List Operator :=
  [add, subtract, multiply, divide, power]

/-- The character that spells the operator. -/
def symbol : Operator → Char
  | add => '+'
  | subtract => '-'
  | multiply => '*'
  | divide => '/'
  | power => '^'

/-- The operator that a character spells. -/
def ofChar? (c : Char) : Option Operator :=
  all.find? (·.symbol = c)

/-- The tier of the operator. -/
def tier : Operator → Tier
  | add | subtract => .low
  | multiply | divide | power => .high

/-- The operators of a tier, in the order in which they are listed. -/
def inTier (t : Tier) : List Operator :=
  all.filter (·.tier = t)

/-- The calculation of the operator. -/
def calculation : Operator → Calculation
  | add => .add
  | subtract => .subtract
  | multiply => .multiply
  | divide => .divide
  | power => .power

/-- The calculation that undoes the operator. -/
def reverse : Operator → Calculation
  | add => .subtract
  | subtract => .add
  | multiply => .divide
  | divide => .multiply
  | power => .root

/-- The operator applied to two operands. -/
def apply (op : Operator) (x y : Float) : Except SyntaxError Float :=
  op.calculation.call [x, y]

theorem ofChar?_symbol (op : Operator) : ofChar? op.symbol = some op := by
  cases op <;> rfl

theorem symbol_of_ofChar? {c : Char} {op : Operator} (h : ofChar? c = some op) :
    op.symbol = c := by
  simpa using List.find?_some h

end Operator

end Reckoner
