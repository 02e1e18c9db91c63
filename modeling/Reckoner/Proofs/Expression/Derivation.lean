import Reckoner.Expression.Grammar
import Reckoner.Proofs.Except
import Reckoner.Proofs.Literal.Word

/-!
# Derivations of expressions

    low  := high (('+' | '-') high)*
    high := factor (('*' | '/' | '^') factor)*
    factor := '(' low ')' | numeral | [numeral] word | [numeral] word '(' low (',' low)* ')'

The derivations of this grammar, apart from any reader of it: the lexemes that they spell
(`Chain.Renders`), and their value when the words have values (`Chain.eval`), every chain strictly
from left to right. A derivation is admissible if its calls are of registered calculations with
acceptable counts and its leading operands without words have a value (`Chain.Admissible`).
-/

namespace Reckoner

open Text Cursor

namespace Grammar

mutual

/-- An operand and those that operators of its tier join to it. -/
inductive Chain : Tier → Type where
  | mk {t : Tier} (first : Operand t) (rest : Tail t) : Chain t

/-- Operands, each behind an operator of the tier. -/
inductive Tail : Tier → Type where
  | nil {t : Tier} : Tail t
  | cons {t : Tier} (op : Operator) (tier : op.tier = t) (operand : Operand t) (rest : Tail t) :
    Tail t

/-- What a tier joins: chains of the tighter tier, or factors. -/
inductive Operand : Tier → Type where
  | chain (c : Chain .high) : Operand .low
  | factor (f : Factor) : Operand .high

inductive Factor : Type where
  | group (inner : Chain .low)
  | number (n : Numeral)
  | quantity (coefficient : Option Numeral) (name : Word)
  | call (coefficient : Option Numeral) (name : Word) (args : Arguments)

/-- One or more arguments. -/
inductive Arguments : Type where
  | last (arg : Chain .low)
  | cons (arg : Chain .low) (rest : Arguments)

end

/-- A word with its coefficient in front, which nothing parts. -/
def scaledWord (coefficient : Option Numeral) (name : Word) : List Char :=
  coefficient.elim [] Numeral.chars ++ name.chars

mutual

/-- The lexemes in the order in which they are written. -/
def Chain.lexemes : {t : Tier} → Chain t → List (List Char)
  | _, .mk first rest => first.lexemes ++ rest.lexemes

def Tail.lexemes : {t : Tier} → Tail t → List (List Char)
  | _, .nil => []
  | _, .cons op _ operand rest => [op.symbol] :: (operand.lexemes ++ rest.lexemes)

def Operand.lexemes : {t : Tier} → Operand t → List (List Char)
  | _, .chain c => c.lexemes
  | _, .factor f => f.lexemes

def Factor.lexemes : Factor → List (List Char)
  | .group inner => ['('] :: (inner.lexemes ++ [[')']])
  | .number n => [n.chars]
  | .quantity coefficient name => [scaledWord coefficient name]
  | .call coefficient name args => scaledWord coefficient name :: ['('] :: (args.lexemes ++ [[')']])

def Arguments.lexemes : Arguments → List (List Char)
  | .last arg => arg.lexemes
  | .cons arg rest => arg.lexemes ++ [','] :: rest.lexemes

end

/-- The text is a rendering of the derivation. -/
def Chain.Renders {t : Tier} (d : Chain t) (text : String) : Prop :=
  Spaced d.lexemes text.toList

mutual

/-- The names of the quantities from left to right, as often as they occur. -/
def Chain.variables : {t : Tier} → Chain t → List String
  | _, .mk first rest => first.variables ++ rest.variables

def Tail.variables : {t : Tier} → Tail t → List String
  | _, .nil => []
  | _, .cons _ _ operand rest => operand.variables ++ rest.variables

def Operand.variables : {t : Tier} → Operand t → List String
  | _, .chain c => c.variables
  | _, .factor f => f.variables

def Factor.variables : Factor → List String
  | .group inner => inner.variables
  | .number _ => []
  | .quantity _ name => [name.text]
  | .call _ _ args => args.variables

def Arguments.variables : Arguments → List String
  | .last arg => arg.variables
  | .cons arg rest => arg.variables ++ rest.variables

end

/-- Whether no quantity occurs in the operand. -/
def Operand.isClosed {t : Tier} (x : Operand t) : Bool :=
  x.variables.isEmpty

def Arguments.count : Arguments → Nat
  | .last _ => 1
  | .cons _ rest => rest.count + 1

/-- What a coefficient multiplies by. -/
def scale (coefficient : Option Numeral) : Float :=
  (coefficient.map Numeral.value).getD 1

variable (r : Registry) (env : String → Float)

mutual

/-- The value when `env` gives the values of the names. -/
def Chain.eval : {t : Tier} → Chain t → Except SyntaxError Float
  | _, .mk first rest => do
    let x ← first.eval
    rest.evalFrom x

/-- The value of a chain that has reached `acc`. -/
def Tail.evalFrom : {t : Tier} → Tail t → Float → Except SyntaxError Float
  | _, .nil, acc => .ok acc
  | _, .cons op _ operand rest, acc => do
    let y ← operand.eval
    let z ← op.apply acc y
    rest.evalFrom z

def Operand.eval : {t : Tier} → Operand t → Except SyntaxError Float
  | _, .chain c => c.eval
  | _, .factor f => f.eval

def Factor.eval : Factor → Except SyntaxError Float
  | .group inner => inner.eval
  | .number n => .ok n.value
  | .quantity coefficient name => .ok (scale coefficient * env name.text)
  | .call coefficient name args =>
    match r.lookup name.text with
    | none => .error (.unknownFunction name.text)
    | some f => do
      let xs ← args.eval
      let y ← f.call xs
      return scale coefficient * y

/-- The values of the arguments from left to right. -/
def Arguments.eval : Arguments → Except SyntaxError (List Float)
  | .last arg => do
    let x ← arg.eval
    return [x]
  | .cons arg rest => do
    let x ← arg.eval
    let xs ← rest.eval
    return x :: xs

end

mutual

/-- Every call is of a registered calculation that accepts so many arguments. -/
def Chain.Callable : {t : Tier} → Chain t → Prop
  | _, .mk first rest => first.Callable ∧ rest.Callable

def Tail.Callable : {t : Tier} → Tail t → Prop
  | _, .nil => True
  | _, .cons _ _ operand rest => operand.Callable ∧ rest.Callable

def Operand.Callable : {t : Tier} → Operand t → Prop
  | _, .chain c => c.Callable
  | _, .factor f => f.Callable

def Factor.Callable : Factor → Prop
  | .group inner => inner.Callable
  | .number _ => True
  | .quantity _ _ => True
  | .call _ name args =>
    (∃ f, r.lookup name.text = some f ∧ f.accepts args.count = true) ∧ args.Callable

def Arguments.Callable : Arguments → Prop
  | .last arg => arg.Callable
  | .cons arg rest => arg.Callable ∧ rest.Callable

end

/-- The longest front without quantities. -/
def Tail.leading : {t : Tier} → Tail t → Tail t
  | _, .nil => .nil
  | _, .cons op h operand rest => if operand.isClosed then .cons op h operand rest.leading else .nil

/-- If two operands or more at the front have no quantities, then all those at the front have a
value together. -/
def LeadingEvaluates {t : Tier} (first : Operand t) (rest : Tail t) : Prop :=
  first.isClosed = true → rest.leading ≠ .nil →
    ∃ z, ∀ env, (Chain.mk first rest.leading).eval r env = .ok z

mutual

/-- The leading operands without quantities have a value together, in every chain. -/
def Chain.Foldable : {t : Tier} → Chain t → Prop
  | _, .mk first rest => LeadingEvaluates r first rest ∧ first.Foldable ∧ rest.Foldable

def Tail.Foldable : {t : Tier} → Tail t → Prop
  | _, .nil => True
  | _, .cons _ _ operand rest => operand.Foldable ∧ rest.Foldable

def Operand.Foldable : {t : Tier} → Operand t → Prop
  | _, .chain c => c.Foldable
  | _, .factor f => f.Foldable

def Factor.Foldable : Factor → Prop
  | .group inner => inner.Foldable
  | .number _ => True
  | .quantity _ _ => True
  | .call _ _ args => args.Foldable

def Arguments.Foldable : Arguments → Prop
  | .last arg => arg.Foldable
  | .cons arg rest => arg.Foldable ∧ rest.Foldable

end

/-- The calls are possible, and the leading operands without quantities have values. -/
def Chain.Admissible {t : Tier} (d : Chain t) : Prop :=
  d.Callable r ∧ d.Foldable r

end Grammar

end Reckoner
