import Reckoner.SyntaxError

/-!
# Calculations

A calculation turns a row of numbers into one, or refuses it, and accepts a range of argument
counts. Those that expressions can call have a name; the ones behind the operators have none.
-/

namespace Reckoner

/-- A pure function on rows of numbers. -/
structure Calculation where
  name : Option String
  minArgs : Nat
  maxArgs : Nat
  body : List Float → Except SyntaxError Float

/-- Why a calculation cannot be defined as asked. -/
inductive DefinitionError where
  | emptyName
  | crossedBounds (name : String) (min max : Nat)
  deriving DecidableEq, Repr

namespace DefinitionError

/-- The wording of the error. -/
def message : DefinitionError → String
  | emptyName => "invalid argument: function name is empty"
  | crossedBounds name min max =>
    s!"invalid argument: function '{name}' has min arity {min} above max arity {max}"

end DefinitionError

namespace Calculation

/-- A named calculation, provided that it has a name and can accept some argument count. -/
def define (name : String) (min max : Nat) (body : List Float → Except SyntaxError Float) :
    Except DefinitionError Calculation :=
  if name.isEmpty then .error .emptyName
  else if max < min then .error (.crossedBounds name min max)
  else .ok ⟨some name, min, max, body⟩

/-- Whether `count` arguments are acceptable. -/
def accepts (f : Calculation) (count : Nat) : Bool :=
  f.minArgs ≤ count && count ≤ f.maxArgs

/-- Refuses a count of arguments that is not acceptable. -/
def checkArity (f : Calculation) (count : Nat) : Except SyntaxError Unit :=
  if f.accepts count then .ok ()
  else .error
    (.argumentCountOutOfRange (f.name.getD "<operator>") count f.minArgs f.maxArgs)

/-- The result on `args`, whose count is checked first. -/
def call (f : Calculation) (args : List Float) : Except SyntaxError Float :=
  match f.checkArity args.length with
  | .error e => .error e
  | .ok () => f.body args

/-- Name and accepted counts, as diagnostics show them. -/
def shown (f : Calculation) : String :=
  "Function \x7b name: " ++ Text.Quoted.option (f.name.map Text.Quoted.text)
    ++ ", min: " ++ toString f.minArgs ++ ", max: " ++ toString f.maxArgs ++ ", .. \x7d"

end Calculation

end Reckoner
