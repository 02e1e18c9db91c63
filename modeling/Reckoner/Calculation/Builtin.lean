import Reckoner.Calculation.Basic

/-!
# Built-in calculations

The arithmetic behind the operators, which is anonymous, and the named calculations that every
registry starts with unless it is asked to be empty. Angles are in radians.
-/

namespace Reckoner

namespace Calculation

/-- A body for one argument. -/
def unary (f : Float → Float) : List Float → Except SyntaxError Float
  | [x] => .ok (f x)
  | args => .error (.argumentCountOutOfRange "<builtin>" args.length 1 2)

/-- A body for two arguments. -/
def binary (f : Float → Float → Except SyntaxError Float) : List Float → Except SyntaxError Float
  | [x, y] => f x y
  | args => .error (.argumentCountOutOfRange "<builtin>" args.length 1 2)

def add : Calculation :=
  ⟨none, 2, 2, binary fun x y => .ok (x + y)⟩

def subtract : Calculation :=
  ⟨none, 2, 2, binary fun x y => .ok (x - y)⟩

def multiply : Calculation :=
  ⟨none, 2, 2, binary fun x y => .ok (x * y)⟩

/-- Division, refused where the divisor is zero of either sign. -/
def divide : Calculation :=
  ⟨none, 2, 2, binary fun x y => if y == 0 then .error .divideByZero else .ok (x / y)⟩

def power : Calculation :=
  ⟨none, 2, 2, binary fun x y => .ok (Float.pow x y)⟩

/-- The square root of one argument; the root of the first argument to the degree of the second. -/
def root : Calculation :=
  ⟨some "root", 1, 2, fun
    | [x] => .ok (Float.sqrt x)
    | [x, n] => .ok (Float.pow x (1 / n))
    | args => .error (.argumentCountOutOfRange "<builtin>" args.length 1 2)⟩

/-- The ratio of a circle's circumference to its diameter. -/
def pi : Float := 3.141592653589793

/-- A calculation of one argument under a name. -/
def named (name : String) (f : Float → Float) : Calculation :=
  ⟨some name, 1, 1, unary f⟩

/-- The named calculations of every default registry. -/
def builtins : List Calculation :=
  [root, named "sin" Float.sin, named "asin" Float.asin, named "cos" Float.cos,
   named "acos" Float.acos, named "tan" Float.tan, named "atan" Float.atan,
   named "rad" fun x => x * pi / 180, named "deg" fun x => x * 180 / pi]

end Calculation

end Reckoner
