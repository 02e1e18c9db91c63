import Reckoner.Calculation.Registry
import Reckoner.Decimal.Shortest
import Reckoner.Operator

/-!
# Expressions

An expression is a tree of numbers, named quantities, groups, calls and chains. A chain joins
operands by operators and is evaluated strictly from left to right: precedence is in the shape of
the tree alone. Calls and chains carry the list of the names beneath them, which their constructors
`ofCall`, `ofFirst` and `push` keep; binding a name visits only the parts that list it.
-/

namespace Reckoner

/-- A named quantity, scaled by a coefficient if one was written, with the value bound to it. -/
structure Quantity where
  name : String
  coefficient : Option Float
  bound : Float

namespace Quantity

/-- A quantity to which nothing has been bound, which counts as zero. -/
def free (name : String) (coefficient : Option Float) : Quantity :=
  ⟨name, coefficient, 0⟩

/-- The bound value times the coefficient. -/
def value (q : Quantity) : Float :=
  q.coefficient.getD 1 * q.bound

end Quantity

/-- A tree that has a value once its names are bound. -/
inductive Expression where
  | constant (n : Float)
  | quantity (q : Quantity)
  | group (inner : Expression)
  | call (f : Calculation) (coefficient : Option Float) (args : List Expression)
    (names : List String)
  | chain (first : Expression) (rest : List (Operator × Expression)) (names : List String)

namespace Expression

/-- Adds those of `names` that `into` lacks, in order. -/
def mergeNames (into names : List String) : List String :=
  names.foldl (fun acc n => if acc.contains n then acc else acc ++ [n]) into

/-- The distinct names beneath the node, in order of first appearance. -/
def names : Expression → List String
  | constant _ => []
  | quantity q => [q.name]
  | group inner => inner.names
  | call _ _ _ names => names
  | chain _ _ names => names

/-- A call of `f` on `args`, scaled by a coefficient if there is one. -/
def ofCall (f : Calculation) (coefficient : Option Float) (args : List Expression) : Expression :=
  call f coefficient args (args.foldl (fun acc a => mergeNames acc a.names) [])

/-- A chain of `first` and of the operands that follow it, each with its operator. -/
def ofChain (first : Expression) (rest : List (Operator × Expression)) : Expression :=
  chain first rest (rest.foldl (fun acc r => mergeNames acc r.2.names) first.names)

/-- A chain of `first` alone, which operands can join. -/
def ofFirst (first : Expression) : Expression :=
  chain first [] first.names

/-- A chain that one more operand has joined. -/
def push (first : Expression) (rest : List (Operator × Expression)) (names : List String)
    (op : Operator) (operand : Expression) : Expression :=
  chain first (rest ++ [(op, operand)]) (mergeNames names operand.names)

/-- Whether `name` occurs beneath the node. -/
def mentions (e : Expression) (name : String) : Bool :=
  e.names.contains name

/-- Whether no name occurs beneath the node. -/
def isConstant (e : Expression) : Bool :=
  e.names.isEmpty

mutual

/-- The value under the present bindings. -/
def value : Expression → Except SyntaxError Float
  | constant n => .ok n
  | quantity q => .ok q.value
  | group inner => inner.value
  | call f coefficient args _ => do
    let xs ← values args
    let y ← f.call xs
    return coefficient.getD 1 * y
  | chain first rest _ => do
    let x ← first.value
    valueFrom x rest

/-- The values of all arguments of a call, from left to right. -/
def values : List Expression → Except SyntaxError (List Float)
  | [] => .ok []
  | e :: es => do
    let x ← e.value
    let xs ← values es
    return x :: xs

/-- The value of a chain that has reached `acc`. -/
def valueFrom (acc : Float) : List (Operator × Expression) → Except SyntaxError Float
  | [] => .ok acc
  | (op, e) :: rest => do
    let y ← e.value
    let z ← op.apply acc y
    valueFrom z rest

end

mutual

/-- Binds every occurrence of `name` to `x`; says whether there was one. -/
def bind (name : String) (x : Float) (e : Expression) : Bool × Expression :=
  if !e.mentions name then (false, e)
  else
    match e with
    | constant n => (false, constant n)
    | quantity q => (true, quantity { q with bound := x })
    | group inner =>
      let (found, inner) := bind name x inner
      (found, group inner)
    | call f coefficient args names =>
      let (found, args) := bindAll name x args
      (found, call f coefficient args names)
    | chain first rest names =>
      let (found, first) := bind name x first
      let (found', rest) := bindRest name x rest
      (found || found', chain first rest names)

/-- Binds in every argument of a call. -/
def bindAll (name : String) (x : Float) : List Expression → Bool × List Expression
  | [] => (false, [])
  | e :: es =>
    let (found, e) := bind name x e
    let (found', es) := bindAll name x es
    (found || found', e :: es)

/-- Binds in every operand of a chain after its first. -/
def bindRest (name : String) (x : Float) :
    List (Operator × Expression) → Bool × List (Operator × Expression)
  | [] => (false, [])
  | (op, e) :: rest =>
    let (found, e) := bind name x e
    let (found', rest) := bindRest name x rest
    (found || found', (op, e) :: rest)

end

/-- A text scaled by a coefficient if there is one. -/
def scaled (coefficient : Option Float) (body : String) : String :=
  match coefficient with
  | some k => "(* " ++ Decimal.text k ++ " " ++ body ++ ")"
  | none => body

mutual

/-- The tree in prefix form, operators and calls in parentheses with their operands after them. -/
def prefixForm : Expression → String
  | constant n => Decimal.text n
  | quantity q => scaled q.coefficient q.name
  | group inner => "(group " ++ inner.prefixForm ++ ")"
  | call f coefficient args _ =>
    scaled coefficient ("(" ++ f.name.getD "<op>" ++ prefixForms args ++ ")")
  | chain first rest _ => prefixFrom first.prefixForm rest

/-- The prefix forms of all arguments of a call, each after a space. -/
def prefixForms : List Expression → String
  | [] => ""
  | e :: es => " " ++ e.prefixForm ++ prefixForms es

/-- The prefix form of a chain that has reached `acc`. -/
def prefixFrom (acc : String) : List (Operator × Expression) → String
  | [] => acc
  | (op, e) :: rest =>
    prefixFrom ("(" ++ op.symbol.toString ++ " " ++ acc ++ " " ++ e.prefixForm ++ ")") rest

end

end Expression

end Reckoner
