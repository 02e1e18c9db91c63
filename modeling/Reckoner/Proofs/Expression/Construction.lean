import Reckoner.Proofs.Expression.Derivation

/-!
# The expressions of derivations

The expression of a derivation, or the error that building it meets first, computed along the
derivation and apart from any text (`Chain.build`).
-/

namespace Reckoner

open Expression

namespace Grammar

variable (s : Settings)

mutual

/-- The expression of the derivation. -/
def Chain.build : {t : Tier} → Chain t → Except SyntaxError Expression
  | _, .mk first rest => do
    let e ← first.build
    rest.buildFrom e []

/-- The expression of a chain that has come to `first` and `acc`. -/
def Tail.buildFrom : {t : Tier} → Tail t → Expression → List (Operator × Expression) →
    Except SyntaxError Expression
  | _, .nil, first, acc => .ok (close first acc)
  | _, .cons op _ operand rest, first, acc => do
    let e ← operand.build
    let p ← s.extend first acc op e
    rest.buildFrom p.1 p.2

def Operand.build : {t : Tier} → Operand t → Except SyntaxError Expression
  | _, .chain c => c.build
  | _, .factor f => f.build

def Factor.build : Factor → Except SyntaxError Expression
  | .group inner => do
    let e ← inner.build
    return .group e
  | .number n => .ok (.constant n.value)
  | .quantity coefficient name => .ok (.quantity (.free name.text (coefficient.map Numeral.value)))
  | .call coefficient name args =>
    match s.registry.lookup name.text with
    | none => .error (.unknownFunction name.text)
    | some f => do
      let es ← args.build
      f.checkArity es.length
      return ofCall f (coefficient.map Numeral.value) es

def Arguments.build : Arguments → Except SyntaxError (List Expression)
  | .last arg => do
    let e ← arg.build
    return [e]
  | .cons arg rest => do
    let e ← arg.build
    let es ← rest.build
    return e :: es

end

end Grammar

end Reckoner
