import Reckoner.Json.Basic
import Reckoner.Proofs.Literal.Quotation
import Reckoner.Proofs.Literal.Scientific

/-!
# Derivations of JSON values

    value   := '{' '}' | '{' members '}' | '[' items ']' | number | word | quotation | 'null'
    members := quotation ':' value [',' members]
    items   := [value [',' items]]

The derivations of this grammar, apart from any reader of it: the lexemes that they spell
(`Derivation.lexemes`) and the value that they denote (`Derivation.value`), in which the last member
under a key wins.
-/

namespace Reckoner.Json

mutual

/-- A value as it is written. -/
inductive Derivation : Type where
  | emptyObject
  | object (members : MemberRow)
  | array (items : ItemRow)
  | number (n : Scientific)
  | boolean (b : Bool)
  | string (q : Quotation)
  | null

/-- One or more members. -/
inductive MemberRow : Type where
  | last (key : Quotation) (value : Derivation)
  | cons (key : Quotation) (value : Derivation) (rest : MemberRow)

/-- Any number of items; a comma may come last. -/
inductive ItemRow : Type where
  | nil
  | last (item : Derivation)
  | cons (item : Derivation) (rest : ItemRow)

end

mutual

/-- The lexemes in the order in which they are written. -/
def Derivation.lexemes : Derivation → List (List Char)
  | .emptyObject => [['\x7b'], ['\x7d']]
  | .object members => ['\x7b'] :: (members.lexemes ++ [['\x7d']])
  | .array items => ['['] :: (items.lexemes ++ [[']']])
  | .number n => [n.chars]
  | .boolean b => [Literal.word b]
  | .string q => [q.chars]
  | .null => [['n', 'u', 'l', 'l']]

def MemberRow.lexemes : MemberRow → List (List Char)
  | .last key value => key.chars :: [':'] :: value.lexemes
  | .cons key value rest => key.chars :: [':'] :: (value.lexemes ++ [','] :: rest.lexemes)

def ItemRow.lexemes : ItemRow → List (List Char)
  | .nil => []
  | .last item => item.lexemes
  | .cons item rest => item.lexemes ++ [','] :: rest.lexemes

end

mutual

/-- The value that is written. -/
def Derivation.value : Derivation → Json
  | .emptyObject => object []
  | .object members => object (members.onto [])
  | .array items => array items.values
  | .number n => number n.value
  | .boolean b => boolean b
  | .string q => string q.text
  | .null => null

/-- The members after those that there are already. -/
def MemberRow.onto : MemberRow → Members Json → Members Json
  | .last key value, members => members.insert key.text value.value
  | .cons key value rest, members => rest.onto (members.insert key.text value.value)

def ItemRow.values : ItemRow → List Json
  | .nil => []
  | .last item => [item.value]
  | .cons item rest => item.value :: rest.values

end

theorem Derivation.lexemes_ne_nil (d : Derivation) : d.lexemes ≠ [] := by
  cases d <;> exact List.cons_ne_nil _ _

end Reckoner.Json
