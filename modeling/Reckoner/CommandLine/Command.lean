import Reckoner.CommandLine.Arguments
import Reckoner.Decimal.Reading
import Reckoner.Text.Blank

/-!
# Commands

    eval EXPRESSION [--var NAME=NUMBER]...
    json LOCATION [-p | --pretty]
    grade FORMULA [--set NAME=NUMBER]... [--solve NAME --average NUMBER]

The commands and how their arguments spell them.
-/

namespace Reckoner

/-- A name and the number it is bound to. -/
abbrev Binding : Type := String × Float

/-- Something that can be asked for. -/
inductive Command where
  /-- The value of an expression. -/
  | eval (expression : String) (bindings : List Binding)
  /-- The document at a location, compact or indented. -/
  | json (location : String) (pretty : Bool)
  /-- The grades of a formula, or what one of them needs for an average. -/
  | grade (formula : String) (values : List Binding) (goal : Option (String × Float))

/-- What a command line asks for. -/
inductive Request where
  | run (command : Command)
  | help
  | version

namespace Command

/-- Reads a binding: what stands before the first equals sign is the name, what follows the number,
both without blanks around them. -/
def binding? (text : String) : Option Binding :=
  match text.toList.span (· ≠ '=') with
  | (name, '=' :: number) =>
    (Decimal.read? (String.ofList (Text.trim number))).map fun x =>
      (String.ofList (Text.trim name), x)
  | _ => none

/-- A command in the making: its operand, and what its switches have set. -/
structure Draft where
  operand : Option String := none
  bindings : List Binding := []
  pretty : Bool := false
  solve : Option String := none
  average : Option Float := none

namespace Draft

/-- Takes the one operand of a command. -/
def setOperand (argument : String) (d : Draft) : Except UsageError Draft :=
  if d.operand.isSome then .error (.extraOperand argument)
  else .ok { d with operand := some argument }

/-- Takes one more binding. -/
def addBinding (switch value : String) (d : Draft) : Except UsageError Draft :=
  match binding? value with
  | some b => .ok { d with bindings := d.bindings ++ [b] }
  | none => .error (.badValue switch value)

def setPretty (d : Draft) : Except UsageError Draft :=
  if d.pretty then .error (.repeated "pretty") else .ok { d with pretty := true }

def setSolve (value : String) (d : Draft) : Except UsageError Draft :=
  if d.solve.isSome then .error (.repeated "solve") else .ok { d with solve := some value }

def setAverage (value : String) (d : Draft) : Except UsageError Draft :=
  if d.average.isSome then .error (.repeated "average")
  else
    match Decimal.read? value with
    | some x => .ok { d with average := some x }
    | none => .error (.badValue "average" value)

/-- The grade to solve for and its average, which go together. -/
def goal (d : Draft) : Except UsageError (Option (String × Float)) :=
  match d.solve, d.average with
  | none, none => .ok none
  | some name, some target => .ok (some (name, target))
  | some _, none => .error (.missingCompanion "solve" "average")
  | none, some _ => .error (.missingCompanion "average" "solve")

end Draft

/-- A kind of command: its name, its switches, and the command that a finished draft makes. -/
structure Kind where
  name : String
  switches : List (Arguments.Switch Draft)
  finish : String → Draft → Except UsageError Command

/-- All kinds of commands. -/
def kinds : List Kind :=
  [⟨"eval", [⟨"var", none, .valued (Draft.addBinding "var")⟩],
      fun expression d => .ok (eval expression d.bindings)⟩,
   ⟨"json", [⟨"pretty", some 'p', .flag Draft.setPretty⟩],
      fun location d => .ok (json location d.pretty)⟩,
   ⟨"grade", [⟨"set", none, .valued (Draft.addBinding "set")⟩,
        ⟨"solve", none, .valued Draft.setSolve⟩, ⟨"average", none, .valued Draft.setAverage⟩],
      fun formula d => do return grade formula d.bindings (← d.goal)⟩]

/-- Reads the arguments of a command of one kind. -/
def Kind.read (kind : Kind) (arguments : List String) : Except UsageError Request := do
  match ← Arguments.read ⟨Draft.setOperand, kind.switches⟩ false arguments {} with
  | none => return .help
  | some draft =>
    match draft.operand with
    | none => throw .missingOperand
    | some operand => return .run (← kind.finish operand draft)

/-- The kind of command with the given name. -/
def kind? (name : String) : Option Kind :=
  kinds.find? (·.name = name)

/-- Reads what follows the word `help`: nothing, or the name of a command. -/
def readHelp : List String → Except UsageError Request
  | [] => .ok .help
  | [name] =>
    if name = "help" || (kind? name).isSome then .ok .help else .error (.unknownCommand name)
  | _ :: argument :: _ => .error (.unknownCommand argument)

/-- Reads a command line. -/
def read : List String → Except UsageError Request
  | [] => .error .missingCommand
  | name :: arguments =>
    match Arguments.Form.of name with
    | .named "help" none | .letters ('h' :: _) => .ok .help
    | .named "version" none | .letters ('V' :: _) => .ok .version
    | .operand =>
      if name = "help" then readHelp arguments
      else
        match kind? name with
        | some kind => kind.read arguments
        | none => .error (.unknownCommand name)
    | _ => .error (.unknownSwitch name)

end Command

end Reckoner
