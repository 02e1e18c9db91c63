/-!
# Arguments

The arguments of a command are operands and switches. A switch is a flag or takes a value, which
follows it or is attached with an equals sign; a flag may have a letter, and letters may stand
together. An argument that starts with a dash is a switch, and so never the value of the one before
it; a lone dash is none, and after two dashes there are only operands. Arguments are taken one by
one into a draft, so the first that is at fault decides.
-/

namespace Reckoner

/-- Why a command line cannot be used. -/
inductive UsageError where
  | missingCommand
  | unknownCommand (name : String)
  | unknownSwitch (argument : String)
  | missingValue (switch : String)
  | unexpectedValue (switch : String)
  | repeated (switch : String)
  | badValue (switch value : String)
  | missingOperand
  | extraOperand (argument : String)
  | missingCompanion (switch companion : String)
  deriving DecidableEq, Repr

namespace UsageError

/-- The wording of the error. -/
def message : UsageError → String
  | missingCommand => "a command is needed"
  | unknownCommand name => s!"there is no command '{name}'"
  | unknownSwitch argument => s!"unexpected argument '{argument}'"
  | missingValue switch => s!"'--{switch}' needs a value"
  | unexpectedValue switch => s!"'--{switch}' takes no value"
  | repeated switch => s!"'--{switch}' can be given only once"
  | badValue switch value => s!"invalid value '{value}' for '--{switch}'"
  | missingOperand => "an operand is missing"
  | extraOperand argument => s!"unexpected argument '{argument}'"
  | missingCompanion switch companion => s!"'--{switch}' needs '--{companion}'"

end UsageError

namespace Arguments

/-- What a switch does to a draft of type `δ`. -/
inductive Effect (δ : Type) where
  | flag (apply : δ → Except UsageError δ)
  | valued (apply : String → δ → Except UsageError δ)

/-- A switch with its name and, for a flag, perhaps a letter. -/
structure Switch (δ : Type) where
  name : String
  letter : Option Char := none
  effect : Effect δ

/-- The operands and switches of a command. -/
structure Shape (δ : Type) where
  operand : String → δ → Except UsageError δ
  switches : List (Switch δ)

/-- What an argument is by its form. -/
inductive Form where
  | dashes
  | named (name : String) (value : Option String)
  | letters (cs : List Char)
  | operand

/-- The form of an argument. -/
def Form.of (argument : String) : Form :=
  match argument.toList with
  | ['-', '-'] => .dashes
  | '-' :: '-' :: rest =>
    match rest.span (· ≠ '=') with
    | (name, '=' :: value) => .named (String.ofList name) (some (String.ofList value))
    | (name, _) => .named (String.ofList name) none
  | '-' :: c :: cs => .letters (c :: cs)
  | _ => .operand

/-- Whether an argument can stand as the value of the switch before it. -/
def isValue (argument : String) : Bool :=
  Form.of argument matches .operand

variable {δ : Type}

/-- Takes flags given by their letters; nothing is left to do once help is asked for. -/
def readLetters (shape : Shape δ) (argument : String) :
    List Char → δ → Except UsageError (Option δ)
  | [], draft => .ok (some draft)
  | c :: cs, draft =>
    if c = 'h' then .ok none
    else
      match shape.switches.find? (·.letter = some c) with
      | some ⟨_, _, .flag apply⟩ => do readLetters shape argument cs (← apply draft)
      | _ => .error (.unknownSwitch argument)

/-- Takes all arguments into a draft; gives none if help is asked for before an argument is at
fault. `plain` says that two dashes have been seen. -/
def read (shape : Shape δ) (plain : Bool) : List String → δ → Except UsageError (Option δ)
  | [], draft => .ok (some draft)
  | argument :: rest, draft =>
    if plain then do read shape true rest (← shape.operand argument draft)
    else
      match Form.of argument, rest with
      | .operand, rest => do read shape false rest (← shape.operand argument draft)
      | .dashes, rest => read shape true rest draft
      | .letters cs, rest => do
        match ← readLetters shape argument cs draft with
        | none => return none
        | some draft => read shape false rest draft
      | .named "help" none, _ => .ok none
      | .named name value, rest =>
        match (shape.switches.find? (·.name = name)).map Switch.effect, value, rest with
        | none, _, _ => .error (.unknownSwitch argument)
        | some (.flag apply), none, rest => do read shape false rest (← apply draft)
        | some (.flag _), some _, _ => .error (.unexpectedValue name)
        | some (.valued apply), some value, rest => do
          read shape false rest (← apply value draft)
        | some (.valued apply), none, value :: rest =>
          if isValue value then do read shape false rest (← apply value draft)
          else .error (.missingValue name)
        | some (.valued _), none, [] => .error (.missingValue name)

end Arguments

end Reckoner
