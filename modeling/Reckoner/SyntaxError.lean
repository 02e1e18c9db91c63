import Reckoner.Text.Quoted

/-!
# Malformed input

The causes for which a rule refuses its input once it is committed to it, with their wording
(`message`) and the form in which test diagnostics show them (`shown`).
-/

namespace Reckoner

/-- Why input is malformed, or why a value cannot be computed from it. -/
inductive SyntaxError where
  /-- A text ends before its closing quote. -/
  | unterminatedString
  /-- A number has a second decimal point. -/
  | multipleDecimalPoints
  /-- A word starts like a truth value but is spelled otherwise. -/
  | invalidBooleanLiteral (expected : Bool) (found : String)
  /-- No rule accepts the character where it stands. -/
  | unexpectedCharacter (c : Char)
  /-- A required delimiter is missing. -/
  | expectedChar (c : Char)
  /-- A required part, such as a key, is missing. -/
  | expectedToken (part : String)
  /-- A call names a calculation that is not registered. -/
  | unknownFunction (name : String)
  /-- A call has too few or too many arguments. -/
  | argumentCountOutOfRange (name : String) (found min max : Nat)
  /-- A divisor is zero. -/
  | divideByZero
  /-- Neither a number nor a name stands where an operand is needed. -/
  | missingTerm
  deriving DecidableEq, Repr

namespace SyntaxError

/-- The wording of the error. -/
def message : SyntaxError → String
  | unterminatedString => "unterminated string literal"
  | multipleDecimalPoints => "multiple decimal points in numeric literal"
  | invalidBooleanLiteral expected found => s!"expected '{expected}', found '{found}'"
  | unexpectedCharacter c => s!"unexpected character '{c}'"
  | expectedChar c => s!"expected '{c}'"
  | expectedToken part => s!"expected {part}"
  | unknownFunction name => s!"unknown function '{name}'"
  | argumentCountOutOfRange name found min max =>
    s!"function '{name}' accepts {min}..={max} arguments, got {found}"
  | divideByZero => "cannot divide by zero"
  | missingTerm => "expected a number, variable, function call or group"

/-- The name of the cause. -/
def kind : SyntaxError → String
  | unterminatedString => "UnterminatedString"
  | multipleDecimalPoints => "MultipleDecimalPoints"
  | invalidBooleanLiteral .. => "InvalidBooleanLiteral"
  | unexpectedCharacter _ => "UnexpectedCharacter"
  | expectedChar _ => "ExpectedChar"
  | expectedToken _ => "ExpectedToken"
  | unknownFunction _ => "UnknownFunction"
  | argumentCountOutOfRange .. => "ArgumentCountOutOfRange"
  | divideByZero => "DivideByZero"
  | missingTerm => "MissingTerm"

/-- The name of the cause and its data, as test diagnostics show them. -/
def shown (e : SyntaxError) : String :=
  match e with
  | invalidBooleanLiteral expected found =>
    e.kind ++ " \x7b expected: " ++ toString expected ++ ", found: " ++ Text.Quoted.text found
      ++ " \x7d"
  | unexpectedCharacter c | expectedChar c => e.kind ++ "(" ++ Text.Quoted.char c ++ ")"
  | expectedToken s | unknownFunction s => e.kind ++ "(" ++ Text.Quoted.text s ++ ")"
  | argumentCountOutOfRange name found min max =>
    e.kind ++ " \x7b name: " ++ Text.Quoted.text name ++ ", found: " ++ toString found
      ++ ", min: " ++ toString min ++ ", max: " ++ toString max ++ " \x7d"
  | _ => e.kind

end SyntaxError

end Reckoner
