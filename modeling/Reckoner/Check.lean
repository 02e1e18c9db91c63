import Reckoner.Expression.Grammar

/-!
# Checks

Helpers for trying out expressions: reading, evaluating, and comparing what comes out with what is
expected. A check that fails says so in a message that names the text it was given.
-/

namespace Reckoner

namespace Check

/-- How a check fails. -/
inductive Failure where
  /-- Two numbers are not close. -/
  | apart (actual expected : Float)
  /-- The text is no expression. -/
  | unread (text : String) (e : SyntaxError)
  /-- The expression has no value. -/
  | unevaluated (text : String) (e : SyntaxError)
  /-- The text gives no result. -/
  | refused (text : String) (e : SyntaxError)
  /-- The text is an expression where an error is expected. -/
  | accepted (text : String) (expected : SyntaxError) (parsed : Expression)
  /-- The error is not the one expected. -/
  | otherError (text : String) (actual expected : SyntaxError)

/-- The wording of the failure. -/
def Failure.message : Failure → String
  | apart actual expected => "expected " ++ Decimal.text expected ++ ", got " ++ Decimal.text actual
  | unread text e => "parse '" ++ text ++ "': " ++ e.message
  | unevaluated text e => "evaluate '" ++ text ++ "': " ++ e.message
  | refused text e => "'" ++ text ++ "': " ++ e.message
  | accepted text expected parsed =>
    "expected " ++ expected.shown ++ " for '" ++ text ++ "', parsed " ++ parsed.prefixForm
  | otherError text actual expected =>
    "assertion \x60left == right\x60 failed: wrong error for '" ++ text ++ "'\n  left: "
      ++ actual.shown ++ "\n right: " ++ expected.shown

/-- How far apart two close numbers may be. -/
def tolerance : Float := 1e-9

/-- That two numbers are close. What is not a number is close to nothing. -/
def close (actual expected : Float) : Except Failure Unit :=
  if (actual - expected).abs ≤ tolerance then .ok () else .error (.apart actual expected)

/-- The value of an expression with calls from `registry`. -/
def evalWith (registry : Registry) (text : String) : Except Failure Float :=
  ((Expression.parse registry text).bind Expression.value).mapError (.refused text)

/-- The value of an expression. -/
def eval (text : String) : Except Failure Float :=
  evalWith .builtin text

/-- The prefix form of an expression. -/
def prefixForm (text : String) : Except Failure String :=
  ((Expression.parse .builtin text).map Expression.prefixForm).mapError (.refused text)

/-- That an expression has a value close to the one expected. -/
def value (text : String) (expected : Float) : Except Failure Unit :=
  match Expression.parse .builtin text with
  | .error e => .error (.unread text e)
  | .ok e =>
    match e.value with
    | .error e => .error (.unevaluated text e)
    | .ok actual => close actual expected

/-- That a text is refused with exactly the error expected. -/
def syntaxError (text : String) (expected : SyntaxError) : Except Failure Unit :=
  match Expression.parse .builtin text with
  | .ok e => .error (.accepted text expected e)
  | .error e => if e = expected then .ok () else .error (.otherError text e expected)

end Check

end Reckoner
