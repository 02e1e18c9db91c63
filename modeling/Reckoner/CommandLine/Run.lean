import Reckoner.CommandLine.Command
import Reckoner.Grade.Formula
import Reckoner.Json.Text
import Reckoner.Loading

/-!
# Running commands

What a command prints, or why it cannot; and for a whole command line the two outputs and the exit
status: zero on success, one when the command fails, two when there is no command to run.
-/

namespace Reckoner

namespace Command

/-- Why a command fails. -/
inductive Failure where
  | input (e : InputError)
  | malformed (e : SyntaxError)
  | grade (e : GradeError)
  deriving DecidableEq

/-- The wording of the failure. -/
def Failure.message : Failure → String
  | input e => e.message
  | malformed e => e.message
  | grade e => e.message

/-- The value of an expression; bindings of names that it does not have are passed over. -/
def evaluate (expression : String) (bindings : List Binding) : Except Failure Float :=
  match Expression.parse .builtin expression with
  | .error e => .error (.malformed e)
  | .ok e =>
    let bound := bindings.foldl (fun e b => (e.bind b.1 b.2).2) e
    bound.value.mapError .malformed

/-- Sets all grades, in order. -/
def setAll (c : Calculator Float) (values : List Binding) : Except Failure (Calculator Float) :=
  (values.foldlM (fun (c : Calculator Float) v => c.set v.1 v.2) c).mapError .grade

/-- The line for a grade: name, weighting and value between tabs, a dash for one not set. -/
def gradeLine (g : Grade Float) : String :=
  let value := g.value.elim "-" Decimal.text
  s!"{g.name}\t{g.weighting}\t{value}\n"

/-- The lines for all grades, and the one for their average. -/
def gradeLines (c : Calculator Float) : String :=
  String.join (c.grades.map gradeLine) ++ "average\t" ++ Decimal.text c.average ++ "\n"

/-- What the command prints. -/
def run (r : Resolver) : Command → Except Failure String
  | eval expression bindings => do return Decimal.text (← evaluate expression bindings) ++ "\n"
  | json location pretty =>
    match Json.load r location with
    | .error e => .error (.input e)
    | .ok v => .ok ((if pretty then v.pretty else v.compact) ++ "\n")
  | grade formula values goal =>
    match Formula.parse formula with
    | .error e => .error (.grade e)
    | .ok f => do
      let c ← setAll f.calculator values
      match goal with
      | none => return gradeLines c
      | some (name, target) =>
        return Decimal.text (← (c.required name target).mapError .grade) ++ "\n"

end Command

namespace CommandLine

/-- How a run ends: its exit status, and what it printed as output and as errors. -/
structure Outcome where
  status : Nat
  output : String
  errors : String
  deriving DecidableEq, Repr

/-- What is printed to explain the commands. -/
def help : String :=
  "Usage: tokeval eval EXPRESSION [--var NAME=NUMBER]...\n" ++
  "       tokeval json LOCATION [-p | --pretty]\n" ++
  "       tokeval grade FORMULA [--set NAME=NUMBER]... [--solve NAME --average NUMBER]\n"

/-- A line of errors. -/
def complaint (message : String) : String :=
  "tokeval: " ++ message ++ "\n"

/-- Runs a command line. -/
def run (files : Files) (arguments : List String) : Outcome :=
  match Command.read arguments with
  | .error e => ⟨2, "", complaint e.message ++ help⟩
  | .ok .help => ⟨0, help, ""⟩
  | .ok .version => ⟨0, "tokeval 0.1.0\n", ""⟩
  | .ok (.run command) =>
    match command.run (.standard files) with
    | .ok text => ⟨0, text, ""⟩
    | .error e => ⟨1, "", complaint e.message⟩

/-- The names of the files that a command line may read. -/
def fileNames (arguments : List String) : List String :=
  match Command.read arguments with
  | .ok (.run (.json location _)) => Resolver.fileNames location
  | _ => []

end CommandLine

end Reckoner
