import Reckoner.Calculation.Basic
import Reckoner.Calculation.Builtin
import Reckoner.Calculation.Registry
import Reckoner.Check
import Reckoner.CommandLine.Arguments
import Reckoner.CommandLine.Command
import Reckoner.CommandLine.Run
import Reckoner.Cursor.Basic
import Reckoner.Cursor.Name
import Reckoner.Cursor.Runs
import Reckoner.Cursor.Step
import Reckoner.Decimal.Basic
import Reckoner.Decimal.Magnitude
import Reckoner.Decimal.Nearest
import Reckoner.Decimal.Pieces
import Reckoner.Decimal.Reading
import Reckoner.Decimal.Shortest
import Reckoner.Decimal.Whole
import Reckoner.Expression.Basic
import Reckoner.Expression.Grammar
import Reckoner.Grade.Calculator
import Reckoner.Grade.Error
import Reckoner.Grade.Formula
import Reckoner.Grade.Fraction
import Reckoner.Grade.Record
import Reckoner.Grade.Term
import Reckoner.InputError
import Reckoner.Json.Access
import Reckoner.Json.Basic
import Reckoner.Json.Grammar
import Reckoner.Json.Members
import Reckoner.Json.Text
import Reckoner.Json.Writer
import Reckoner.Literal.Basic
import Reckoner.Literal.Progress
import Reckoner.Loading
import Reckoner.Main
import Reckoner.Operator
import Reckoner.Proofs.Cursor.Outcomes
import Reckoner.Proofs.Cursor.OverList
import Reckoner.Proofs.Cursor.Remaining
import Reckoner.Proofs.Decimal.Bits
import Reckoner.Proofs.Decimal.ReadBack
import Reckoner.Proofs.Decimal.Rounding
import Reckoner.Proofs.Except
import Reckoner.Proofs.Expression.Admission
import Reckoner.Proofs.Expression.Binding
import Reckoner.Proofs.Expression.Construction
import Reckoner.Proofs.Expression.Correctness
import Reckoner.Proofs.Expression.Derivation
import Reckoner.Proofs.Expression.Meaning
import Reckoner.Proofs.Expression.Reading
import Reckoner.Proofs.Expression.Recognition
import Reckoner.Proofs.Json.Acceptance
import Reckoner.Proofs.Json.Contents
import Reckoner.Proofs.Json.Derivation
import Reckoner.Proofs.Json.Reading
import Reckoner.Proofs.Json.RoundTrip
import Reckoner.Proofs.Literal.Apostrophes
import Reckoner.Proofs.Literal.Numeral
import Reckoner.Proofs.Literal.Quotation
import Reckoner.Proofs.Literal.Reading
import Reckoner.Proofs.Literal.Scientific
import Reckoner.Proofs.Text.Spacing
import Reckoner.Source.Basic
import Reckoner.Source.Bytes
import Reckoner.Source.FileTree
import Reckoner.Source.Location
import Reckoner.Source.Resolver
import Reckoner.SyntaxError
import Reckoner.Text.Blank
import Reckoner.Text.Glyph
import Reckoner.Text.Percent
import Reckoner.Text.Quoted
import Reckoner.Text.Split
import Reckoner.Text.Utf8
import Reckoner.Proofs.Json.Sequence
import Reckoner.Proofs.Grade.Fraction
import Reckoner.Proofs.Grade.Shares
import Reckoner.Proofs.Grade.Partition
import Reckoner.Proofs.Grade.Derivation
import Reckoner.Proofs.Grade.Recognition
import Reckoner.Proofs.Grade.Reading
import Reckoner.Proofs.Grade.Weighting
import Reckoner.Proofs.Decimal.Value
import Reckoner.Proofs.Grade.Meaning
import Reckoner.Proofs.Literal.Token
import Reckoner.Proofs.Literal.Recognition
import Reckoner.Proofs.Json.Spelling
import Reckoner.Proofs.Json.Recognition
import Reckoner.Proofs.Literal.Taking
import Reckoner.Proofs.Decimal.Product
import Reckoner.Proofs.Expression.Substitution
import Reckoner.Proofs.Cursor.Pending
import Reckoner.Proofs.Cursor.Refinement
import Reckoner.Proofs.Literal.Front
import Reckoner.Proofs.Literal.Remaining
import Reckoner.Proofs.Literal.Unparsed
import Reckoner.Proofs.Cursor.Alike
import Reckoner.Proofs.Literal.Alike
import Reckoner.Proofs.Expression.Alike
import Reckoner.Proofs.Grade.Alike
import Reckoner.Proofs.Json.Alike
import Reckoner.Proofs.Splits
import Reckoner.Proofs.Text.Encoding
import Reckoner.Proofs.Source.Decoding
import Reckoner.Proofs.Expression.Locality
import Reckoner.Proofs.Decimal.Integer
import Reckoner.Proofs.Grade.Record
import Reckoner.Proofs.Grade.Fitting
import Reckoner.Proofs.Grade.Portion
import Reckoner.Proofs.Grade.Shape
import Reckoner.Proofs.Grade.Counting
import Reckoner.Proofs.Grade.Alignment
import Reckoner.Proofs.Grade.Acceptance
import Reckoner.Proofs.Calculation.Registration
import Reckoner.Proofs.Expression.Extension
import Reckoner.Proofs.Json.Loading
import Reckoner.Proofs.Grade.Completion
import Reckoner.Proofs.Expression.Evaluation
import Reckoner.Proofs.Grade.Lowest
import Reckoner.Proofs.Grade.Operations
import Reckoner.Proofs.Grade.Reduction
import Reckoner.Proofs.Grade.Held
import Reckoner.Proofs.Grade.Signs
import Reckoner.Proofs.Expression.Precedence
import Reckoner.Proofs.Grade.Solution
import Reckoner.Proofs.Json.Writing
import Reckoner.Proofs.Grade.Misreading
import Reckoner.Proofs.Grade.Joining
import Reckoner.Proofs.Grade.Refusal
import Reckoner.Proofs.Json.Entries
import Reckoner.Proofs.Json.Interruption
import Reckoner.Proofs.Literal.Closing
import Reckoner.Proofs.Literal.Longest
import Reckoner.Proofs.Json.Editing
import Reckoner.Proofs.Json.Rearrangement
import Reckoner.Proofs.Json.Making
import Reckoner.Proofs.Termination
import Reckoner.Proofs.Grade.Balance
