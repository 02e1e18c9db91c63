import Reckoner.Decimal.Pieces
import Reckoner.Json.Text

/-!
# Writing JSON to a sink

A sink takes text in pieces and refuses a piece that does not fit. A writer sends the pieces of a
value in order and stops at the first that is refused. It keeps the depth it writes at; after a
refusal that stays what it was at that piece.
-/

namespace Reckoner

/-- A destination for text, with room for a number of bytes in all, or for any number. -/
structure Sink where
  text : List Char
  room : Option Nat

/-- How many bytes the characters take in UTF-8. -/
def byteCount : List Char → Nat
  | [] => 0
  | c :: cs => c.utf8Size + byteCount cs

/-- Adds a piece, or refuses it and keeps what there was. -/
def Sink.take (s : Sink) (piece : List Char) : Bool × Sink :=
  if s.room.all fun room => byteCount s.text + byteCount piece ≤ room then
    (true, { s with text := s.text ++ piece })
  else (false, s)

namespace Json

/-- Sends values to a sink. -/
structure Writer where
  sink : Sink
  indent : Bool
  depth : Nat

namespace Writer

/-- Something that is written: whether all of it was taken, and the writer after it. -/
abbrev Action : Type := Writer → Bool × Writer

/-- Sends one piece. -/
def piece (cs : List Char) : Action := fun w =>
  let (taken, sink) := w.sink.take cs
  (taken, { w with sink })

/-- Writes `a`, and then `b` unless a piece of `a` was refused. -/
def andThen (a b : Action) : Action := fun w =>
  match a w with
  | (true, w) => b w
  | (false, w) => (false, w)

/-- Writes nothing. -/
def done : Action := fun w => (true, w)

/-- Sends pieces in order. -/
def pieces : List (List Char) → Action
  | [] => done
  | p :: ps => andThen (piece p) (pieces ps)

/-- Goes one level deeper. -/
def deepen : Action := fun w => (true, { w with depth := w.depth + 1 })

/-- Comes back up one level. -/
def rise : Action := fun w => (true, { w with depth := w.depth - 1 })

/-- Starts a new line at the present depth, one character at a time, if lines are used. -/
def newLine : Action := fun w =>
  if w.indent then pieces (['\n'] :: List.replicate w.depth ['\t']) w else (true, w)

/-- Writes a string: a quote, the content, a quote. -/
def quoted (s : String) : Action :=
  pieces [['"'], s.toList, ['"']]

/-- Writes what stands between a key and its value. -/
def separator : Action := fun w =>
  piece (colon w.indent) w

/-- Writes a number, piece by piece, or null for one that is not finite. -/
def number (n : Float) : Action :=
  if n.isFinite then pieces (Decimal.ofRank (hasMinus n) (rankOfFloat n)).pieces
  else piece "null".toList

end Writer

open Writer in
mutual

/-- Writes a value. -/
def write : Json → Action
  | object [] => piece ['\x7b', '\x7d']
  | object (m :: ms) =>
    andThen (andThen (piece ['\x7b']) deepen)
      (andThen (writeMembers (m :: ms)) (andThen (andThen rise newLine) (piece ['\x7d'])))
  | array [] => piece ['[', ']']
  | array (v :: vs) =>
    andThen (andThen (piece ['[']) deepen)
      (andThen (writeItems (v :: vs)) (andThen (andThen rise newLine) (piece [']'])))
  | number n => Writer.number n
  | boolean b => piece (toString b).toList
  | string s => Writer.quoted s
  | null => piece "null".toList

/-- Writes members, each on a line of its own, with commas between them. -/
def writeMembers : List (String × Json) → Action
  | [] => done
  | (k, v) :: rest =>
    andThen (andThen newLine (andThen (Writer.quoted k) (andThen separator (write v))))
      (andThen (if rest.isEmpty then done else piece [',']) (writeMembers rest))

/-- Writes items, each on a line of its own, with commas between them. -/
def writeItems : List Json → Action
  | [] => done
  | v :: rest =>
    andThen (andThen newLine (write v))
      (andThen (if rest.isEmpty then done else piece [',']) (writeItems rest))

end

end Json

end Reckoner
