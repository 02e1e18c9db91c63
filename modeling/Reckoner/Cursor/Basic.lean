import Reckoner.Source.Basic
import Reckoner.Text.Blank
import Reckoner.Text.Quoted

/-!
# Cursors

A cursor reads a source with one character of lookahead. Text handed back to it waits in a queue
that is read before the source, in the order in which it was handed back. The source is let go at
the request it first answers with a stop, and is never asked again (`Source.request`).

What a cursor reads from is left open (`Supply`): it is a source or none, unless it is said to be
something else.
-/

namespace Reckoner

/-- States that characters are read from, each with a bound on how many it still gives. -/
class Supply (σ : Type) where
  read : σ → Option Char × σ
  size : σ → Nat
  size_read : ∀ s, (read s).1.toList.length + size (read s).2 ≤ size s

namespace Source

/-- Asks a source for a character if it is still held, and lets go of it at a stop. Also gives the
replies to what was asked. -/
def request : Option Source → List Reply × Option Char × Option Source
  | none => ([], none, none)
  | some s =>
    match s.ask with
    | (.char c, s) => ([.char c], some c, some s)
    | (.stop how, _) => ([.stop how], none, none)

/-- A source gives no more characters than it has replies left. -/
instance : Supply (Option Source) where
  read s := (request s).2
  size s := s.elim 0 fun s => s.replies.length
  size_read s := by
    rcases s with _ | ⟨_ | ⟨_ | _, rest⟩⟩ <;> simp [request, ask]
    omega

end Source

/-- A reading position. `ahead` has been read from the source and not yet consumed; no source means
that it has been let go. -/
structure Cursor (σ : Type := Option Source) where
  queue : List Char
  ahead : Option Char
  source : σ
  deriving DecidableEq, Repr

namespace Cursor

variable {σ : Type}

/-- The current character, which stays. -/
def peek (c : Cursor σ) : Option Char :=
  c.queue.head?.or c.ahead

/-- Hands text back: it is read after what already waits in the queue. -/
def inject (c : Cursor σ) (cs : List Char) : Cursor σ :=
  { c with queue := c.queue ++ cs }

/-- Whether nothing remains. -/
def isAtEnd (c : Cursor σ) : Bool :=
  c.peek.isNone

/-- What remains to be read. -/
def remaining (c : Cursor) : List Char :=
  c.queue ++ c.ahead.toList ++ c.source.elim [] Source.toList

/-- The cursor's parts, as diagnostics show them. -/
def shown (c : Cursor) : String :=
  "Cursor \x7b open: " ++ toString c.source.isSome
    ++ ", lookahead: " ++ Text.Quoted.option (c.ahead.map Text.Quoted.char)
    ++ ", injected: " ++ Text.Quoted.list (c.queue.map Text.Quoted.char) ++ " \x7d"

variable [Supply σ]

/-- Reads one character from the source, if it is still held, into the lookahead. -/
def refill (queue : List Char) (source : σ) : Cursor σ :=
  let (ahead, source) := Supply.read source
  ⟨queue, ahead, source⟩

/-- A cursor at the start of a source. -/
def ofSource (s : Source) : Cursor :=
  refill [] (some s)

/-- A cursor at the start of a row of characters. -/
def ofList (cs : List Char) : Cursor :=
  ofSource (Source.ofList cs)

/-- A cursor at the start of a text. -/
def ofString (s : String) : Cursor :=
  ofList s.toList

/-- The current character, and the cursor past it. -/
def pop (c : Cursor σ) : Option Char × Cursor σ :=
  match c.queue with
  | x :: queue => (some x, { c with queue })
  | [] => (c.ahead, refill [] c.source)

/-- The number of characters and replies that remain: no reading outlasts it. -/
def size (c : Cursor σ) : Nat :=
  c.queue.length + c.ahead.toList.length + Supply.size c.source

theorem size_refill (queue : List Char) (source : σ) :
    (refill queue source).size ≤ queue.length + Supply.size source := by
  have h := Supply.size_read source
  simp only [refill, size]
  omega

theorem size_inject (c : Cursor σ) (cs : List Char) : (c.inject cs).size = c.size + cs.length := by
  simp only [inject, size, List.length_append]
  omega

theorem size_pop_le (c : Cursor σ) : c.pop.2.size ≤ c.size := by
  rcases c with ⟨_ | ⟨x, queue⟩, ahead, source⟩
  · have := size_refill [] source
    simp only [pop, size, List.length_nil] at *
    omega
  · simp [pop, size]

theorem size_pop_lt {c : Cursor σ} {x : Char} (h : c.peek = some x) : c.pop.2.size < c.size := by
  rcases c with ⟨_ | ⟨y, queue⟩, ahead, source⟩
  · have := size_refill [] source
    simp only [peek, List.head?_nil, Option.none_or] at h
    subst h
    simp only [pop, size, List.length_nil, Option.toList_some, List.length_singleton] at *
    omega
  · simp [pop, size]

theorem pop_fst (c : Cursor σ) : c.pop.1 = c.peek := by
  rcases c with ⟨_ | ⟨x, queue⟩, ahead, source⟩ <;> simp [pop, peek]

end Cursor

end Reckoner
