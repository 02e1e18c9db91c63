import Reckoner.Proofs.Cursor.Remaining

/-!
# Cursors as two lists

What a cursor has still to give is two lists, the queue and what comes from the source after it
(`Pending`). A cursor that holds its source just as long as it has a lookahead (`Primed`) acts on
these lists alone: it gives the head of both together, drops from the first and then from the second,
and adds at the end of the first.
-/

namespace Reckoner

open Text

/-- Text to be read: what waits in a queue, and what follows it. -/
structure Pending where
  queue : List Char
  rest : List Char
  deriving DecidableEq, Repr

namespace Pending

/-- Both lists, in the order in which they are read. -/
def toList (p : Pending) : List Char :=
  p.queue ++ p.rest

/-- Leaves out the first `n` characters. -/
def drop (n : Nat) (p : Pending) : Pending :=
  ⟨p.queue.drop n, p.rest.drop (n - p.queue.length)⟩

def peek (p : Pending) : Option Char :=
  p.toList.head?

def pop (p : Pending) : Option Char × Pending :=
  (p.peek, p.drop 1)

def inject (p : Pending) (cs : List Char) : Pending :=
  { p with queue := p.queue ++ cs }

def skipBlanks (p : Pending) : Pending :=
  p.drop (p.toList.takeWhile isBlank).length

def isNext (x : Char) (p : Pending) : Bool × Pending :=
  if p.skipBlanks.peek = some x then (true, p.skipBlanks.drop 1) else (false, p.skipBlanks)

def isAtEnd (p : Pending) : Bool :=
  p.toList.isEmpty

variable {p : Pending}

@[simp] theorem drop_zero (p : Pending) : p.drop 0 = p := by
  simp [drop]

theorem drop_drop (m n : Nat) (p : Pending) : (p.drop m).drop n = p.drop (m + n) := by
  simp only [drop, List.drop_drop, List.length_drop]
  congr 2
  omega

@[simp] theorem toList_drop (n : Nat) (p : Pending) : (p.drop n).toList = p.toList.drop n := by
  rw [toList, drop, toList, List.drop_append]

theorem append_toList_drop_one {x : Char} {cs : List Char} (h : p.toList = x :: cs)
    (taken : List Char) : taken ++ [x] ++ (p.drop 1).toList = taken ++ p.toList := by
  rw [toList_drop, h, List.drop_one, List.tail_cons, List.append_assoc, List.singleton_append]

theorem toList_skipBlanks (p : Pending) : p.skipBlanks.toList = p.toList.dropWhile isBlank := by
  have hcut := List.takeWhile_append_dropWhile (p := isBlank) (l := p.toList)
  rw [skipBlanks, toList_drop]
  calc p.toList.drop (p.toList.takeWhile isBlank).length
      = (p.toList.takeWhile isBlank ++ p.toList.dropWhile isBlank).drop
          (p.toList.takeWhile isBlank).length := by rw [hcut]
    _ = p.toList.dropWhile isBlank := List.drop_left

end Pending

namespace Cursor

/-- What comes after the queue: the lookahead, and what the source still gives. -/
def unread (c : Cursor) : List Char :=
  c.ahead.toList ++ c.source.elim [] Source.toList

/-- What is to be read, in two lists. -/
def pending (c : Cursor) : Pending :=
  ⟨c.queue, c.unread⟩

/-- The source is held just as long as there is a lookahead. -/
def Primed (c : Cursor) : Prop :=
  c.source.isSome = c.ahead.isSome

theorem toList_pending (c : Cursor) : c.pending.toList = c.remaining := by
  rw [pending, Pending.toList, unread, remaining, List.append_assoc]

theorem primed_refill (queue : List Char) (source : Option Source) :
    (refill queue source).Primed := by
  rcases source with _ | ⟨_ | ⟨_ | _, rest⟩⟩ <;> rfl

theorem primed_ofSource (s : Source) : (ofSource s).Primed :=
  primed_refill [] (some s)

theorem pending_refill (queue : List Char) (source : Option Source) :
    (refill queue source).pending = ⟨queue, source.elim [] Source.toList⟩ :=
  congrArg (Pending.mk queue) (Source.toList_request source)

theorem pending_ofSource (s : Source) : (ofSource s).pending = ⟨[], s.toList⟩ :=
  pending_refill [] (some s)

theorem pending_ofList (cs : List Char) : (ofList cs).pending = ⟨[], cs⟩ := by
  rw [ofList, pending_ofSource, Source.toList_ofList]

theorem pending_inject (c : Cursor) (cs : List Char) :
    (c.inject cs).pending = c.pending.inject cs := rfl

namespace Primed

variable {c : Cursor}

theorem inject (h : c.Primed) (cs : List Char) : (c.inject cs).Primed :=
  h

theorem pop (h : c.Primed) : c.pop.2.Primed := by
  rcases c with ⟨_ | ⟨x, queue⟩, ahead, source⟩
  · exact primed_refill [] source
  · exact h

theorem peek_eq (h : c.Primed) : c.peek = c.pending.peek := by
  rcases c with ⟨_ | ⟨x, queue⟩, _ | y, _ | s⟩ <;> first | rfl | cases h

theorem pending_pop (h : c.Primed) : c.pop.2.pending = c.pending.drop 1 := by
  rcases c with ⟨_ | ⟨x, queue⟩, ahead, source⟩
  · rw [Cursor.pop, pending_refill]
    rcases ahead with _ | y <;> rcases source with _ | s <;> first | rfl | cases h
  · simp [Cursor.pop, pending, Pending.drop, unread]

theorem queue_pop (h : c.Primed) : c.pop.2.queue = c.queue.drop 1 :=
  congrArg Pending.queue h.pending_pop

theorem takeWhile (h : c.Primed) (test : Char → Bool) : (c.takeWhile test).2.Primed := by
  fun_induction Cursor.takeWhile test c with
  | case1 => exact h
  | case2 c x _ _ xs rest heq ih =>
    simp only [heq] at ih
    exact ih h.pop
  | case3 => exact h

/-- A run is one of the two lists together. -/
theorem takeWhile_eq (h : c.Primed) (test : Char → Bool) :
    (c.takeWhile test).1 = c.pending.toList.takeWhile test ∧
      (c.takeWhile test).2.pending = c.pending.drop (c.pending.toList.takeWhile test).length := by
  fun_induction Cursor.takeWhile test c with
  | case1 c hp =>
    rw [h.peek_eq, Pending.peek, List.head?_eq_none_iff] at hp
    simp [hp]
  | case2 c x hp ht xs rest heq ih =>
    obtain ⟨hfst, hsnd⟩ := ih h.pop
    rw [heq, h.pending_pop, Pending.toList_drop] at hfst hsnd
    rw [h.peek_eq, Pending.peek, List.head?_eq_some_iff] at hp
    obtain ⟨post, hpost⟩ := hp
    simp only [hpost, List.drop_one, List.tail_cons] at hfst hsnd
    rw [hpost, List.takeWhile_cons_of_pos ht, ← hfst]
    refine ⟨rfl, ?_⟩
    rw [← hfst, Pending.drop_drop] at hsnd
    rw [hsnd, List.length_cons, Nat.add_comm]
  | case3 c x hp ht =>
    rw [h.peek_eq, Pending.peek, List.head?_eq_some_iff] at hp
    obtain ⟨post, hpost⟩ := hp
    rw [hpost, List.takeWhile_cons_of_neg ht]
    simp

theorem skipBlanks (h : c.Primed) : c.skipBlanks.Primed :=
  h.takeWhile isBlank

theorem pending_skipBlanks (h : c.Primed) : c.skipBlanks.pending = c.pending.skipBlanks :=
  (h.takeWhile_eq isBlank).2

theorem remaining_skipBlanks (h : c.Primed) :
    c.skipBlanks.remaining = c.remaining.dropWhile isBlank := by
  rw [← toList_pending, ← toList_pending, h.pending_skipBlanks, Pending.toList_skipBlanks]

theorem queue_skipBlanks (h : c.Primed) :
    c.skipBlanks.queue = c.queue.drop (c.remaining.takeWhile isBlank).length := by
  rw [← toList_pending]
  exact congrArg Pending.queue h.pending_skipBlanks

theorem isNext (h : c.Primed) (x : Char) : (c.isNext x).2.Primed := by
  simp only [Cursor.isNext]
  split
  · exact h.skipBlanks.pop
  · exact h.skipBlanks

theorem isNext_eq (h : c.Primed) (x : Char) :
    (c.isNext x).1 = (c.pending.isNext x).1 ∧
      (c.isNext x).2.pending = (c.pending.isNext x).2 := by
  have hs := h.pending_skipBlanks
  simp only [Cursor.isNext, Pending.isNext, h.skipBlanks.peek_eq, hs]
  split
  · exact ⟨rfl, by rw [h.skipBlanks.pending_pop, hs]⟩
  · exact ⟨rfl, hs⟩

theorem isAtEnd_eq (h : c.Primed) : c.isAtEnd = c.pending.isAtEnd := by
  rw [isAtEnd, h.peek_eq, Pending.peek, Pending.isAtEnd]
  cases c.pending.toList <;> rfl

end Primed

end Cursor

end Reckoner
