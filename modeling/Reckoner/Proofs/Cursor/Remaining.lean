import Reckoner.Cursor.Runs

/-!
# What remains

Whatever the queue, the lookahead and the source hold, reading takes from the front of what remains
(`Cursor.remaining_of_peek`), so the characters a run gives and those that remain after it are
together those that remained before (`Cursor.takeWhile_append_remaining`,
`Cursor.take_append_remaining`). Text handed back is added, though not always in front
(`Cursor.perm_remaining_inject`). What a run does next depends on the next character
(`Cursor.takeWhile_of_pos`, `Cursor.take_of_peek`).
-/

namespace Reckoner

/-- A request takes the first character, if there is one, from those that the source still gives. -/
theorem Source.toList_request (source : Option Source) :
    (request source).2.1.toList ++ (request source).2.2.elim [] toList = source.elim [] toList := by
  rcases source with _ | ⟨_ | ⟨_ | _, rest⟩⟩ <;> simp [request, ask, toList]

namespace Cursor

theorem remaining_refill (source : Option Source) :
    (refill [] source).remaining = source.elim [] Source.toList :=
  Source.toList_request source

theorem remaining_ofList (cs : List Char) : (ofList cs).remaining = cs := by
  rw [ofList, ofSource, remaining_refill, Option.elim_some, Source.toList_ofList]

theorem remaining_of_peek {c : Cursor} {x : Char} (h : c.peek = some x) :
    c.remaining = x :: c.pop.2.remaining := by
  rcases c with ⟨_ | ⟨y, queue⟩, ahead, source⟩
  · simp only [peek, List.head?_nil, Option.none_or] at h
    subst h
    simp only [pop, remaining_refill]
    rfl
  · simp only [peek, List.head?_cons, Option.some_or, Option.some.injEq] at h
    subst h
    rfl

theorem remaining_of_peek_none {c : Cursor} (h : c.peek = none) :
    c.pop.2.remaining = c.remaining := by
  rcases c with ⟨_ | ⟨y, queue⟩, ahead, source⟩
  · simp only [peek, List.head?_nil, Option.none_or] at h
    subst h
    simp only [pop, remaining_refill]
    rfl
  · simp [peek] at h

theorem takeWhile_append_remaining (test : Char → Bool) (c : Cursor) :
    (c.takeWhile test).1 ++ (c.takeWhile test).2.remaining = c.remaining := by
  fun_induction takeWhile test c with
  | case1 => rfl
  | case2 c x h _ xs rest heq ih =>
    simp only [heq] at ih
    rw [remaining_of_peek h, ← ih]
    rfl
  | case3 => rfl

theorem take_append_remaining (n : Nat) (c : Cursor) :
    (c.take n).1 ++ (c.take n).2.remaining = c.remaining := by
  fun_induction take n c with
  | case1 => rfl
  | case2 c n rest h =>
    have hp : c.peek = none := by rw [← pop_fst, h]
    rw [← remaining_of_peek_none hp, h]
    rfl
  | case3 c n x rest h xs rest' heq ih =>
    have hp : c.peek = some x := by rw [← pop_fst, h]
    simp only [heq] at ih
    rw [remaining_of_peek hp, h, ← ih]
    rfl

theorem perm_remaining_inject (c : Cursor) (cs : List Char) :
    (c.inject cs).remaining.Perm (cs ++ c.remaining) := by
  simp only [remaining, inject, List.append_assoc]
  exact List.perm_append_comm_assoc ..

theorem skipBlanks_suffix (c : Cursor) : c.skipBlanks.remaining <:+ c.remaining :=
  ⟨_, takeWhile_append_remaining Text.isBlank c⟩

theorem take_suffix (n : Nat) (c : Cursor) : (c.take n).2.remaining <:+ c.remaining :=
  ⟨_, take_append_remaining n c⟩

theorem pop_suffix (c : Cursor) : c.pop.2.remaining <:+ c.remaining := by
  rcases h : c.peek with _ | x
  · simp only [remaining_of_peek_none h, List.suffix_rfl]
  · rw [remaining_of_peek h]
    exact List.suffix_cons x _

theorem isNext_suffix (x : Char) (c : Cursor) : (c.isNext x).2.remaining <:+ c.remaining := by
  simp only [isNext]
  split
  · exact (pop_suffix _).trans c.skipBlanks_suffix
  · exact c.skipBlanks_suffix

section Equations

variable {σ : Type} [Supply σ] {c : Cursor σ} {test : Char → Bool} {x : Char}

theorem takeWhile_of_peek_none (h : c.peek = none) : c.takeWhile test = ([], c) := by
  rw [takeWhile]
  split
  · rfl
  · rename_i hx
    cases h.symm.trans hx

theorem takeWhile_of_pos (h : c.peek = some x) (ht : test x = true) :
    c.takeWhile test = (x :: (c.pop.2.takeWhile test).1, (c.pop.2.takeWhile test).2) := by
  rw [takeWhile]
  split
  · rename_i hx
    cases h.symm.trans hx
  · rename_i hx
    cases h.symm.trans hx
    exact if_pos ht

theorem takeWhile_of_neg (h : c.peek = some x) (ht : ¬ test x = true) :
    c.takeWhile test = ([], c) := by
  rw [takeWhile]
  split
  · rfl
  · rename_i hx
    cases h.symm.trans hx
    exact if_neg ht

theorem take_of_peek_none (h : c.peek = none) (n : Nat) : c.take (n + 1) = ([], c.pop.2) := by
  have hp := c.pop_fst
  rcases hc : c.pop with ⟨x, d⟩
  rw [hc, h] at hp
  obtain rfl : x = none := hp
  rw [take, hc]

theorem take_of_peek (h : c.peek = some x) (n : Nat) :
    c.take (n + 1) = (x :: (c.pop.2.take n).1, (c.pop.2.take n).2) := by
  have hp := c.pop_fst
  rcases hc : c.pop with ⟨y, d⟩
  rw [hc, h] at hp
  obtain rfl : y = some x := hp
  rw [take, hc]

end Equations

theorem skipBlanks_eq (c : Cursor) :
    c.skipBlanks = if c.peek.any Text.isBlank then c.pop.2.skipBlanks else c := by
  rw [skipBlanks, takeWhile]
  split
  · rename_i hp
    simp [hp]
  · rename_i x hp
    rw [hp, Option.any_some]
    split <;> rfl

theorem skipBlanks_skipBlanks (c : Cursor) : c.skipBlanks.skipBlanks = c.skipBlanks := by
  rw [skipBlanks, skipBlanks]
  fun_induction takeWhile Text.isBlank c with
  | case1 c h => rw [takeWhile_of_peek_none h]
  | case2 c x h _ xs rest heq ih =>
    rw [heq] at ih
    exact ih
  | case3 c x h hx => rw [takeWhile_of_neg h hx]

end Cursor

end Reckoner
