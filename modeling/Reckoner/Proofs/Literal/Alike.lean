import Reckoner.Json.Grammar
import Reckoner.Proofs.Cursor.Alike
import Reckoner.Proofs.Literal.Front

/-!
# Literals of one text in two cursors

A text and a truth value are read alike wherever the same text remains. The number rule holds in both
cursors the same front of a numeral (`Holding`). What it hands back has no digit, so nothing waits
behind it in either queue unless both queues are equal, and the cursors are alike afterwards
(`Holding.settle`).
-/

namespace Reckoner

open Text Cursor

theorem not_isQuote_of_startsNumeral {x : Char} (h : (isSign x || inNumeral x) = true) :
    isQuote x = false := by
  by_contra hq
  simp only [isQuote, Bool.not_eq_false, Bool.or_eq_true, decide_eq_true_eq] at hq
  rcases hq with rfl | rfl <;> exact absurd h (by decide)

theorem solid_of_startsNumeral {x : Char} (h : (isSign x || inNumeral x) = true) :
    (isBlank x || isQuote x) = false := by
  rw [isBlank_of_startsNumeral h, not_isQuote_of_startsNumeral h]
  rfl

theorem solid_of_isMark {x : Char} (h : isMark x = true) : (isBlank x || isQuote x) = false := by
  simp only [isMark, Bool.or_eq_true, decide_eq_true_eq] at h
  rcases h with rfl | rfl <;> rfl

namespace Pending

variable {p : Pending} {taken : List Char} {x : Char}

/-- With a digit in hand nothing is loose. -/
theorem not_loose_of_digit (ht : IsFront taken) (hd : taken.any Char.isDigit = true) :
    ¬ p.Loose taken := by
  rintro ⟨-, hnone, -⟩
  have hne : taken ≠ [] := by
    rintro rfl
    cases hd
  rw [numeralFront_append_of_ne_nil ht.numeralFront_eq hne, List.any_append, hd, Bool.true_or] at hnone
  cases hnone

theorem Loose.of_drop_one {cs : List Char} (hp : p.toList = x :: cs)
    (h : (p.drop 1).Loose (taken ++ [x])) : p.Loose taken := by
  have htext := append_toList_drop_one hp taken
  obtain ⟨hne, hnone, hlt⟩ := h
  rw [htext] at hne hnone hlt
  refine ⟨hne, hnone, ?_⟩
  have hqueue : (p.drop 1).queue.length = p.queue.length - 1 := List.length_drop
  rw [hqueue, List.length_append, List.length_singleton] at hlt
  omega

/-- Where the front ends here and has no digit, nothing waits unless something is loose. -/
theorem queue_eq_nil (h : IsFront taken) (hne : taken ≠ []) (hd : taken.any Char.isDigit = false)
    (hstop : ∀ x ∈ p.toList.head?, Literal.continues taken x = false ∧ x ≠ '.')
    (hl : ¬ p.Loose taken) : p.queue = [] := by
  by_contra hq
  refine hl ?_
  rw [Loose, h.numeralFront_append hstop, Nat.sub_self]
  exact ⟨hne, hd, List.length_pos_iff.2 hq⟩

end Pending

namespace Literal

variable {opens : Char → Bool} {b : Bool} {c d : Cursor} {taken : List Char} {x : Char}

/-- The number rule holds `taken` over two cursors that are alike, and what it may hand back is not
loose in either queue. -/
structure Holding (opens : Char → Bool) (taken : List Char) (c d : Cursor) : Prop where
  front : IsFront taken
  alike : Alike opens (.outside false) c d
  tight : c.queue = d.queue ∨ ¬ c.pending.Loose taken ∧ ¬ d.pending.Loose taken

theorem not_loose_of_clear (h : Clear opens (.outside true) c.queue c.unread) :
    ¬ c.pending.Loose [] := by
  rcases hq : c.queue with _ | ⟨x, queue⟩
  · rintro ⟨-, -, hlt⟩
    rw [pending, hq] at hlt
    exact absurd hlt (Nat.not_lt_zero _)
  · rw [hq] at h
    rw [pending, hq]
    exact h.1 rfl

/-- Where a number may be read, the rule begins. -/
theorem holding_nil (h : Alike opens (.outside true) c d) : Holding opens [] c d :=
  ⟨isFront_nil, h.calm,
    h.split.imp_right fun ⟨hc, hd⟩ => ⟨not_loose_of_clear hc, not_loose_of_clear hd⟩⟩

namespace Holding

theorem pop (h : Holding opens taken c d) (hp : c.peek = some x) (hx : continues taken x = true) :
    Holding opens (taken ++ [x]) c.pop.2 d.pop.2 := by
  have halike := h.alike.pop hp
  rw [Place.next_outside (solid_of_startsNumeral (startsNumeral_of_continues hx))] at halike
  have hd : d.peek = some x := h.alike.peek_eq ▸ hp
  have hloose : ∀ {e : Cursor}, e.Primed → e.peek = some x → ¬ e.pending.Loose taken →
      ¬ e.pop.2.pending.Loose (taken ++ [x]) := by
    intro e he hx hl hpop
    rw [he.pending_pop] at hpop
    exact hl (hpop.of_drop_one ((toList_pending e).trans (remaining_of_peek hx)))
  refine ⟨h.front.append_singleton hx, halike.calm, h.tight.imp (fun hq => ?_) fun ⟨hc, hd'⟩ =>
    ⟨hloose h.alike.left hp hc, hloose h.alike.right hd hd'⟩⟩
  rw [h.alike.left.queue_pop, h.alike.right.queue_pop, hq]

/-- Where the rule stops and holds no digit, the queues are equal. -/
theorem queue_eq (h : Holding opens taken c d) (hne : taken ≠ [])
    (hdigit : taken.any Char.isDigit = false)
    (hstop : ∀ x ∈ c.remaining.head?, continues taken x = false ∧ x ≠ '.') : c.queue = d.queue := by
  have hstop' : ∀ x ∈ d.remaining.head?, continues taken x = false ∧ x ≠ '.' := by
    rwa [← h.alike.remaining_eq]
  rw [← toList_pending] at hstop hstop'
  rcases h.tight with hq | ⟨hc, hd⟩
  · exact hq
  · calc c.queue = [] := Pending.queue_eq_nil h.front hne hdigit hstop hc
      _ = d.queue := (Pending.queue_eq_nil h.front hne hdigit hstop' hd).symm

/-- What the rule holds where it stops is read alike or handed back alike. -/
theorem settle (h : Holding opens taken c d)
    (hstop : ∀ x ∈ c.remaining.head?, continues taken x = false ∧ x ≠ '.') :
    Agrees opens (settle taken c) (settle taken d) ∧
      (c.queue = d.queue → (Literal.settle taken c).2.queue = (Literal.settle taken d).2.queue) := by
  by_cases hdigit : taken.any Char.isDigit = true
  · rw [Literal.settle, Literal.settle, if_pos hdigit, if_pos hdigit]
    exact ⟨.ok h.alike _, id⟩
  · rw [Literal.settle, Literal.settle, if_neg hdigit, if_neg hdigit]
    refine ⟨.ok (b := false) ?_ _, congrArg (· ++ taken)⟩
    by_cases hne : taken = []
    · subst hne
      simpa only [inject, List.append_nil] using h.alike
    · exact h.alike.inject (h.queue_eq hne (by simpa using hdigit) hstop) taken

end Holding

theorem agrees_scanPlain (h : Holding opens taken c d) :
    Agrees opens (scanPlain taken c) (scanPlain taken d) ∧
      (c.queue = d.queue → (scanPlain taken c).2.queue = (scanPlain taken d).2.queue) := by
  fun_induction scanPlain taken c generalizing d with
  | case1 taken c hp =>
    rw [scanPlain_of_peek_none (h.alike.peek_eq ▸ hp)]
    exact h.settle (stop_of_peek_none h.alike.left hp)
  | case2 taken c x hp hx ih =>
    have hd : d.peek = some x := h.alike.peek_eq ▸ hp
    rw [scanPlain_of_peek hd, if_pos hx]
    obtain ⟨hagrees, hqueue⟩ := ih (h.pop hp hx)
    refine ⟨hagrees, fun hq => hqueue ?_⟩
    rw [h.alike.left.queue_pop, h.alike.right.queue_pop, hq]
  | case3 taken c hp hx =>
    have hd : d.peek = some '.' := h.alike.peek_eq ▸ hp
    rw [scanPlain_of_peek hd, if_neg hx, if_pos rfl]
    exact ⟨.error h.alike _, id⟩
  | case4 taken c x hp hx hdot =>
    have hd : d.peek = some x := h.alike.peek_eq ▸ hp
    rw [scanPlain_of_peek hd, if_neg hx, if_neg hdot]
    exact h.settle (stop_of_peek_some hp hx hdot)

/-- A number without an exponent is read alike where one may be read. -/
theorem agrees_readPlain (h : Alike opens (.outside true) c d) :
    Agrees opens (readPlain c) (readPlain d) :=
  (agrees_scanPlain (holding_nil h.skipBlanks)).1

theorem queue_readPlain (h : Alike opens (.outside true) c d) (hq : c.queue = d.queue) :
    (readPlain c).2.queue = (readPlain d).2.queue := by
  refine (agrees_scanPlain (holding_nil h.skipBlanks)).2 ?_
  rw [h.left.queue_skipBlanks, h.right.queue_skipBlanks, hq, h.remaining_eq]

/-- Behind a mark a number may be read, and what the rule holds then has a digit or comes from equal
queues. -/
theorem Holding.mark (h : Holding opens taken c d) (hp : c.peek = some x)
    (hx : ¬ continues taken x = true) (hdot : ¬ x = '.')
    (hmark : (isMark x && !taken.isEmpty) = true) (hopens : ∀ x, isMark x = true → opens x = true) :
    Alike opens (.outside true) c.pop.2 d.pop.2 ∧
      (taken.any Char.isDigit = true ∨ c.pop.2.queue = d.pop.2.queue) := by
  rw [Bool.and_eq_true] at hmark
  have hpop := h.alike.pop hp
  rw [Place.next_outside (solid_of_isMark hmark.1), hopens x hmark.1] at hpop
  refine ⟨hpop, ?_⟩
  -- The front ends in front of the mark: without a digit it reaches to the end of both queues.
  by_cases hdigit : taken.any Char.isDigit = true
  · exact .inl hdigit
  · have hq := h.queue_eq (by simpa using hmark.2) (by simpa using hdigit)
      (stop_of_peek_some hp hx hdot)
    exact .inr (by rw [h.alike.left.queue_pop, h.alike.right.queue_pop, hq])

theorem any_isDigit_withUnit (h : taken.any Char.isDigit = true) :
    (withUnit taken).any Char.isDigit = true := by
  rw [withUnit]
  split
  · rw [List.any_append, h, Bool.true_or]
  · exact h

/-- Where no exponent follows the mark, the rule goes on with what it holds. -/
theorem holding_withUnit (ht : IsFront taken) (h : Alike opens (.outside true) c d)
    (hdigit : taken.any Char.isDigit = true ∨ c.queue = d.queue)
    (hnone : (readPlain c).1 = .ok none) :
    Holding opens (withUnit taken) (readPlain c).2 (readPlain d).2 := by
  refine ⟨ht.withUnit, (agrees_readPlain h).alike none hnone, ?_⟩
  rcases hdigit with hdigit | hq
  · have hunit := any_isDigit_withUnit hdigit
    exact .inr ⟨Pending.not_loose_of_digit ht.withUnit hunit,
      Pending.not_loose_of_digit ht.withUnit hunit⟩
  · exact .inl (queue_readPlain h hq)

theorem agrees_scanScientific (hopens : ∀ x, isMark x = true → opens x = true)
    (h : Holding opens taken c d) :
    Agrees opens (scanScientific taken c) (scanScientific taken d) := by
  fun_induction scanScientific taken c generalizing d with
  | case1 taken c hp =>
    rw [scanScientific_of_peek_none (h.alike.peek_eq ▸ hp)]
    exact (h.settle (stop_of_peek_none h.alike.left hp)).1
  | case2 taken c x hp hx ih =>
    have hd : d.peek = some x := h.alike.peek_eq ▸ hp
    rw [scanScientific_of_peek hd, if_pos hx]
    exact ih (h.pop hp hx)
  | case3 taken c hp hx =>
    have hd : d.peek = some '.' := h.alike.peek_eq ▸ hp
    rw [scanScientific_of_peek hd, if_neg hx, if_pos rfl]
    exact .error h.alike _
  | case4 taken c x hp hx hdot hmark after e =>
    rename_i he
    have hread := agrees_readPlain (h.mark hp hx hdot hmark hopens).1
    rw [scanScientific_of_mark (h.alike.peek_eq ▸ hp) hx hdot hmark,
      hread.result_eq.symm.trans he]
    exact ⟨⟨rfl, hread.remaining_eq⟩, fun _ ha => by cases ha⟩
  | case5 taken c x hp hx hdot hmark taken' after power =>
    rename_i hpower
    have hread := agrees_readPlain (h.mark hp hx hdot hmark hopens).1
    rw [scanScientific_of_mark (h.alike.peek_eq ▸ hp) hx hdot hmark,
      hread.result_eq.symm.trans hpower]
    exact ⟨⟨rfl, hread.remaining_eq⟩, fun _ _ => hread.alike _ hpower⟩
  | case6 taken c x hp hx hdot hmark taken' after hnone =>
    rename_i ih
    obtain ⟨hpop, hdigit⟩ := h.mark hp hx hdot hmark hopens
    rw [scanScientific_of_mark (h.alike.peek_eq ▸ hp) hx hdot hmark,
      (agrees_readPlain hpop).result_eq.symm.trans hnone]
    exact ih (holding_withUnit h.front hpop hdigit hnone)
  | case7 taken c x hp hx hdot hmark =>
    have hd : d.peek = some x := h.alike.peek_eq ▸ hp
    rw [scanScientific_of_peek hd, if_neg hx, if_neg hdot, if_neg (by exact hmark)]
    exact (h.settle (stop_of_peek_some hp hx hdot)).1

/-- A number is read alike where one may be read. -/
theorem agrees_readNumber {exponent : Bool}
    (hopens : exponent = true → ∀ x, isMark x = true → opens x = true)
    (h : Alike opens (.outside true) c d) :
    Agrees opens (readNumber exponent c) (readNumber exponent d) := by
  cases exponent with
  | false => exact agrees_readPlain h
  | true => exact agrees_scanScientific (hopens rfl) (holding_nil h.skipBlanks)

theorem content_of_peek_none {quote : Char} {escaped : Bool} (h : c.peek = none) :
    content quote escaped c = (none, c.pop.2) := by
  rw [content]
  split
  · rfl
  · rename_i hx
    cases h.symm.trans hx

theorem content_of_peek {quote : Char} {escaped : Bool} (h : c.peek = some x) :
    content quote escaped c = if !escaped && x = quote then (some [], c.pop.2)
      else ((content quote (!escaped && x = '\\') c.pop.2).1.map (x :: ·),
        (content quote (!escaped && x = '\\') c.pop.2).2) := by
  rw [content]
  split
  · rename_i hx
    cases h.symm.trans hx
  · rename_i hx
    cases h.symm.trans hx
    rfl

/-- Between quotes both cursors come to the same end. -/
theorem content_alike {quote : Char} {escaped : Bool}
    (h : Alike opens (.quoted quote escaped) c d) :
    (content quote escaped c).1 = (content quote escaped d).1 ∧
      (content quote escaped c).2.remaining = (content quote escaped d).2.remaining ∧
      ((content quote escaped c).1.isSome →
        Alike opens (.outside false) (content quote escaped c).2 (content quote escaped d).2) := by
  fun_induction content quote escaped c generalizing d with
  | case1 escaped c hp =>
    rw [content_of_peek_none (h.peek_eq ▸ hp)]
    exact ⟨rfl, (h.pop_none hp).remaining_eq, fun hs => by cases hs⟩
  | case2 escaped c x hp hx =>
    have hd : d.peek = some x := h.peek_eq ▸ hp
    have hpop := h.pop hp
    rw [Place.next, if_pos hx] at hpop
    rw [content_of_peek hd, if_pos hx]
    exact ⟨rfl, hpop.remaining_eq, fun _ => hpop⟩
  | case3 escaped c x hp hx body rest heq ih =>
    have hd : d.peek = some x := h.peek_eq ▸ hp
    have hpop := h.pop hp
    rw [Place.next, if_neg hx] at hpop
    obtain ⟨hfst, hrest, halike⟩ := ih hpop
    rw [heq] at hfst hrest halike
    rw [content_of_peek hd, if_neg hx]
    refine ⟨congrArg (Option.map (x :: ·)) hfst, hrest, fun hs => halike ?_⟩
    rwa [Option.isSome_map] at hs

theorem agrees_readString (h : Alike opens (.outside b) c d) :
    Agrees opens (readString c) (readString d) := by
  have hs := h.skipBlanks
  simp only [readString, ← hs.peek_eq]
  cases hp : c.skipBlanks.peek with
  | none => exact .ok hs none
  | some quote =>
    dsimp only
    split
    · rename_i hquote
      have hpop := hs.pop hp
      rw [Place.next_of_isQuote hquote] at hpop
      obtain ⟨hfst, hrest, halike⟩ := content_alike hpop
      rcases hc : content quote false c.skipBlanks.pop.2 with ⟨_ | body, c'⟩ <;>
        rcases hd : content quote false d.skipBlanks.pop.2 with ⟨_ | body', d'⟩ <;>
        rw [hc, hd] at hfst hrest halike
      · exact ⟨⟨rfl, hrest⟩, fun _ ha => by cases ha⟩
      · cases hfst
      · cases hfst
      · cases hfst
        exact ⟨⟨rfl, hrest⟩, fun _ _ => halike rfl⟩
    · exact .ok hs none

theorem agrees_readWord (expected : Bool) (h : Alike opens (.outside b) c d) :
    Agrees opens (readWord expected c) (readWord expected d) := by
  obtain ⟨hfst, hrest⟩ := h.calm.take (word expected).length
  simp only [readWord, ← hfst]
  split
  · rename_i hword
    have hplace : (word expected).foldl (Place.next opens) (.outside false)
        = .outside (opens 'e') := by cases expected <;> rfl
    rw [hword, hplace] at hrest
    exact .ok hrest _
  · exact .error hrest _

theorem agrees_readBoolean (h : Alike opens (.outside b) c d) :
    Agrees opens (readBoolean c) (readBoolean d) := by
  have hs := h.skipBlanks
  simp only [readBoolean, ← hs.peek_eq]
  split
  · exact agrees_readWord true hs
  · exact agrees_readWord false hs
  · exact .ok hs none

theorem agrees_readValue (hopens : ∀ x, isMark x = true → opens x = true)
    (h : Alike opens (.outside true) c d) :
    Agrees opens (readValue c) (readValue d) := by
  have hs := h.skipBlanks
  simp only [readValue, ← hs.peek_eq]
  cases hp : c.skipBlanks.peek with
  | none => exact .ok hs none
  | some x =>
    dsimp only
    split
    · exact (agrees_readString hs).mapResult _
    · split
      · exact (agrees_readNumber (fun _ => hopens) hs).mapResult _
      · split
        · exact (agrees_readBoolean hs).mapResult _
        · exact .ok hs none

end Literal

end Reckoner
