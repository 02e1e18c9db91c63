import Reckoner.Json.Grammar
import Reckoner.Proofs.Cursor.Outcomes
import Reckoner.Proofs.Cursor.Refinement
import Reckoner.Proofs.Literal.Front
import Reckoner.Proofs.Literal.Remaining
import Reckoner.Proofs.Literal.Stub

/-!
# What remains where nothing is parsed

A rule that finds no literal leaves what comes after the blanks, but for the number rule. That one
hands back what it has taken behind what still waits in the queue (`Pending.settled`), and a mark that
it has passed over not at all (`Literal.cases_of_scanScientific_none`). What it found is left where
neither makes a difference (`Pending.GivesBack`).
-/

namespace Reckoner

open Text Cursor Literal

namespace Pending

/-- The lists once the longest front of a numeral, of which `taken` has been read before, is handed
back. -/
def settled (taken : List Char) (p : Pending) : Pending :=
  let front := numeralFront (taken ++ p.toList)
  (p.drop (front.length - taken.length)).inject front

/-- The front of a numeral is handed back where it stood, and no mark behind it is passed over. -/
def GivesBack (exponent : Bool) (p : Pending) : Prop :=
  let front := numeralFront p.toList
  let waiting := p.queue.drop front.length
  front = [] ∨ (exponent && (numeralRest p.toList).head?.any isMark) = false ∧
    waiting ++ front = front ++ waiting

variable {p : Pending} {taken : List Char} {x : Char}

theorem settled_of_stop (h : IsFront taken)
    (hstop : ∀ x ∈ p.toList.head?, continues taken x = false ∧ x ≠ '.') :
    p.settled taken = p.inject taken := by
  rw [settled, h.numeralFront_append hstop, Nat.sub_self, drop_zero]

theorem settled_drop_one {cs : List Char} (hp : p.toList = x :: cs) (h : IsFront (taken ++ [x])) :
    (p.drop 1).settled (taken ++ [x]) = p.settled taken := by
  have htext := append_toList_drop_one hp taken
  have hlen : (taken ++ [x]).length ≤ (numeralFront (taken ++ p.toList)).length := by
    rw [← htext, numeralFront_append_of_ne_nil h.numeralFront_eq (by simp)]
    exact (List.prefix_append _ _).length_le
  rw [List.length_append, List.length_singleton] at hlen
  rw [settled, htext, drop_drop, settled, List.length_append, List.length_singleton]
  congr 2
  omega

theorem toList_settled_iff (p : Pending) : (p.settled []).toList = p.toList ↔
    p.queue.drop (numeralFront p.toList).length ++ numeralFront p.toList
      = numeralFront p.toList ++ p.queue.drop (numeralFront p.toList).length := by
  have hcut : numeralFront p.toList ++ (p.drop (numeralFront p.toList).length).toList = p.toList := by
    rw [toList_drop]
    exact List.prefix_iff_eq_append.1 ⟨_, numeralFront_append_numeralRest p.toList⟩
  rw [settled, List.nil_append, List.length_nil, Nat.sub_zero]
  generalize numeralFront p.toList = front at hcut ⊢
  rw [← hcut, inject, toList, toList, drop, ← List.append_assoc front, List.append_left_inj]

end Pending

namespace Literal

variable {c d : Cursor} {taken : List Char}

theorem settled_pop (hc : c.Primed) {x : Char} (hx : c.peek = some x)
    (ht : IsFront (taken ++ [x])) :
    c.pop.2.pending.settled (taken ++ [x]) = c.pending.settled taken := by
  rw [hc.pending_pop]
  exact Pending.settled_drop_one ((toList_pending c).trans (remaining_of_peek hx)) ht

theorem pending_of_settle_none (ht : IsFront taken)
    (hstop : ∀ x ∈ c.remaining.head?, continues taken x = false ∧ x ≠ '.')
    (h : settle taken c = (.ok none, d)) : d.pending = c.pending.settled taken := by
  rw [← toList_pending] at hstop
  rcases ht.settle_eq c with ⟨n, -, hs⟩ | ⟨-, hs⟩
  · rw [h] at hs
    cases (Prod.mk.inj hs).1
  · rw [h] at hs
    obtain ⟨-, rfl⟩ := Prod.mk.inj hs
    rw [pending_inject, Pending.settled_of_stop ht hstop]

theorem pending_of_scanPlain_none (hc : c.Primed) (ht : IsFront taken)
    (h : scanPlain taken c = (.ok none, d)) : d.pending = c.pending.settled taken := by
  fun_induction scanPlain taken c with
  | case1 taken c hp => exact pending_of_settle_none ht (stop_of_peek_none hc hp) h
  | case2 taken c x hp hx ih =>
    rw [ih hc.pop (ht.append_singleton hx) h, settled_pop hc hp (ht.append_singleton hx)]
  | case3 => cases (Prod.mk.inj h).1
  | case4 taken c x hp hx hdot =>
    exact pending_of_settle_none ht (stop_of_peek_some hp hx hdot) h

theorem front_of_mark (ht : IsFront taken) {x : Char} (hp : c.peek = some x)
    (hx : ¬ continues taken x = true) (hdot : ¬ x = '.')
    (hmark : ((x = 'e' || x = 'E') && !taken.isEmpty) = true) :
    numeralFront (taken ++ c.remaining) ≠ [] ∧
      (numeralRest (taken ++ c.remaining)).head?.any isMark = true := by
  have hstop := stop_of_peek_some hp hx hdot
  rw [Bool.and_eq_true] at hmark
  rw [ht.numeralFront_append hstop, ht.numeralRest_append hstop, remaining_of_peek hp]
  exact ⟨by simpa using hmark.2, hmark.1⟩

/-- Where the rule finds no number it hands back the front that it has taken, unless it has passed over
a mark behind it. -/
theorem cases_of_scanScientific_none (hc : c.Primed) (ht : IsFront taken)
    (h : scanScientific taken c = (.ok none, d)) :
    (numeralFront (taken ++ c.remaining) = [] ∨
        (numeralRest (taken ++ c.remaining)).head?.any isMark = false) ∧
      d.pending = c.pending.settled taken ∨
    numeralFront (taken ++ c.remaining) ≠ [] ∧
      (numeralRest (taken ++ c.remaining)).head?.any isMark = true ∧
      d.remaining.length < (taken ++ c.remaining).length := by
  fun_induction scanScientific taken c with
  | case1 taken c hp =>
    have hstop : ∀ x ∈ c.remaining.head?, continues taken x = false ∧ x ≠ '.' := stop_of_peek_none hc hp
    refine .inl ⟨.inr ?_, pending_of_settle_none ht hstop h⟩
    rw [ht.numeralRest_append hstop]
    rw [hc.peek_eq, Pending.peek, toList_pending] at hp
    rw [hp]
    rfl
  | case2 taken c x hp hx ih =>
    have ht' := ht.append_singleton hx
    have := ih hc.pop ht' h
    rwa [settled_pop hc hp ht', List.append_assoc, List.singleton_append, ← remaining_of_peek hp]
      at this
  | case3 => cases (Prod.mk.inj h).1
  | case4 => cases (Prod.mk.inj h).1
  | case5 taken c x hp hx hdot hmark taken' after =>
    obtain ⟨-, rfl⟩ := Prod.mk.inj h
    have hafter : after.2.remaining.length < c.remaining.length :=
      (subperm_readPlain_pop hp).length_le
    obtain ⟨hfront, hrest⟩ := front_of_mark ht hp hx hdot hmark
    refine .inr ⟨hfront, hrest, ?_⟩
    rw [List.length_append]
    omega
  | case6 taken c x hp hx hdot hmark taken' after _ ih =>
    have hafter : after.2.remaining.length < c.remaining.length :=
      (subperm_readPlain_pop hp).length_le
    have htaken : (returned taken').length ≤ taken.length :=
      ((returned_withUnit_sublist taken).trans (returned_sublist taken)).length_le
    have hleft : d.remaining.length ≤ (returned taken').length + after.2.remaining.length := by
      simpa only [h, List.length_append] using (subperm_scanScientific taken' after.2).length_le
    obtain ⟨hfront, hrest⟩ := front_of_mark ht hp hx hdot hmark
    refine .inr ⟨hfront, hrest, ?_⟩
    rw [List.length_append]
    omega
  | case7 taken c x hp hx hdot hmark =>
    have hstop := stop_of_peek_some hp hx hdot
    refine .inl ⟨?_, pending_of_settle_none ht hstop h⟩
    rw [ht.numeralFront_append hstop, ht.numeralRest_append hstop, remaining_of_peek hp]
    by_cases hne : taken = []
    · exact .inl hne
    · right
      simpa [isMark, hne] using hmark

/-- What comes after the blanks is left by the number rule, where it finds no number, just if it gives
back what it has taken. -/
theorem remaining_eq_iff_of_readNumber_none (hc : c.Primed) {exponent : Bool}
    (h : readNumber exponent c = (.ok none, d)) :
    d.remaining = c.skipBlanks.remaining ↔ c.skipBlanks.pending.GivesBack exponent := by
  have hc := hc.skipBlanks
  generalize hb : c.skipBlanks = b at hc ⊢
  have hgives : d.pending = b.pending.settled [] → (d.remaining = b.remaining ↔
      b.pending.queue.drop (numeralFront b.remaining).length ++ numeralFront b.remaining
        = numeralFront b.remaining ++ b.pending.queue.drop (numeralFront b.remaining).length) := by
    intro hd
    rw [← toList_pending, ← toList_pending, hd, Pending.toList_settled_iff]
  rw [Pending.GivesBack, toList_pending]
  cases exponent with
  | false =>
    rw [readNumber, if_neg Bool.false_ne_true, readPlain, hb] at h
    rw [hgives (pending_of_scanPlain_none hc isFront_nil h)]
    simp only [Bool.false_and, true_and]
    constructor
    · exact .inr
    · rintro (hfront | hcomm)
      · rw [hfront, List.append_nil, List.nil_append]
      · exact hcomm
  | true =>
    rw [readNumber, if_pos rfl, hb] at h
    rcases cases_of_scanScientific_none hc isFront_nil h with
      ⟨hrest, hd⟩ | ⟨hfront, hmark, hlen⟩
    · rw [hgives hd]
      rw [List.nil_append] at hrest
      simp only [Bool.true_and]
      constructor
      · intro hcomm
        exact hrest.imp_right fun hmark => ⟨hmark, hcomm⟩
      · rintro (hfront | ⟨-, hcomm⟩)
        · rw [hfront, List.append_nil, List.nil_append]
        · exact hcomm
    · rw [List.nil_append] at hfront hmark hlen
      constructor
      · intro heq
        rw [heq] at hlen
        exact absurd hlen (Nat.lt_irrefl _)
      · rintro (h | ⟨h, -⟩)
        · exact absurd h hfront
        · rw [Bool.true_and, hmark] at h
          cases h

theorem eq_of_readString_none (h : readString c = (.ok none, d)) : d = c.skipBlanks := by
  simp only [readString] at h
  split at h
  · split at h
    · split at h <;> cases (Prod.mk.inj h).1
    · exact (Prod.mk.inj h).2.symm
  · exact (Prod.mk.inj h).2.symm

theorem readWord_ne_none (expected : Bool) (c : Cursor) : (readWord expected c).1 ≠ .ok none := by
  rw [readWord]
  split
  split <;> simp

theorem eq_of_readBoolean_none (h : readBoolean c = (.ok none, d)) : d = c.skipBlanks := by
  simp only [readBoolean] at h
  split at h
  · exact absurd (congrArg Prod.fst h) (readWord_ne_none _ _)
  · exact absurd (congrArg Prod.fst h) (readWord_ne_none _ _)
  · exact (Prod.mk.inj h).2.symm

/-- Of the rules that the first character announces only the number rule finds nothing. -/
theorem cases_of_readValue_none (h : readValue c = (.ok none, d)) :
    c.skipBlanks.peek.any announcesNumber = false ∧ d = c.skipBlanks ∨
      c.skipBlanks.peek.any announcesNumber = true ∧
        readNumber true c.skipBlanks = (.ok none, d) := by
  have hnone : ∀ {α : Type} {f : α → Literal} {p : Except SyntaxError (Option α) × Cursor},
      (p.1.map (·.map f), p.2) = (.ok none, d) → p = (.ok none, d) := by
    rintro α f ⟨_ | _ | _, e⟩ hp <;> cases hp
    rfl
  simp only [readValue] at h
  split at h
  · rename_i hp
    exact .inl ⟨by rw [hp]; rfl, (Prod.mk.inj h).2.symm⟩
  · rename_i x hp
    rw [hp, Option.any_some]
    split at h
    · rename_i hquote
      have hd := eq_of_readString_none (hnone h)
      rw [skipBlanks_skipBlanks] at hd
      refine .inl ⟨?_, hd⟩
      simp only [Bool.or_eq_true, decide_eq_true_eq] at hquote
      rcases hquote with rfl | rfl <;> rfl
    · split at h
      · rename_i hx
        exact .inr ⟨by rwa [announcesNumber, isSign, ← Bool.or_assoc], hnone h⟩
      · rename_i hx
        refine .inl ⟨by rwa [announcesNumber, isSign, ← Bool.or_assoc, ← Bool.not_eq_true], ?_⟩
        split at h
        · have hd := eq_of_readBoolean_none (hnone h)
          rwa [skipBlanks_skipBlanks] at hd
        · exact (Prod.mk.inj h).2.symm

end Literal

namespace Json

theorem eq_of_readDocument_none {c d : Cursor} (h : readDocument c = (.ok none, d)) :
    d = c.skipBlanks := by
  simp only [readDocument] at h
  split at h
  · obtain ⟨v, -, hv⟩ := Step.exists_of_map h
    cases hv
  · obtain ⟨v, -, hv⟩ := Step.exists_of_map h
    cases hv
  · exact (Prod.mk.inj h).2.symm

end Json

open Literal Json

/-- In every state that a cursor can come to, a text, a truth value or a document that is not found
leaves what comes after the blanks. So does a number that is not found just if what the rule has taken
is given back, with an exponent or without; and a literal that is not found, unless the next character
announces a number and the number rule does not. -/
theorem remaining_of_unparsed {c : Cursor} (hc : c.Reachable) :
    let text := c.remaining.dropWhile isBlank
    (∀ d, readString c = (.ok none, d) → d.remaining = text) ∧
    (∀ d, readBoolean c = (.ok none, d) → d.remaining = text) ∧
    (∀ d, readDocument c = (.ok none, d) → d.remaining = text) ∧
    (∀ exponent d, Literal.readNumber exponent c = (.ok none, d) →
      (d.remaining = text ↔ c.pending.skipBlanks.GivesBack exponent)) ∧
    (∀ d, Literal.readValue c = (.ok none, d) → (d.remaining = text ↔
      (text.head?.any announcesNumber → c.pending.skipBlanks.GivesBack true))) := by
  have hc := hc.primed
  have htext : c.remaining.dropWhile isBlank = c.skipBlanks.remaining := by
    rw [← toList_pending, ← toList_pending, hc.pending_skipBlanks, Pending.toList_skipBlanks]
  rw [htext, ← hc.pending_skipBlanks]
  refine ⟨?_, ?_, ?_, ?_, ?_⟩
  · intro d h
    rw [eq_of_readString_none h]
  · intro d h
    rw [eq_of_readBoolean_none h]
  · intro d h
    rw [eq_of_readDocument_none h]
  · exact fun exponent d h => remaining_eq_iff_of_readNumber_none hc h
  · intro d h
    have hpeek : c.skipBlanks.remaining.head? = c.skipBlanks.peek := by
      rw [hc.skipBlanks.peek_eq, Pending.peek, toList_pending]
    rw [hpeek]
    rcases cases_of_readValue_none h with ⟨hnot, rfl⟩ | ⟨hx, hnumber⟩
    · simp [hnot]
    · have := remaining_eq_iff_of_readNumber_none hc.skipBlanks hnumber
      rw [skipBlanks_skipBlanks] at this
      rw [this]
      simp [hx]

/-- A sign that waits in the queue alone is given back in front of what the source holds. -/
theorem remaining_of_unparsed_sign :
    let c := (ofList ['x']).inject ['-']
    c.Reachable ∧ ∃ d, Literal.readNumber false c = (.ok none, d) ∧ d.remaining = ['-', 'x'] := by
  intro c
  have hc : c.Reachable := (reachable_ofList _).inject _
  have hread : Literal.readNumber false c = (.ok none, c) := readPlain_stub rfl fun _ hx => by cases hx; rfl
  obtain ⟨-, -, -, hnumber, -⟩ := remaining_of_unparsed hc
  exact ⟨hc, c, hread, (hnumber false c hread).2 (.inr ⟨by decide, by decide⟩)⟩

/-- A sign that waits in the queue with a letter behind it is handed back behind the letter. -/
theorem Literal.readPlain_displaced : readPlain ((ofList []).inject ['-', 'x'])
    = (.ok none, (ofList []).inject ['x', '-']) := by
  have hblanks : ((ofList []).inject ['-', 'x']).skipBlanks = (ofList []).inject ['-', 'x'] := by
    rw [skipBlanks_eq]
    rfl
  have hsign : continues [] '-' = true := rfl
  have hletter : ¬ continues ['-'] 'x' = true := by decide
  rw [readPlain, hblanks, scanPlain_inject_cons, if_pos hsign, List.nil_append,
    scanPlain_inject_cons, if_neg hletter, if_neg (by decide)]
  rfl

/-- A mark behind a point is passed over. -/
theorem Literal.readNumber_passed : Literal.readNumber true (ofList ['.', 'e', 'x'])
    = (.ok none, (ofList ['x']).inject ['.']) := by
  have hpoint : scanScientific [] (ofList ['.', 'e', 'x']) = scanScientific ['.'] (ofList ['e', 'x']) := by
    have hcont : continues [] '.' = true := rfl
    rw [scanScientific_ofList_cons, if_pos hcont, List.nil_append]
  have hexponent : readPlain (ofList ['x']) = (.ok none, ofList ['x']) :=
    readPlain_none (skipBlanks_ofList _) fun _ hx => by cases hx; rfl
  have hblanks : (ofList ['.', 'e', 'x']).skipBlanks = ofList ['.', 'e', 'x'] := skipBlanks_ofList _
  rw [Literal.readNumber, if_pos rfl, hblanks, hpoint, scanScientific_mark (by decide) rfl, hexponent]
  exact scanScientific_stop (by decide) fun _ hx => by cases hx; rfl

theorem remaining_of_unparsed_displaced :
    (∃ c d, c.Reachable ∧ Literal.readNumber false c = (.ok none, d) ∧
      c.remaining.dropWhile isBlank = ['-', 'x'] ∧ d.remaining = ['x', '-']) ∧
    ∃ c d, c.Reachable ∧ Literal.readNumber true c = (.ok none, d) ∧
      c.remaining.dropWhile isBlank = ['.', 'e', 'x'] ∧ d.remaining = ['.', 'x'] := by
  refine ⟨⟨_, _, (reachable_ofList _).inject _, readPlain_displaced, ?_⟩,
    _, _, reachable_ofList _, readNumber_passed, ?_⟩
  · exact ⟨by decide, by decide⟩
  · exact ⟨by decide, by decide⟩

end Reckoner
