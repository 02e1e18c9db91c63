import Reckoner.Proofs.Cursor.Pending
import Reckoner.Proofs.Literal.Scientific

/-!
# What the number rule has taken

Whatever the cursor, what the number rule holds is at every step a front of a numeral with one point
at most (`IsFront`). Where it ends it holds the longest such front of the text
(`IsFront.numeralFront_append`), and either that is a numeral or it is handed back
(`IsFront.settle_eq`). What the rule does next depends on the next character alone
(`Literal.scanPlain_of_peek`, `Literal.scanScientific_of_peek`).
-/

namespace Reckoner

open Text Cursor Literal

/-- A sign, digits and a point, as a numeral begins with them. -/
structure IsFront (taken : List Char) : Prop where
  numeralFront_eq : numeralFront taken = taken
  count_point_le : taken.count '.' ≤ 1

variable {taken cs : List Char} {x : Char}

theorem numeralFront_append_of_ne_nil (h : numeralFront taken = taken) (hne : taken ≠ [])
    (cs : List Char) : numeralFront (taken ++ cs) = taken ++ cs.takeWhile inNumeral := by
  cases taken with
  | nil => exact absurd rfl hne
  | cons x taken =>
    rw [numeralFront] at h
    split at h
    · rename_i hx
      have hall : ∀ y ∈ taken, inNumeral y = true := by
        rw [← (List.cons.inj h).2]
        exact fun _ hy => List.mem_takeWhile_imp hy
      rw [List.cons_append, numeralFront, if_pos hx, List.takeWhile_append_of_pos hall,
        List.cons_append]
    · cases h

theorem inNumeral_of_continues (hne : taken ≠ []) (hx : continues taken x = true) :
    inNumeral x = true := by
  rw [continues_of_ne_nil hne] at hx
  rw [inNumeral]
  revert hx
  cases x.isDigit <;> simp +contextual

theorem startsNumeral_of_continues (hx : continues taken x = true) :
    (isSign x || inNumeral x) = true := by
  by_cases hne : taken = []
  · subst hne
    rwa [continues_nil] at hx
  · rw [inNumeral_of_continues hne hx, Bool.or_true]

theorem isFront_nil : IsFront [] :=
  ⟨rfl, by decide⟩

namespace IsFront

/-- What goes on with a front makes a longer one. -/
theorem append_singleton (h : IsFront taken) (hx : continues taken x = true) :
    IsFront (taken ++ [x]) := by
  by_cases hne : taken = []
  · subst hne
    rw [continues_nil] at hx
    refine ⟨?_, List.count_le_length⟩
    rw [List.nil_append, numeralFront, if_pos hx, List.takeWhile_nil]
  · have hin := inNumeral_of_continues hne hx
    rw [continues_of_ne_nil hne] at hx
    refine ⟨?_, ?_⟩
    · rw [numeralFront_append_of_ne_nil h.numeralFront_eq hne, List.takeWhile_cons_of_pos hin,
        List.takeWhile_nil]
    · rw [List.count_append, List.count_singleton]
      by_cases hdot : x = '.'
      · subst hdot
        have h0 : taken.count '.' = 0 := List.count_eq_zero.2 (by simpa using hx)
        simp [h0]
      · simpa [hdot] using h.count_point_le

theorem withUnit (h : IsFront taken) : IsFront (withUnit taken) := by
  rw [Reckoner.withUnit]
  split
  · rename_i hs
    simp only [Bool.or_eq_true, decide_eq_true_eq] at hs
    rcases hs with rfl | rfl <;> exact ⟨rfl, by decide⟩
  · exact h

/-- Nothing that goes on with it follows: the front is the longest one. -/
theorem numeralFront_append (h : IsFront taken)
    (hcs : ∀ x ∈ cs.head?, continues taken x = false ∧ x ≠ '.') :
    numeralFront (taken ++ cs) = taken := by
  cases cs with
  | nil => rw [List.append_nil, h.numeralFront_eq]
  | cons x cs =>
    obtain ⟨hx, hdot⟩ := hcs x rfl
    by_cases hne : taken = []
    · subst hne
      rw [continues_nil] at hx
      rw [List.nil_append, numeralFront, if_neg (by simp [hx])]
    · rw [continues_of_ne_nil hne, Bool.or_eq_false_iff] at hx
      have hin : ¬ inNumeral x = true := by simp [inNumeral, hx.1, hdot]
      rw [numeralFront_append_of_ne_nil h.numeralFront_eq hne, List.takeWhile_cons_of_neg hin,
        List.append_nil]

theorem numeralRest_append (h : IsFront taken)
    (hcs : ∀ x ∈ cs.head?, continues taken x = false ∧ x ≠ '.') :
    numeralRest (taken ++ cs) = cs := by
  have hcut := numeralFront_append_numeralRest (taken ++ cs)
  rw [h.numeralFront_append hcs] at hcut
  exact List.append_cancel_left hcut

/-- The rule ends with a numeral, or hands back what has no digit. -/
theorem settle_eq (h : IsFront taken) (c : Cursor) :
    (∃ n : Numeral, n.chars = taken ∧ settle taken c = (.ok (some n.value), c)) ∨
      taken.any Char.isDigit = false ∧ settle taken c = (.ok none, c.inject taken) := by
  by_cases hd : taken.any Char.isDigit = true
  · have hn : isNumeral taken = true := by
      rw [← h.numeralFront_eq] at hd ⊢
      refine isNumeral_numeralFront ?_ hd
      rw [h.numeralFront_eq]
      exact h.count_point_le
    exact .inl ⟨⟨taken, hn⟩, rfl, by rw [settle, if_pos hd, Numeral.readPlain?_chars ⟨taken, hn⟩]⟩
  · exact .inr ⟨by simpa using hd, by rw [settle, if_neg hd]⟩

end IsFront

namespace Literal

variable {c : Cursor}

theorem stop_of_peek_none (hc : c.Primed) (h : c.peek = none) :
    ∀ x ∈ c.remaining.head?, continues taken x = false ∧ x ≠ '.' := by
  rw [hc.peek_eq, Pending.peek, toList_pending] at h
  simp [h]

theorem stop_of_peek_some {x : Char} (h : c.peek = some x) (hx : ¬ continues taken x = true)
    (hdot : ¬ x = '.') : ∀ y ∈ c.remaining.head?, continues taken y = false ∧ y ≠ '.' := by
  rw [remaining_of_peek h]
  intro y hy
  cases hy
  exact ⟨by simpa using hx, hdot⟩

theorem scanPlain_of_peek_none (h : c.peek = none) : scanPlain taken c = settle taken c := by
  rw [scanPlain]
  split
  · rfl
  · rename_i hx
    cases h.symm.trans hx

theorem scanPlain_of_peek (h : c.peek = some x) : scanPlain taken c =
    if continues taken x then scanPlain (taken ++ [x]) c.pop.2
    else if x = '.' then (.error .multipleDecimalPoints, c)
    else settle taken c := by
  rw [scanPlain]
  split
  · rename_i hx
    cases h.symm.trans hx
  · rename_i hx
    cases h.symm.trans hx
    rfl

theorem scanScientific_of_peek_none (h : c.peek = none) :
    scanScientific taken c = settle taken c := by
  rw [scanScientific]
  split
  · rfl
  · rename_i hx
    cases h.symm.trans hx

theorem scanScientific_of_peek (h : c.peek = some x) : scanScientific taken c =
    if continues taken x then scanScientific (taken ++ [x]) c.pop.2
    else if x = '.' then (.error .multipleDecimalPoints, c)
    else if isMark x && !taken.isEmpty then
      match (readPlain c.pop.2).1 with
      | .error e => (.error e, (readPlain c.pop.2).2)
      | .ok (some power) => (.ok ((Decimal.readPlain? (withUnit taken)).map fun m =>
          m.toFloat * Float.pow 10 power), (readPlain c.pop.2).2)
      | .ok none => scanScientific (withUnit taken) (readPlain c.pop.2).2
    else settle taken c := by
  rw [scanScientific]
  split
  · rename_i hx
    cases h.symm.trans hx
  · rename_i hx
    cases h.symm.trans hx
    rfl

/-- Behind a mark the rule looks for an exponent, and goes on if there is none. -/
theorem scanScientific_of_mark (h : c.peek = some x) (hx : ¬ continues taken x = true)
    (hdot : ¬ x = '.') (hmark : (isMark x && !taken.isEmpty) = true) :
    scanScientific taken c = match (readPlain c.pop.2).1 with
      | .error e => (.error e, (readPlain c.pop.2).2)
      | .ok (some power) => (.ok ((Decimal.readPlain? (withUnit taken)).map fun m =>
          m.toFloat * Float.pow 10 power), (readPlain c.pop.2).2)
      | .ok none => scanScientific (withUnit taken) (readPlain c.pop.2).2 := by
  rw [scanScientific_of_peek h, if_neg hx, if_neg hdot, if_pos hmark]

end Literal

end Reckoner
