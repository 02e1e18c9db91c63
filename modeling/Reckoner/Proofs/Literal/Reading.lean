import Reckoner.Proofs.Literal.Quotation
import Reckoner.Proofs.Literal.Scientific

/-!
# Reading literals

The first character tells which literal follows, if any (`Literal.readValue_ofList`). A quotation
and the word of a truth value are read in front of anything.
-/

namespace Reckoner.Literal

open Text Cursor

/-- Whether a literal can start with the character. -/
def announces (x : Char) : Bool :=
  isQuote x || announcesNumber x || x = 't' || x = 'f'

theorem readValue_ofList {c : Cursor} {x : Char} {cs : List Char}
    (hc : c.skipBlanks = ofList (x :: cs)) : readValue c =
      if isQuote x then
        ((readString (ofList (x :: cs))).1.map (·.map string), (readString (ofList (x :: cs))).2)
      else if announcesNumber x then
        ((readNumber true (ofList (x :: cs))).1.map (·.map number),
          (readNumber true (ofList (x :: cs))).2)
      else if x = 't' || x = 'f' then
        ((readBoolean (ofList (x :: cs))).1.map (·.map boolean), (readBoolean (ofList (x :: cs))).2)
      else (.ok none, ofList (x :: cs)) := by
  simp only [readValue, hc, peek_ofList, List.head?_cons, announcesNumber, isSign, ← Bool.or_assoc]
  rfl

variable {c : Cursor} {post : List Char}

theorem readValue_quotation (q : Quotation) (hc : c.skipBlanks = ofList (q.chars ++ post)) :
    readValue c = (.ok (some (string q.text)), ofList post) := by
  have hblank : (ofList (q.chars ++ post)).skipBlanks = ofList (q.chars ++ post) := by
    rw [Quotation.chars, List.cons_append, skipBlanks_ofList,
      dropWhile_isBlank_cons (isBlank_of_isQuote q.isQuote)]
  have hread := readString_quotation q hblank
  rw [Quotation.chars, List.cons_append] at hc hread
  rw [readValue_ofList hc, if_pos q.isQuote, hread]
  rfl

theorem not_isQuote_of_announcesNumber {x : Char} (h : announcesNumber x = true) :
    ¬ isQuote x = true := by
  intro hq
  simp only [isQuote, Bool.or_eq_true, decide_eq_true_eq] at hq
  rcases hq with rfl | rfl <;> exact absurd h (by decide)

theorem readValue_word (b : Bool) (hc : c.skipBlanks = ofList (word b ++ post)) :
    readValue c = (.ok (some (boolean b)), ofList post) := by
  have hread : readBoolean (ofList (word b ++ post)) = (.ok (some b), ofList post) := by
    have hblank : (ofList (word b ++ post)).skipBlanks = ofList (word b ++ post) := by
      cases b <;> exact skipBlanks_ofList _
    have htake : (ofList (word b ++ post)).take (word b).length = (word b, ofList post) := by simp
    rw [readBoolean, hblank]
    cases b <;> simp only [readWord, htake] <;> rfl
  obtain ⟨x, cs, hw, hquote, hnumber, hx⟩ : ∃ x cs, word b ++ post = x :: cs ∧ isQuote x = false ∧
      announcesNumber x = false ∧ (x = 't' || x = 'f') = true := by
    cases b <;> exact ⟨_, _, rfl, rfl, rfl, rfl⟩
  rw [hw] at hc hread
  rw [readValue_ofList hc, hquote, hnumber, hx, hread]
  rfl

/-- Where no literal can start, nothing but blanks is taken. -/
theorem readValue_none {cs : List Char} (hc : c.skipBlanks = ofList cs)
    (h : ∀ x ∈ cs.head?, announces x = false) : readValue c = (.ok none, ofList cs) := by
  cases cs with
  | nil => simp [readValue, hc]
  | cons x cs =>
    have hx := h x rfl
    simp only [announces, Bool.or_eq_false_iff] at hx
    rw [readValue_ofList hc, hx.1.1.1, hx.1.1.2, hx.1.2, hx.2]
    rfl

end Reckoner.Literal
