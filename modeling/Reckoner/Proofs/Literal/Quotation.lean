import Reckoner.Literal.Basic
import Reckoner.Proofs.Cursor.OverList
import Reckoner.Proofs.Cursor.Remaining

/-!
# Quotations

A text can stand between quotes of one kind if no such quote in it is unescaped and no escape is left
open at its end (`Literal.closed`). Exactly these texts are read back from between the quotes
(`Literal.readString_quotation`, `Literal.of_content`).
-/

namespace Reckoner

open Text Cursor

def isQuote (x : Char) : Bool :=
  x = '\'' || x = '"'

theorem isBlank_of_isQuote {x : Char} (h : isQuote x = true) : isBlank x = false := by
  simp only [isQuote, Bool.or_eq_true, decide_eq_true_eq] at h
  rcases h with rfl | rfl <;> rfl

namespace Literal

/-- Whether the quote closes the characters where they end and not before. The first of them is
escaped if `escaped`. -/
def closed (quote : Char) (escaped : Bool) : List Char → Bool
  | [] => !escaped
  | x :: cs => (escaped || x ≠ quote) && closed quote (!escaped && x = '\\') cs

theorem closed_of_not_mem {quote : Char} {cs : List Char} (hquote : quote ∉ cs)
    (hescape : '\\' ∉ cs) : closed quote false cs = true := by
  induction cs with
  | nil => rfl
  | cons x cs ih =>
    rw [List.mem_cons, not_or] at hquote hescape
    rw [closed, decide_eq_false (Ne.symm hescape.1)]
    simpa [Ne.symm hquote.1] using ih hquote.2 hescape.2

end Literal

/-- A text as it is written. -/
structure Quotation where
  quote : Char
  content : List Char
  isQuote : isQuote quote = true
  closed : Literal.closed quote false content = true

namespace Quotation

def chars (q : Quotation) : List Char :=
  q.quote :: (q.content ++ [q.quote])

/-- The text between the quotes, escapes included. -/
def text (q : Quotation) : String :=
  String.ofList q.content

theorem solid (q : Quotation) : (q.chars.head?.any fun x => !isBlank x) = true := by
  simp [chars, isBlank_of_isQuote q.isQuote]

end Quotation

namespace Literal

theorem content_ofList_cons (quote : Char) (escaped : Bool) (x : Char) (cs : List Char) :
    content quote escaped (ofList (x :: cs)) = if !escaped && x = quote then (some [], ofList cs)
      else ((content quote (!escaped && x = '\\') (ofList cs)).1.map (x :: ·),
        (content quote (!escaped && x = '\\') (ofList cs)).2) := by
  rw [content]
  rfl

theorem content_ofList {quote : Char} (post : List Char) :
    ∀ {body : List Char} {escaped : Bool}, closed quote escaped body = true →
      content quote escaped (ofList (body ++ quote :: post)) = (some body, ofList post)
  | [], escaped, h => by
    have h : escaped = false := by simpa [closed] using h
    subst h
    simp [content_ofList_cons]
  | x :: body, escaped, h => by
    simp only [closed, Bool.and_eq_true, Bool.or_eq_true, decide_eq_true_eq] at h
    have hx : ¬ (!escaped && decide (x = quote)) = true := by
      rcases h.1 with h | h <;> simp [h]
    rw [List.cons_append, content_ofList_cons, if_neg hx, content_ofList post h.2]
    rfl

/-- A quotation is read in front of anything. -/
theorem readString_quotation (q : Quotation) {c : Cursor} {post : List Char}
    (hc : c.skipBlanks = ofList (q.chars ++ post)) :
    readString c = (.ok (some q.text), ofList post) := by
  have hq : (q.quote = '\'' || q.quote = '"') = true := q.isQuote
  have hcontent := content_ofList post q.closed
  simp only [Quotation.chars, List.cons_append, List.append_assoc, List.nil_append] at hc
  simp only [readString, hc, peek_ofList, List.head?_cons, pop_ofList, List.tail_cons, hq, hcontent]
  rfl

/-- What is given as the text was closed by the quote, and stood in front of what remains. -/
theorem of_content {quote : Char} {escaped : Bool} {c d : Cursor} {body : List Char}
    (h : content quote escaped c = (some body, d)) :
    closed quote escaped body = true ∧ c.remaining = body ++ quote :: d.remaining := by
  fun_induction content quote escaped c generalizing body d with
  | case1 => cases (Prod.mk.inj h).1
  | case2 escaped c x hp hx =>
    obtain ⟨hb, rfl⟩ := Prod.mk.inj h
    simp only [Bool.and_eq_true, Bool.not_eq_eq_eq_not, Bool.not_true, decide_eq_true_eq] at hx
    cases hb
    exact ⟨by simp [closed, hx.1], by rw [remaining_of_peek hp, hx.2]; rfl⟩
  | case3 escaped c x hp hx body' rest heq ih =>
    obtain ⟨hb, rfl⟩ := Prod.mk.inj h
    obtain ⟨body', rfl, rfl⟩ := Option.map_eq_some_iff.1 hb
    obtain ⟨hclosed, hrem⟩ := ih heq
    refine ⟨?_, by rw [remaining_of_peek hp, hrem]; rfl⟩
    rw [closed, hclosed, Bool.and_true]
    cases escaped with
    | false => simpa using hx
    | true => rfl

end Literal

end Reckoner
