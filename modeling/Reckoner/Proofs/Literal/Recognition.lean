import Reckoner.Proofs.Except
import Reckoner.Proofs.Literal.Reading
import Reckoner.Proofs.Literal.Token
import Reckoner.Proofs.Text.Passing

/-!
# Recognizing literals

Where the rules for texts and truth values give a value they have passed its lexeme, and so has the
number rule unless it is stuck. Where they give none, they have passed blanks, and a token if that was
lost (`Literal.cases_of_readValue`).
-/

namespace Reckoner

open Text Cursor Grammar

namespace Literal

variable {c d : Cursor} {cs : List Char}

/-- A literal as the reader takes it. -/
inductive Lexeme where
  | string (q : Quotation)
  | number (t : Found)
  | boolean (b : Bool)

namespace Lexeme

def chars : Lexeme → List Char
  | string q => q.chars
  | number t => t.chars
  | boolean b => word b

def value : Lexeme → Literal
  | string q => .string q.text
  | number t => .number t.value
  | boolean b => .boolean b

/-- The lexeme is one of the grammar. -/
def Sound : Lexeme → Prop
  | number t => t.Sound
  | _ => True

end Lexeme

theorem cases_of_readString {s : Option String} (h : readString (ofList cs) = (.ok s, d)) :
    (∃ q : Quotation, ∃ post, Passed [q.chars] cs post ∧ d = ofList post ∧ s = some q.text)
    ∨ s = none ∧ ∀ x ∈ (cs.dropWhile isBlank).head?, isQuote x = false := by
  have hcs := List.takeWhile_append_dropWhile (p := isBlank) (l := cs)
  rw [readString, skipBlanks_ofList] at h
  cases hrest : cs.dropWhile isBlank with
  | nil =>
    rw [hrest] at h
    cases h
    exact .inr ⟨rfl, by simp⟩
  | cons quote rest =>
    rw [hrest] at h hcs
    simp only [peek_ofList, List.head?_cons, pop_ofList, List.tail_cons] at h
    split at h
    · rename_i hquote
      split at h
      · rename_i body after hcontent
        cases h
        obtain ⟨hclosed, hrem⟩ := of_content hcontent
        rw [remaining_ofList] at hrem
        rw [hrem, content_ofList _ hclosed] at hcontent
        let q : Quotation := ⟨quote, body, hquote, hclosed⟩
        refine .inl ⟨q, d.remaining, ?_, (Prod.mk.inj hcontent).2.symm, rfl⟩
        have hq : quote :: rest = q.chars ++ d.remaining := by simp [hrem, q, Quotation.chars]
        rw [← hcs, hq]
        exact (passed_nil (blanks_takeWhile cs) _).append (passed_lexeme q.chars d.remaining)
      · cases (Prod.mk.inj h).1
    · rename_i hquote
      cases h
      exact .inr ⟨rfl, by simpa [isQuote] using hquote⟩

theorem exists_word_of_readWord {a : Bool} {b : Option Bool}
    (h : readWord a (ofList cs) = (.ok b, d)) :
    ∃ post, cs = word a ++ post ∧ d = ofList post ∧ b = some a := by
  rw [readWord, take_ofList] at h
  simp only at h
  split at h
  · rename_i hword
    cases h
    have hcs := List.take_append_drop (word a).length cs
    rw [hword] at hcs
    exact ⟨_, hcs.symm, rfl, rfl⟩
  · cases (Prod.mk.inj h).1

theorem exists_word_of_readBoolean {b : Option Bool} {x : Char} (hx : (x = 't' || x = 'f') = true)
    (h : readBoolean (ofList (x :: cs)) = (.ok b, d)) :
    ∃ a post, x :: cs = word a ++ post ∧ d = ofList post ∧ b = some a := by
  simp only [Bool.or_eq_true, decide_eq_true_eq] at hx
  rw [readBoolean, skipBlanks_ofList] at h
  rcases hx with rfl | rfl
  · exact ⟨true, exists_word_of_readWord h⟩
  · exact ⟨false, exists_word_of_readWord h⟩

/-- What the dispatch on the first character has passed: a lexeme, or blanks and perhaps a token that
was lost, unless the number rule is stuck. -/
theorem cases_of_readValue {r : Option Literal} (h : readValue (ofList cs) = (.ok r, d)) :
    d.Stuck
    ∨ (∃ l : Lexeme, ∃ post, Passed [l.chars] cs post ∧ d = ofList post ∧ r = some l.value)
    ∨ ∃ gap, ∃ lost : Option Lost, ∃ post, cs = gap ++ (lost.elim [] (·.chars) ++ post) ∧
      Blanks gap ∧ d = ofList post ∧ r = none := by
  have hcs := List.takeWhile_append_dropWhile (p := isBlank) (l := cs)
  have hgap := blanks_takeWhile cs
  have hsk := skipBlanks_ofList cs
  cases hrest : cs.dropWhile isBlank with
  | nil =>
    rw [hrest] at hcs hsk
    rw [readValue, hsk] at h
    cases h
    exact .inr (.inr ⟨_, none, [], hcs.symm, hgap, rfl, rfl⟩)
  | cons x rest =>
    rw [hrest] at hcs hsk
    have hx : isBlank x = false := of_mem_head?_dropWhile x (by rw [hrest]; rfl)
    have hsk' : (ofList (x :: rest)).skipBlanks = ofList (x :: rest) := by
      rw [skipBlanks_ofList, dropWhile_isBlank_cons hx]
    rw [readValue_ofList hsk] at h
    split at h
    · rename_i hquote
      obtain ⟨hr, rfl⟩ := Prod.mk.inj h
      obtain ⟨s, hs, rfl⟩ := map_eq_ok.1 hr
      rcases cases_of_readString (Prod.ext hs rfl) with ⟨q, post, hq, hd, rfl⟩ | ⟨-, hnone⟩
      · refine .inr (.inl ⟨.string q, post, ?_, hd, rfl⟩)
        rw [← hcs]
        exact (passed_nil hgap _).append hq
      · rw [hnone x (by rw [dropWhile_isBlank_cons hx]; rfl)] at hquote
        cases hquote
    split at h
    · rename_i hnumber
      obtain ⟨hr, rfl⟩ := Prod.mk.inj h
      obtain ⟨s, hs, rfl⟩ := map_eq_ok.1 hr
      rcases cases_of_readNumber hsk' hnumber (Prod.ext hs rfl) with
        hstuck | ⟨t, post, ht, hd, hgives⟩
      · exact .inl hstuck
      rw [ht] at hcs
      cases hgives with
      | found hdigit =>
        refine .inr (.inl ⟨.number ⟨t, hdigit⟩, post, ?_, hd, rfl⟩)
        rw [← hcs]
        exact (passed_nil hgap _).append (passed_lexeme t.chars post)
      | lost hdigit hraised =>
        exact .inr (.inr ⟨_, some ⟨t, hdigit, hraised⟩, post, hcs.symm, hgap, hd, rfl⟩)
    split at h
    · rename_i hword
      obtain ⟨hr, rfl⟩ := Prod.mk.inj h
      obtain ⟨b, hb, rfl⟩ := map_eq_ok.1 hr
      obtain ⟨a, post, ha, hd, rfl⟩ := exists_word_of_readBoolean hword (Prod.ext hb rfl)
      refine .inr (.inl ⟨.boolean a, post, ?_, hd, rfl⟩)
      rw [← hcs, ha]
      exact (passed_nil hgap _).append (passed_lexeme (word a) post)
    · cases h
      exact .inr (.inr ⟨_, none, x :: rest, hcs.symm, hgap, rfl, rfl⟩)

end Literal

end Reckoner
