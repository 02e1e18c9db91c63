import Reckoner.Proofs.Text.Spacing

/-!
# Passing over lexemes

A rule that reads a row of lexemes from the front of a text leaves what comes after them
(`Grammar.Passed`). Rules that follow each other pass the rows one behind the other
(`Grammar.Passed.append`).
-/

namespace Reckoner.Grammar

open Text

/-- The text is the lexemes and then `post`. -/
def Passed (ls : List (List Char)) (cs post : List Char) : Prop :=
  ∃ pre, cs = pre ++ post ∧ Spaced ls pre

variable {cs post rest : List Char} {ls ms : List (List Char)}

theorem passed_nil {gap : List Char} (h : Blanks gap) (cs : List Char) :
    Passed [] (gap ++ cs) cs :=
  ⟨gap, rfl, .nil h⟩

theorem Passed.append (h : Passed ls cs rest) (h' : Passed ms rest post) :
    Passed (ls ++ ms) cs post := by
  obtain ⟨pre, rfl, hs⟩ := h
  obtain ⟨pre', rfl, hs'⟩ := h'
  exact ⟨pre ++ pre', (List.append_assoc ..).symm, hs.append hs'⟩

theorem Passed.blanks_append {gap : List Char} (hg : Blanks gap) (h : Passed ls cs post) :
    Passed ls (gap ++ cs) post :=
  (passed_nil hg cs).append h

theorem Passed.of_nil (h : Passed [] cs post) : ∃ gap, cs = gap ++ post ∧ Blanks gap := by
  obtain ⟨gap, rfl, hs⟩ := h
  exact ⟨gap, rfl, spaced_nil_iff.1 hs⟩

theorem Passed.of_cons {l : List Char} (h : Passed (l :: ls) cs post) :
    ∃ gap rest, cs = gap ++ (l ++ rest) ∧ Blanks gap ∧ Passed ls rest post := by
  obtain ⟨pre, rfl, hs⟩ := h
  obtain ⟨gap, pre, rfl, hg, hs⟩ := hs.of_cons
  exact ⟨gap, pre ++ post, by simp, hg, pre, rfl, hs⟩

theorem Passed.of_append (h : Passed (ls ++ ms) cs post) :
    ∃ rest, Passed ls cs rest ∧ Passed ms rest post := by
  obtain ⟨pre, rfl, hs⟩ := h
  obtain ⟨a, b, rfl, ha, hb⟩ := hs.of_append
  exact ⟨b ++ post, ⟨a, List.append_assoc .., ha⟩, b, rfl, hb⟩

theorem Passed.suffix (h : Passed ls cs post) : post <:+ cs := by
  obtain ⟨pre, rfl, -⟩ := h
  exact List.suffix_append pre post

/-- The first lexeme tells how the text begins. -/
theorem Passed.before {p : Char → Bool} {x : Char} {l : List Char} (h : Passed ((x :: l) :: ls) cs post)
    (hx : isBlank x = false) (hp : p x = true) : Before p cs := by
  obtain ⟨gap, rest, rfl, hg, -⟩ := h.of_cons
  exact (before_cons hx hp (l ++ rest)).blanks_append hg

theorem Passed.length_le (h : Passed ls cs post) : post.length ≤ cs.length := by
  obtain ⟨pre, rfl, -⟩ := h
  simp

theorem Passed.spaced (h : Passed ls cs []) : Spaced ls cs := by
  obtain ⟨pre, rfl, hs⟩ := h
  rwa [List.append_nil]

/-- A lexeme without blanks before it grows by the character in front of it. -/
theorem Passed.grow {x y : Char} {l : List Char} (h : Passed ((x :: l) :: ls) (y :: cs) post)
    (hy : isBlank y = false) (mark : Char) :
    x = y ∧ Passed ((mark :: x :: l) :: ls) (mark :: y :: cs) post := by
  obtain ⟨gap, rest, hcs, hg, ⟨pre, rfl, hs⟩⟩ := h.of_cons
  cases gap with
  | nil =>
    obtain ⟨rfl, rfl⟩ := List.cons.inj hcs
    refine ⟨rfl, mark :: y :: (l ++ pre), by simp, ?_⟩
    exact .cons (l := mark :: y :: l) blanks_nil hs
  | cons z gap =>
    have hz := hg z (.head _)
    rw [← (List.cons.inj hcs).1, hy] at hz
    cases hz

/-- What comes after solid lexemes is the same up to blanks, however they are passed. -/
theorem Passed.dropWhile_eq {post' : List Char} (hls : Solid ls) (h : Passed ls cs post)
    (h' : Passed ls cs post') : post.dropWhile isBlank = post'.dropWhile isBlank := by
  induction ls generalizing cs with
  | nil =>
    obtain ⟨gap, rfl, hg⟩ := h.of_nil
    obtain ⟨gap', hcs, hg'⟩ := h'.of_nil
    rw [← hg.dropWhile_append, hcs, hg'.dropWhile_append]
  | cons l ls ih =>
    obtain ⟨⟨x, k, rfl, hx⟩, htail⟩ := List.forall_mem_cons.1 hls
    obtain ⟨gap, rest, rfl, hg, h⟩ := h.of_cons
    obtain ⟨gap', rest', hcs, hg', h'⟩ := h'.of_cons
    have hdrop := congrArg (List.dropWhile isBlank) hcs
    rw [hg.dropWhile_append, hg'.dropWhile_append, List.cons_append, List.cons_append,
      dropWhile_isBlank_cons hx, dropWhile_isBlank_cons hx] at hdrop
    obtain rfl := List.append_cancel_left (List.cons.inj hdrop).2
    exact ih htail h h'

theorem passed_lexeme (l cs : List Char) : Passed [l] (l ++ cs) cs :=
  ⟨l, rfl, spaced_singleton blanks_nil⟩

/-- A single character after blanks. -/
theorem passed_char {gap : List Char} (hg : Blanks gap) (x : Char) (cs : List Char) :
    Passed [[x]] (gap ++ x :: cs) cs :=
  (passed_nil hg (x :: cs)).append (passed_lexeme [x] cs)

end Reckoner.Grammar
