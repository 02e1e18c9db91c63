import Reckoner.Cursor.Step
import Reckoner.Proofs.Text.Spacing

/-!
# Cursors over a list

A cursor at the start of a list of characters behaves as the list does: reading takes from the
front, runs are `List.takeWhile` and `List.dropWhile`. What comes after a rule is told up to the
blanks in front of it, which the next rule skips anyway (`Cursor.Faces`).
-/

namespace Reckoner

open Text

namespace Cursor

theorem ofList_cons (x : Char) (cs : List Char) :
    ofList (x :: cs) = ⟨[], some x, some (Source.ofList cs)⟩ := rfl

theorem queue_ofList (cs : List Char) : (ofList cs).queue = [] := by
  cases cs <;> rfl

@[simp] theorem peek_ofList (cs : List Char) : (ofList cs).peek = cs.head? := by
  cases cs <;> rfl

@[simp] theorem pop_ofList (cs : List Char) : (ofList cs).pop = (cs.head?, ofList cs.tail) := by
  cases cs <;> rfl

@[simp] theorem size_ofList (cs : List Char) : (ofList cs).size = cs.length := by
  cases cs with
  | nil => rfl
  | cons x cs =>
    simp only [ofList_cons, size, Supply.size, Source.ofList, List.length_nil, Option.toList_some,
      Option.elim_some, List.length_map, List.length_cons]
    omega

@[simp] theorem takeWhile_ofList (test : Char → Bool) (cs : List Char) :
    (ofList cs).takeWhile test = (cs.takeWhile test, ofList (cs.dropWhile test)) := by
  induction cs with
  | nil =>
    rw [takeWhile]
    rfl
  | cons x cs ih =>
    rw [takeWhile]
    split
    · rename_i h
      simp at h
    · rename_i y h
      simp only [peek_ofList, List.head?_cons, Option.some.injEq] at h
      subst h
      split
      · rename_i ht
        simp only [pop_ofList, List.tail_cons, ih, List.takeWhile_cons_of_pos ht,
          List.dropWhile_cons_of_pos ht]
      · rename_i ht
        rw [List.takeWhile_cons_of_neg ht, List.dropWhile_cons_of_neg ht]

@[simp] theorem skipBlanks_ofList (cs : List Char) :
    (ofList cs).skipBlanks = ofList (cs.dropWhile isBlank) := by
  rw [skipBlanks, takeWhile_ofList]

@[simp] theorem take_ofList (n : Nat) (cs : List Char) :
    (ofList cs).take n = (cs.take n, ofList (cs.drop n)) := by
  induction n generalizing cs with
  | zero => rfl
  | succ n ih =>
    cases cs with
    | nil => rfl
    | cons x cs => simp [take, ih]

theorem name_ofList (cs : List Char) :
    (ofList cs).name = if cs.head?.any isNameStart then
      (some (String.ofList (cs.takeWhile isNameRest)), ofList (cs.dropWhile isNameRest))
      else (none, ofList cs) := by
  simp [name]

/-- The cursor is over `cs`, up to blanks in front. -/
def Faces (c : Cursor) (cs : List Char) : Prop :=
  c.skipBlanks = ofList (cs.dropWhile isBlank)

theorem faces_ofList (cs : List Char) : (ofList cs).Faces cs :=
  skipBlanks_ofList cs

theorem Faces.skipBlanks {c : Cursor} {cs : List Char} (h : c.Faces cs) :
    c.skipBlanks.Faces cs := by
  rw [Faces, h, skipBlanks_ofList, dropWhile_isBlank_idem]

theorem Faces.of_append {c : Cursor} {gap cs : List Char} (h : c.Faces (gap ++ cs))
    (hg : Blanks gap) : c.Faces cs := by
  rw [Faces, h, hg.dropWhile_append]

theorem Faces.skipBlanks_eq {c : Cursor} {x : Char} {cs : List Char} (h : c.Faces (x :: cs))
    (hx : isBlank x = false) : c.skipBlanks = ofList (x :: cs) := by
  rw [h, dropWhile_isBlank_cons hx]

theorem isNext_of_skipBlanks {c : Cursor} {cs : List Char} (h : c.skipBlanks = ofList cs)
    (x : Char) : c.isNext x = if cs.head? = some x then (true, ofList cs.tail) else (false, ofList cs) := by
  simp only [Cursor.isNext, h, peek_ofList, pop_ofList]

theorem Faces.isNext {c : Cursor} {cs : List Char} (h : c.Faces cs) (x : Char) :
    c.isNext x = if (cs.dropWhile isBlank).head? = some x
      then (true, ofList (cs.dropWhile isBlank).tail) else (false, ofList (cs.dropWhile isBlank)) :=
  isNext_of_skipBlanks h x

theorem Faces.isNext_cons {c : Cursor} {x : Char} {cs : List Char} (h : c.Faces (x :: cs))
    (hx : isBlank x = false) : c.isNext x = (true, ofList cs) := by
  rw [h.isNext, dropWhile_isBlank_cons hx, List.head?_cons, if_pos rfl, List.tail_cons]

theorem Faces.isNext_of_ne {c : Cursor} {x : Char} {cs : List Char} (h : c.Faces cs)
    (hx : (cs.dropWhile isBlank).head? ≠ some x) : c.isNext x = (false, c.skipBlanks) := by
  rw [h.isNext, if_neg hx, h]

/-- Past blanks, a cursor over lexemes is on the first of them. -/
theorem Faces.of_led {c : Cursor} {l text post : List Char} {ls : List (List Char)}
    (h : c.Faces (text ++ post)) (hs : Led (l :: ls) text)
    (hl : (l.head?.any fun x => !isBlank x) = true) :
    ∃ cs, Led ls cs ∧ c.skipBlanks = ofList (l ++ (cs ++ post)) := by
  obtain ⟨gap, cs, rfl, hg, hcs⟩ := hs.of_cons
  refine ⟨cs, hcs, ?_⟩
  rw [List.append_assoc, List.append_assoc] at h
  cases l with
  | nil => cases hl
  | cons x l => exact (h.of_append hg).skipBlanks_eq (by simpa using hl)

/-- The next lexeme, where it is a character that is looked for. -/
theorem Faces.isNext_led {c : Cursor} {x : Char} {text post : List Char} {ls : List (List Char)}
    (h : c.Faces (text ++ post)) (hs : Led ([x] :: ls) text) (hx : isBlank x = false) :
    ∃ cs, Led ls cs ∧ c.isNext x = (true, ofList (cs ++ post)) := by
  obtain ⟨cs, hcs, hsk⟩ := h.of_led hs (by simpa using hx)
  refine ⟨cs, hcs, ?_⟩
  rw [isNext_of_skipBlanks hsk]
  simp

end Cursor

end Reckoner
