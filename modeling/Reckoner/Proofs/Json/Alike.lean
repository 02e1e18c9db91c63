import Reckoner.Json.Grammar
import Reckoner.Proofs.Literal.Alike

/-!
# Documents of one text in two cursors

Outside of quotes, a number may be read behind an opening bracket, a colon, a comma and the mark of an
exponent (`opensNumber`), and not where a document starts. Reading a document agrees over two cursors
that are alike there.
-/

namespace Reckoner

open Text Cursor

namespace Json

/-- Whether a number may follow the character. -/
def opensNumber (x : Char) : Bool :=
  x = '[' || x = ':' || x = ',' || isMark x

theorem opensNumber_of_isMark (x : Char) (h : isMark x = true) : opensNumber x = true := by
  rw [opensNumber, h, Bool.or_true]

variable {b : Bool}

theorem agrees_readLiteral {c d : Cursor} (h : Alike opensNumber (.outside true) c d) :
    Agrees opensNumber (readLiteral c).pair (readLiteral d).pair :=
  Literal.agrees_readValue opensNumber_of_isMark h

theorem agrees_readKey {c d : Cursor} (h : Alike opensNumber (.outside b) c d) :
    Agrees opensNumber (readKey c).pair (readKey d).pair :=
  Literal.agrees_readString h

theorem agrees_readNull {c d : Cursor} (h : Alike opensNumber (.outside false) c d) :
    Agrees opensNumber (readNull c).pair (readNull d).pair := by
  obtain ⟨hfst, hrest⟩ := h.take 4
  simp only [readNull, Step.pair, ← hfst]
  split
  · rename_i hword
    rw [hword] at hrest
    exact .ok (b := opensNumber 'l') hrest _
  · exact .error hrest _

mutual

theorem agrees_readValue {c d : Cursor} (h : Alike opensNumber (.outside true) c d) :
    Agrees opensNumber (readValue c).pair (readValue d).pair := by
  rw [readValue, readValue]
  refine .andThen (agrees_readLiteral h) fun literal c₁ d₁ hc hd h => ?_
  match literal with
  | some l => exact .ok h _
  | none =>
    refine .onPeek h (.ok h _) fun x c₂ d₂ hc₂ hd₂ hpop => ?_
    split
    · rename_i hx
      subst hx
      exact .map (s := readObject c₂) (t := readObject d₂) (agrees_readObject hpop) _
    · split
      · rename_i hx
        subst hx
        exact .map (s := readArray c₂) (t := readArray d₂) (agrees_readArray hpop) _
      · split
        · exact .map (agrees_readNull h) _
        · exact .ok h _
  termination_by (c.size, 0)
  decreasing_by
    · exact .left _ _ (Nat.lt_of_lt_of_le hc₂ hc)
    · exact .left _ _ (Nat.lt_of_lt_of_le hc₂ hc)

theorem agrees_readObject {c d : Cursor} (h : Alike opensNumber (.outside false) c d) :
    Agrees opensNumber (readObject c).pair (readObject d).pair := by
  rw [readObject, readObject]
  exact .onNext rfl h (fun _ _ _ _ h => .ok h _) fun c₁ d₁ hc _ h => .map (agrees_readMembers h) _
  termination_by (c.size, 1)
  decreasing_by exact .right' _ hc (by decide)

theorem agrees_readMembers {c d : Cursor} {members : Members Json} {b : Bool}
    (h : Alike opensNumber (.outside b) c d) :
    Agrees opensNumber (readMembers members c).pair (readMembers members d).pair := by
  rw [readMembers, readMembers]
  refine .andThen (agrees_readKey h) fun key c₁ d₁ hc hd h => ?_
  match key with
  | none => exact .error h _
  | some key =>
    refine .require rfl h fun c₂ d₂ hc₂ hd₂ h => ?_
    refine .andThen (agrees_readValue h) fun value c₃ d₃ hc₃ hd₃ h => ?_
    match value with
    | none => exact .error h _
    | some v =>
      refine .onNext rfl h (fun c₄ d₄ hc₄ hd₄ h => agrees_readMembers h) fun c₄ d₄ _ _ h => ?_
      exact .require rfl h fun _ _ _ _ h => .ok h _
  termination_by (c.size, 0)
  decreasing_by
    · exact .left _ _ (Nat.lt_of_lt_of_le hc₂ hc)
    · have h := Nat.lt_of_lt_of_le hc₂ hc
      exact .left _ _ (Nat.lt_of_lt_of_le hc₄ (Nat.le_trans hc₃ (Nat.le_of_lt h)))

theorem agrees_readArray {c d : Cursor} (h : Alike opensNumber (.outside true) c d) :
    Agrees opensNumber (readArray c).pair (readArray d).pair := by
  rw [readArray, readArray]
  refine .andThen (agrees_readItems h) fun items c₁ d₁ _ _ h => ?_
  exact .require rfl h fun _ _ _ _ h => .ok h _
  termination_by (c.size, 2)
  decreasing_by exact .right' _ (Nat.le_refl _) (by decide)

theorem agrees_readItems {c d : Cursor} (h : Alike opensNumber (.outside true) c d) :
    Agrees opensNumber (readItems c).pair (readItems d).pair := by
  rw [readItems, readItems]
  refine .andThen (agrees_readValue h) fun value c₁ d₁ hc hd h => ?_
  match value with
  | none => exact .ok h _
  | some v =>
    exact .onNext rfl h (fun c₂ d₂ hc₂ _ h => .map (agrees_readItems h) _) fun _ _ _ _ h => .ok h _
  termination_by (c.size, 1)
  decreasing_by
    · exact .right' _ (Nat.le_refl _) (by decide)
    · exact .left _ _ (Nat.lt_of_lt_of_le hc₂ hc)

end

/-- A document is read alike. -/
theorem agrees_readDocument {c d : Cursor} (h : Alike opensNumber (.outside b) c d) :
    Agrees opensNumber (readDocument c) (readDocument d) := by
  have hs := h.skipBlanks
  simp only [readDocument, ← hs.peek_eq]
  split
  · rename_i hp
    exact .map (agrees_readObject (hs.pop hp)) _
  · rename_i hp
    exact .map (agrees_readArray (hs.pop hp)) _
  · exact .ok hs none

end Json

end Reckoner
