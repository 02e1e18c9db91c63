import Reckoner.Literal.Basic

/-!
# Literals never lengthen what remains

No literal rule leaves more to read than it found (`size_readValue_le`), though a number rule may
hand characters back: it hands back no more than it took (`size_scanScientific_le`).
-/

namespace Reckoner

namespace Literal

theorem size_content_le (quote : Char) (escaped : Bool) (c : Cursor) :
    (content quote escaped c).2.size ≤ c.size := by
  fun_induction content quote escaped c with
  | case1 => exact Cursor.size_pop_le _
  | case2 => exact Cursor.size_pop_le _
  | case3 escaped c x h _ body rest heq ih =>
    simp only [heq] at ih
    exact Nat.le_trans ih (Cursor.size_pop_le c)

theorem size_readString_le (c : Cursor) : (readString c).2.size ≤ c.size := by
  have hs := Cursor.size_skipBlanks_le c
  have hp := Cursor.size_pop_le c.skipBlanks
  simp only [readString]
  split
  · rename_i quote _
    have hc := size_content_le quote false c.skipBlanks.pop.2
    split
    · split
      · rename_i heq
        simp only [heq] at hc
        exact Nat.le_trans hc (Nat.le_trans hp hs)
      · rename_i heq
        simp only [heq] at hc
        exact Nat.le_trans hc (Nat.le_trans hp hs)
    · exact hs
  · exact hs

/-- What a number rule that holds `taken` may still hand back: nothing once there is a digit. -/
def returnable (taken : List Char) : Nat :=
  if taken.any Char.isDigit then 0 else taken.length

theorem returnable_append_singleton_le (taken : List Char) (x : Char) :
    returnable (taken ++ [x]) ≤ returnable taken + 1 := by
  simp only [returnable, List.any_append, List.length_append, List.length_singleton]
  by_cases h : taken.any Char.isDigit = true
  · simp [h]
  · simp only [h, Bool.false_eq_true, ↓reduceIte, Bool.false_or]
    split <;> omega

theorem size_settle_le_returnable (taken : List Char) (c : Cursor) :
    (settle taken c).2.size ≤ c.size + returnable taken := by
  simp only [settle, returnable]
  split
  · exact Nat.le_refl _
  · exact Nat.le_of_eq (Cursor.size_inject c taken)

theorem size_scanScientific_le (taken : List Char) (c : Cursor) :
    (scanScientific taken c).2.size ≤ c.size + returnable taken := by
  fun_induction scanScientific taken c with
  | case1 => exact size_settle_le_returnable _ _
  | case2 taken c x h _ ih =>
    have := Cursor.size_pop_lt h
    have := returnable_append_singleton_le taken x
    omega
  | case3 => exact Nat.le_add_right _ _
  | case4 taken c x h =>
    have := Cursor.size_pop_le c
    have : (readPlain c.pop.2).2.size ≤ c.pop.2.size := size_readPlain_le _
    grind
  | case5 taken c x h =>
    have := Cursor.size_pop_le c
    have : (readPlain c.pop.2).2.size ≤ c.pop.2.size := size_readPlain_le _
    grind
  | case6 taken c x h =>
    have := Cursor.size_pop_le c
    have : (readPlain c.pop.2).2.size ≤ c.pop.2.size := size_readPlain_le _
    grind [returnable]
  | case7 => exact size_settle_le_returnable _ _

theorem size_readNumber_le (exponent : Bool) (c : Cursor) :
    (readNumber exponent c).2.size ≤ c.size := by
  simp only [readNumber]
  split
  · exact Nat.le_trans (size_scanScientific_le [] c.skipBlanks) (Cursor.size_skipBlanks_le c)
  · exact size_readPlain_le c

theorem size_readWord_le (expected : Bool) (c : Cursor) :
    (readWord expected c).2.size ≤ c.size := by
  have := Cursor.size_take_le (word expected).length c
  simp only [readWord]
  split <;> exact this

theorem size_readBoolean_le (c : Cursor) : (readBoolean c).2.size ≤ c.size := by
  have hs := Cursor.size_skipBlanks_le c
  simp only [readBoolean]
  split
  · exact Nat.le_trans (size_readWord_le _ _) hs
  · exact Nat.le_trans (size_readWord_le _ _) hs
  · exact hs

theorem size_readValue_le (c : Cursor) : (readValue c).2.size ≤ c.size := by
  have hs := Cursor.size_skipBlanks_le c
  simp only [readValue]
  split
  · exact hs
  · split
    · exact Nat.le_trans (size_readString_le _) hs
    · split
      · exact Nat.le_trans (size_readNumber_le _ _) hs
      · split
        · exact Nat.le_trans (size_readBoolean_le _) hs
        · exact hs

end Literal

end Reckoner
