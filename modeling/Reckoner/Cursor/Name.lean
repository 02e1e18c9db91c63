import Reckoner.Cursor.Runs

/-!
# Names

A name is a letter or an underscore and whatever letters, digits and underscores follow, all of
them ASCII. It starts at the cursor itself: blanks before it are not skipped.
-/

namespace Reckoner

namespace Cursor

/-- Whether a name can start with the character. -/
def isNameStart (c : Char) : Bool :=
  c.isAlpha || c = '_'

/-- Whether a name can go on with the character. -/
def isNameRest (c : Char) : Bool :=
  c.isAlphanum || c = '_'

/-- The longest name at the cursor, if one starts there. -/
def name (c : Cursor) : Option String × Cursor :=
  if c.peek.any isNameStart then
    let (cs, rest) := c.takeWhile isNameRest
    (some (String.ofList cs), rest)
  else (none, c)

theorem size_name_le (c : Cursor) : c.name.2.size ≤ c.size := by
  simp only [name]
  split
  · exact size_takeWhile_le _ c
  · exact Nat.le_refl _

end Cursor

end Reckoner
