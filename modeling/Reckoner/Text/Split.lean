/-!
# Splitting at a character

The pieces of a row of characters between separators. Joined by the separator again, they are the
row that was split (`intercalate_split`).
-/

namespace Reckoner.Text

/-- The pieces between the separators, one more than there are separators. -/
def split (sep : Char) : List Char → List (List Char)
  | [] => [[]]
  | c :: cs =>
    if c = sep then [] :: split sep cs
    else
      match split sep cs with
      | [] => [[c]]
      | p :: ps => (c :: p) :: ps

theorem split_ne_nil (sep : Char) (cs : List Char) : split sep cs ≠ [] := by
  cases cs with
  | nil => simp [split]
  | cons c cs =>
    simp only [split]
    split
    · simp
    · split <;> simp

theorem intercalate_split (sep : Char) (cs : List Char) :
    [sep].intercalate (split sep cs) = cs := by
  induction cs with
  | nil => rfl
  | cons c cs ih =>
    obtain ⟨p, ps, h⟩ := List.exists_cons_of_ne_nil (split_ne_nil sep cs)
    simp only [split]
    rw [h] at ih ⊢
    split
    · rename_i hc
      rw [hc, ← ih]
      simp [List.intercalate]
    · rw [← ih]
      cases ps <;> simp [List.intercalate]

end Reckoner.Text
