import Reckoner.Cursor.Basic

/-!
# Runs of characters

Reading several characters at once: as long as they satisfy a test (`takeWhile`), a fixed number of
them (`take`), or all that remain. Each leaves a cursor no longer than it found, and `isNext` a
shorter one whenever it finds what it looks for.
-/

namespace Reckoner

namespace Cursor

variable {σ : Type} [Supply σ]

/-- The characters up to the first that fails the test, and the cursor on that one. -/
def takeWhile (test : Char → Bool) (c : Cursor σ) : List Char × Cursor σ :=
  match _h : c.peek with
  | none => ([], c)
  | some x =>
    if test x then
      let (xs, rest) := takeWhile test c.pop.2
      (x :: xs, rest)
    else ([], c)
  termination_by c.size
  decreasing_by exact size_pop_lt _h

/-- At most `n` characters; fewer where the input ends first. -/
def take (n : Nat) (c : Cursor σ) : List Char × Cursor σ :=
  match n with
  | 0 => ([], c)
  | n + 1 =>
    match c.pop with
    | (none, rest) => ([], rest)
    | (some x, rest) =>
      let (xs, rest) := take n rest
      (x :: xs, rest)

/-- Moves past blanks. -/
def skipBlanks (c : Cursor σ) : Cursor σ :=
  (c.takeWhile Text.isBlank).2

/-- Moves past blanks, and past `x` if that is the next character: says whether it was. -/
def isNext (x : Char) (c : Cursor σ) : Bool × Cursor σ :=
  let c := c.skipBlanks
  if c.peek = some x then (true, c.pop.2) else (false, c)

/-- All characters up to the end, and the cursor there. -/
def drain (c : Cursor σ) : List Char × Cursor σ :=
  c.takeWhile fun _ => true

theorem size_takeWhile_le (test : Char → Bool) (c : Cursor σ) :
    (c.takeWhile test).2.size ≤ c.size := by
  fun_induction takeWhile test c with
  | case1 => exact Nat.le_refl _
  | case2 c x h _ xs rest heq ih =>
    simp only [heq] at ih
    exact Nat.le_trans ih (size_pop_le c)
  | case3 => exact Nat.le_refl _

theorem size_take_le (n : Nat) (c : Cursor σ) : (c.take n).2.size ≤ c.size := by
  fun_induction take n c with
  | case1 => exact Nat.le_refl _
  | case2 c n rest h => simpa [h] using size_pop_le c
  | case3 c n x rest h xs rest' heq ih =>
    simp only [heq] at ih
    exact Nat.le_trans ih (by simpa [h] using size_pop_le c)

theorem size_skipBlanks_le (c : Cursor σ) : c.skipBlanks.size ≤ c.size :=
  size_takeWhile_le _ c

theorem size_isNext_le (x : Char) (c : Cursor σ) : (c.isNext x).2.size ≤ c.size := by
  have h := size_skipBlanks_le c
  simp only [isNext]
  split
  · exact Nat.le_trans (size_pop_le _) h
  · exact h

/-- Finding the character consumes it. -/
theorem size_isNext_lt {x : Char} {c : Cursor σ} (h : (c.isNext x).1 = true) :
    (c.isNext x).2.size < c.size := by
  have hs := size_skipBlanks_le c
  simp only [isNext] at h ⊢
  split
  · rename_i hp
    exact Nat.lt_of_lt_of_le (size_pop_lt hp) hs
  · rename_i hp
    simp [hp] at h

end Cursor

end Reckoner
