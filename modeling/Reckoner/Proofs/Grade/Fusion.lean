import Reckoner.Proofs.Grade.Derivation
import Reckoner.Proofs.Literal.Numeral
import Reckoner.Proofs.Text.Passing

/-!
# Pluses taken for signs

A term is open if it ends where a number may stand and none does: behind a parenthesis, or behind a
slash. A plus between an open term and an unsigned number is the sign of that number to a reader,
unless blanks part the two. The lexemes of a derivation fuse where this happens
(`Term.Derivation.Fuses`), and the open term would end in the number then (`Term.Derivation.fill`).
-/

namespace Reckoner

open Text Grammar

namespace Term

/-- The term ends where a number may stand and none does. -/
inductive Derivation.IsOpen : Derivation → Prop
  | divided {before : Multipliers} {name : Word} : (grade before name (some none)).IsOpen
  | closed {before : Multipliers} {members : Row} : (group before members none none).IsOpen
  | closedDivided {before : Multipliers} {members : Row} {after : Option Numeral} :
    (group before members after (some none)).IsOpen

/-- The derivation with a number in the place at its end. -/
def Derivation.fill (n : Numeral) : Derivation → Derivation
  | .grade before name _ => .grade before name (some (some n))
  | .group before members _ none => .group before members (some n) none
  | .group before members after (some _) => .group before members after (some (some n))

theorem Derivation.lexemes_fill {d : Derivation} (h : d.IsOpen) (n : Numeral) :
    (d.fill n).lexemes = d.lexemes ++ [n.chars] := by
  cases h <;> simp [fill, lexemes, Divisor.lexemes, marked]

mutual

/-- The lexemes with one plus in front of the number behind it. -/
inductive Derivation.Fuses : Derivation → List (List Char) → Prop
  | group {before : Multipliers} {members : Row} {after : Option Numeral} {divisor : Divisor}
    {ls : List (List Char)} : members.Fuses ls → (Derivation.group before members after divisor).Fuses
      (before.lexemes ++ ['('] :: (ls ++ [')'] :: (after.toList.map Numeral.chars ++ divisor.lexemes)))

inductive Row.Fuses : Row → List (List Char) → Prop
  | last {t : Derivation} {ls : List (List Char)} : t.Fuses ls → (Row.last t).Fuses ls
  | head {t : Derivation} {rest : Row} {ls : List (List Char)} : t.Fuses ls →
    (Row.cons t rest).Fuses (ls ++ ['+'] :: rest.lexemes)
  | tail {t : Derivation} {rest : Row} {ls : List (List Char)} : rest.Fuses ls →
    (Row.cons t rest).Fuses (t.lexemes ++ ['+'] :: ls)
  | join {t : Derivation} {rest : Row} {x : Char} {l : List Char} {ls : List (List Char)} :
    t.IsOpen → rest.lexemes = (x :: l) :: ls → inNumeral x = true →
    (Row.cons t rest).Fuses (t.lexemes ++ ('+' :: x :: l) :: ls)

end

/-- Some plus that joins two terms stands in the text as the sign of the number behind it. -/
def Derivation.Misread (d : Derivation) (cs : List Char) : Prop :=
  ∃ ls, d.Fuses ls ∧ Spaced ls cs

theorem Derivation.fuses_fill {d : Derivation} {ls : List (List Char)} {n : Numeral} (hd : d.IsOpen)
    (h : (d.fill n).Fuses ls) : ∃ ms, d.Fuses ms ∧ ls = ms ++ [n.chars] := by
  cases hd with
  | divided => cases h
  | closed | closedDivided =>
    cases h with
    | group h => exact ⟨_, .group h, by simp [Divisor.lexemes, marked]⟩

mutual

/-- Where lexemes fuse, one of them is a plus with a number behind it. -/
theorem Derivation.exists_of_fuses : (d : Derivation) → {ls : List (List Char)} → d.Fuses ls →
    ∃ x l, '+' :: x :: l ∈ ls ∧ inNumeral x = true
  | .grade .., _, h => nomatch h
  | .group _ members _ _, _, .group h => by
    obtain ⟨x, l, hl, hx⟩ := members.exists_of_fuses h
    exact ⟨x, l, by simp [hl], hx⟩

theorem Row.exists_of_fuses : (ts : Row) → {ls : List (List Char)} → ts.Fuses ls →
    ∃ x l, '+' :: x :: l ∈ ls ∧ inNumeral x = true
  | .last t, _, .last h => t.exists_of_fuses h
  | .cons t _, _, .head h => by
    obtain ⟨x, l, hl, hx⟩ := t.exists_of_fuses h
    exact ⟨x, l, List.mem_append_left _ hl, hx⟩
  | .cons _ rest, _, .tail h => by
    obtain ⟨x, l, hl, hx⟩ := rest.exists_of_fuses h
    exact ⟨x, l, List.mem_append_right _ (.tail _ hl), hx⟩
  | .cons _ _, _, .join _ _ hx => ⟨_, _, List.mem_append_right _ (.head _), hx⟩

end

end Term

end Reckoner
