import Reckoner.Proofs.Grade.Reading

/-!
# How terms are joined

The lexemes of a formula in which every plus between terms is written alike: with a space behind it
(`Term.wide`), or with nothing between it and the next term (`Term.tight`). Either spells the formula
(`Term.Derivation.passed_of_joined`). In the first no plus is fused with a number
(`Term.Derivation.not_passed_wide`), in the second every plus that can be is
(`Term.Derivation.passed_tight`).
-/

namespace Reckoner

open Text Grammar

namespace Term

variable {cs post : List Char} {ls : List (List Char)}

/-- A plus with a space behind it, and any blanks in front. -/
def wide (ls : List (List Char)) : List (List Char) :=
  ['+', ' '] :: ls

/-- A plus with nothing between it and what comes next, and any blanks in front. -/
def tight : List (List Char) → List (List Char)
  | [] => [['+']]
  | l :: ls => ('+' :: l) :: ls

section Joined

variable (join : List (List Char) → List (List Char))

mutual

/-- The lexemes, if `join` puts a plus in front of the terms behind it. -/
def Derivation.joined : Derivation → List (List Char)
  | .grade before name divisor => before.lexemes ++ name.chars :: divisor.lexemes
  | .group before members after divisor => before.lexemes ++
    ['('] :: (members.joined ++ [')'] :: (after.toList.map Numeral.chars ++ divisor.lexemes))

def Row.joined : Row → List (List Char)
  | .last t => t.joined
  | .cons t rest => t.joined ++ join rest.joined

end

theorem Derivation.opens_joined (d : Derivation) : Opens (d.joined join) := by
  cases d with
  | grade before name divisor => exact (Derivation.grade before name divisor).opens_lexemes
  | group before members after divisor => exact ⟨before, '(', [], _, rfl, rfl⟩

theorem Row.opens_joined (ts : Row) : Opens (ts.joined join) := by
  cases ts with
  | last t => exact t.opens_joined join
  | cons t rest => exact (t.opens_joined join).append _

variable {join}

mutual

/-- Joined by pluses, the terms spell the formula. -/
theorem Derivation.passed_of_joined
    (hj : ∀ {ls cs post}, Passed (join ls) cs post → Passed (['+'] :: ls) cs post) :
    (d : Derivation) → {cs post : List Char} → Passed (d.joined join) cs post →
    Passed d.lexemes cs post
  | .grade .., _, _, hp => hp
  | .group before members after divisor, _, _, hp => by
    obtain ⟨rest₁, hbefore, hp⟩ := hp.of_append
    obtain ⟨gap, rest₂, rfl, hg, hp⟩ := hp.of_cons
    obtain ⟨rest₃, hmembers, hp⟩ := hp.of_append
    have hmembers := members.passed_of_joined hj hmembers
    exact hbefore.append ((passed_char hg '(' rest₂).append (hmembers.append hp))

theorem Row.passed_of_joined
    (hj : ∀ {ls cs post}, Passed (join ls) cs post → Passed (['+'] :: ls) cs post) :
    (ts : Row) → {cs post : List Char} → Passed (ts.joined join) cs post →
    Passed ts.lexemes cs post
  | .last t, _, _, hp => t.passed_of_joined hj hp
  | .cons t rest, _, _, hp => by
    obtain ⟨rest₁, ht, hp⟩ := hp.of_append
    obtain ⟨gap, rest₂, rfl, hg, hp⟩ := (hj hp).of_cons
    have hrest := (passed_char hg '+' rest₂).append (rest.passed_of_joined hj hp)
    exact (t.passed_of_joined hj ht).append hrest

end

end Joined

section Solid

theorem solid_numeral (n : Option Numeral) : Solid (n.toList.map Numeral.chars) := by
  intro l hl
  obtain ⟨k, -, rfl⟩ := List.mem_map.1 hl
  obtain ⟨x, xs, hk, hx, -⟩ := k.chars_eq_cons
  exact ⟨x, xs, hk, isBlank_of_startsNumeral hx⟩

theorem solid_marked {mark : Char} (h : isBlank mark = false) (n : Option Numeral) :
    Solid (marked mark n) :=
  solid_cons.2 ⟨⟨mark, [], rfl, h⟩, solid_numeral n⟩

theorem Multipliers.solid_lexemes (m : Multipliers) : Solid m.lexemes := by
  refine solid_append.2 ⟨solid_numeral m.first, fun l hl => ?_⟩
  obtain ⟨n, -, hl⟩ := List.mem_flatMap.1 hl
  exact solid_marked rfl n l hl

theorem Divisor.solid_lexemes (d : Divisor) : Solid d.lexemes := by
  cases d with
  | none => exact fun _ h => nomatch h
  | some n => exact solid_marked rfl n

mutual

theorem Derivation.solid_lexemes : (d : Derivation) → Solid d.lexemes
  | .grade before name divisor => by
    obtain ⟨x, xs, hname, hx, -⟩ := name.chars_eq_cons
    exact solid_append.2 ⟨before.solid_lexemes,
      solid_cons.2 ⟨⟨x, xs, hname, isBlank_of_isNameStart hx⟩, divisor.solid_lexemes⟩⟩
  | .group before members after divisor => by
    have hend := solid_append.2 ⟨solid_numeral after, divisor.solid_lexemes⟩
    have hclose := solid_cons.2 ⟨⟨')', [], rfl, rfl⟩, hend⟩
    exact solid_append.2 ⟨before.solid_lexemes,
      solid_cons.2 ⟨⟨'(', [], rfl, rfl⟩, solid_append.2 ⟨members.solid_lexemes, hclose⟩⟩⟩

theorem Row.solid_lexemes : (ts : Row) → Solid ts.lexemes
  | .last t => t.solid_lexemes
  | .cons t rest =>
    solid_append.2 ⟨t.solid_lexemes, solid_cons.2 ⟨⟨'+', [], rfl, rfl⟩, rest.solid_lexemes⟩⟩

end

end Solid

section Wide

theorem blanks_space : Blanks [' '] := by
  decide

theorem exists_of_wide (h : Passed (wide ls) cs post) :
    ∃ gap rest, cs = gap ++ '+' :: ' ' :: rest ∧ Blanks gap ∧ Passed ls rest post := by
  obtain ⟨gap, rest, rfl, hg, h⟩ := h.of_cons
  exact ⟨gap, rest, rfl, hg, h⟩

theorem passed_of_wide (h : Passed (wide ls) cs post) : Passed (['+'] :: ls) cs post := by
  obtain ⟨gap, rest, rfl, hg, h⟩ := exists_of_wide h
  exact (passed_char hg '+' _).append (h.blanks_append blanks_space)

/-- Where the same solid lexemes and a mark are passed in two ways, the same comes after the mark. -/
theorem eq_of_passed {gap gap' rest rest' : List Char} {x : Char} (hls : Solid ls)
    (hx : isBlank x = false) (h : Passed ls cs (gap ++ x :: rest)) (hg : Blanks gap)
    (h' : Passed ls cs (gap' ++ x :: rest')) (hg' : Blanks gap') : rest = rest' := by
  have hdrop := h.dropWhile_eq hls h'
  rw [hg.dropWhile_append, hg'.dropWhile_append, dropWhile_isBlank_cons hx,
    dropWhile_isBlank_cons hx] at hdrop
  exact (List.cons.inj hdrop).2

mutual

/-- With a space behind each plus, none is fused. -/
theorem Derivation.not_passed_wide : (d : Derivation) → {ls : List (List Char)} → d.Fuses ls →
    {cs post post' : List Char} → Passed (d.joined wide) cs post → ¬ Passed ls cs post'
  | .grade .., _, h, _, _, _, _ => nomatch h
  | .group before members after divisor, _, .group h, _, _, _, hp => by
    intro hls
    obtain ⟨rest₁, hbefore, hp⟩ := hp.of_append
    obtain ⟨gap, rest₂, rfl, hg, hp⟩ := hp.of_cons
    obtain ⟨rest₁', hbefore', hls⟩ := hls.of_append
    obtain ⟨gap', rest₂', rfl, hg', hls⟩ := hls.of_cons
    obtain rfl := eq_of_passed before.solid_lexemes (x := '(') rfl hbefore hg hbefore' hg'
    obtain ⟨_, hmembers, -⟩ := hp.of_append
    obtain ⟨_, hmembers', -⟩ := hls.of_append
    exact members.not_passed_wide h hmembers hmembers'

theorem Row.not_passed_wide : (ts : Row) → {ls : List (List Char)} → ts.Fuses ls →
    {cs post post' : List Char} → Passed (ts.joined wide) cs post → ¬ Passed ls cs post'
  | .last t, _, .last h, _, _, _, hp => t.not_passed_wide h hp
  | .cons t rest, _, .head h, _, _, _, hp => by
    intro hls
    obtain ⟨_, ht, -⟩ := hp.of_append
    obtain ⟨_, ht', -⟩ := hls.of_append
    exact t.not_passed_wide h ht ht'
  | .cons t rest, _, .tail h, _, _, _, hp => by
    intro hls
    obtain ⟨rest₁, ht, hp⟩ := hp.of_append
    obtain ⟨gap, rest₂, rfl, hg, hp⟩ := exists_of_wide hp
    obtain ⟨rest₁', ht', hls⟩ := hls.of_append
    obtain ⟨gap', rest₂', rfl, hg', hls⟩ := hls.of_cons
    obtain rfl := eq_of_passed t.solid_lexemes (x := '+') rfl (t.passed_of_joined passed_of_wide ht) hg
      ht' hg'
    exact rest.not_passed_wide h (hp.blanks_append blanks_space) hls
  | .cons t rest, _, .join _ _ hx, _, _, _, hp => by
    intro hls
    obtain ⟨rest₁, ht, hp⟩ := hp.of_append
    obtain ⟨gap, rest₂, rfl, hg, hp⟩ := exists_of_wide hp
    obtain ⟨rest₁', ht', hls⟩ := hls.of_append
    obtain ⟨gap', rest₂', rfl, hg', hls⟩ := hls.of_cons
    have heq := eq_of_passed t.solid_lexemes (x := '+') rfl (t.passed_of_joined passed_of_wide ht) hg
      ht' hg'
    rw [← (List.cons.inj heq).1] at hx
    cases hx

end

end Wide

section Tight

theorem exists_of_tight {x : Char} {l : List Char} (h : Passed (tight ((x :: l) :: ls)) cs post) :
    ∃ gap rest, cs = gap ++ '+' :: x :: rest ∧ Blanks gap ∧ Passed ((x :: l) :: ls) (x :: rest) post := by
  obtain ⟨gap, rest, rfl, hg, h⟩ := h.of_cons
  exact ⟨gap, l ++ rest, by simp, hg, (passed_lexeme (x :: l) rest).append h⟩

theorem passed_of_tight (h : Passed (tight ls) cs post) : Passed (['+'] :: ls) cs post := by
  cases ls with
  | nil => exact h
  | cons l ls =>
    obtain ⟨gap, rest, rfl, hg, h⟩ := h.of_cons
    exact (passed_char hg '+' (l ++ rest)).append ((passed_lexeme l rest).append h)

mutual

/-- With nothing behind a plus, every one that can be is fused. -/
theorem Derivation.passed_tight : (d : Derivation) → {ls : List (List Char)} → d.Fuses ls →
    {cs post : List Char} → Passed (d.joined tight) cs post → Passed ls cs post
  | .grade .., _, h, _, _, _ => nomatch h
  | .group before members after divisor, _, .group h, _, _, hp => by
    obtain ⟨rest₁, hbefore, hp⟩ := hp.of_append
    obtain ⟨gap, rest₂, rfl, hg, hp⟩ := hp.of_cons
    obtain ⟨rest₃, hmembers, hp⟩ := hp.of_append
    have hmembers := members.passed_tight h hmembers
    exact hbefore.append ((passed_char hg '(' rest₂).append (hmembers.append hp))

theorem Row.passed_tight : (ts : Row) → {ls : List (List Char)} → ts.Fuses ls →
    {cs post : List Char} → Passed (ts.joined tight) cs post → Passed ls cs post
  | .last t, _, .last h, _, _, hp => t.passed_tight h hp
  | .cons t rest, _, .head h, _, _, hp => by
    obtain ⟨rest₁, ht, hp⟩ := hp.of_append
    obtain ⟨gap, rest₂, rfl, hg, hp⟩ := (passed_of_tight hp).of_cons
    have hrest := (passed_char hg '+' rest₂).append (rest.passed_of_joined passed_of_tight hp)
    exact (t.passed_tight h ht).append hrest
  | .cons t rest, _, .tail h, _, _, hp => by
    obtain ⟨rest₁, ht, hp⟩ := hp.of_append
    obtain ⟨gap, rest₂, rfl, hg, hp⟩ := (passed_of_tight hp).of_cons
    have hrest := (passed_char hg '+' rest₂).append (rest.passed_tight h hp)
    exact (t.passed_of_joined passed_of_tight ht).append hrest
  | .cons t rest, _, .join _ hl _, _, _, hp => by
    obtain ⟨rest₁, ht, hp⟩ := hp.of_append
    obtain ⟨y, k, ms, hms, hy⟩ := (rest.opens_joined tight).exists_cons
    rw [hms] at hp
    obtain ⟨gap, rest₂, rfl, hg, hp⟩ := exists_of_tight hp
    rw [← hms] at hp
    have hrest := rest.passed_of_joined passed_of_tight hp
    rw [hl] at hrest
    obtain ⟨rfl, hfused⟩ := hrest.grow hy '+'
    exact (t.passed_of_joined passed_of_tight ht).append (hfused.blanks_append hg)

end

end Tight

end Term

end Reckoner
