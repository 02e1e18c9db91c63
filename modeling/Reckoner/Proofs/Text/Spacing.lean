import Mathlib.Data.List.TakeWhile
import Reckoner.Text.Blank

/-!
# Spacing

A text spells a row of lexemes if it is the lexemes in order, with any number of blanks before each
and after the last (`Spaced`), or before each only (`Led`). A spelling of two rows in turn is cut
where the second row begins (`Spaced.append`, `Spaced.of_append`).
-/

namespace Reckoner.Text

theorem toNat_of_isBlank {x : Char} (h : isBlank x = true) : x.toNat ≤ 0x20 ∨ 0x85 ≤ x.toNat := by
  simp only [isBlank, Bool.or_eq_true, Bool.and_eq_true, decide_eq_true_eq, beq_iff_eq] at h
  omega

/-- Nothing but blanks. -/
def Blanks (cs : List Char) : Prop :=
  ∀ x ∈ cs, isBlank x = true

instance (cs : List Char) : Decidable (Blanks cs) :=
  decidable_of_iff (cs.all isBlank = true) List.all_eq_true

theorem blanks_nil : Blanks [] := by
  simp [Blanks]

theorem Blanks.append {a b : List Char} (ha : Blanks a) (hb : Blanks b) : Blanks (a ++ b) := by
  intro x hx
  rcases List.mem_append.1 hx with h | h
  · exact ha x h
  · exact hb x h

theorem blanks_takeWhile (cs : List Char) : Blanks (cs.takeWhile isBlank) :=
  fun _ hx => List.mem_takeWhile_imp hx

theorem Blanks.dropWhile_append {gap : List Char} (h : Blanks gap) (cs : List Char) :
    (gap ++ cs).dropWhile isBlank = cs.dropWhile isBlank := by
  induction gap with
  | nil => rfl
  | cons x gap ih =>
    rw [List.cons_append, List.dropWhile_cons_of_pos (h x List.mem_cons_self)]
    exact ih fun y hy => h y (List.mem_cons_of_mem _ hy)

theorem dropWhile_isBlank_cons {x : Char} (h : isBlank x = false) (cs : List Char) :
    (x :: cs).dropWhile isBlank = x :: cs :=
  List.dropWhile_cons_of_neg (by simp [h])

theorem dropWhile_isBlank_idem (cs : List Char) :
    (cs.dropWhile isBlank).dropWhile isBlank = cs.dropWhile isBlank := by
  induction cs with
  | nil => rfl
  | cons x cs ih =>
    by_cases h : isBlank x = true
    · rw [List.dropWhile_cons_of_pos h, ih]
    · rw [dropWhile_isBlank_cons (by simpa using h), dropWhile_isBlank_cons (by simpa using h)]

theorem of_mem_head?_dropWhile {test : Char → Bool} {cs : List Char} :
    ∀ x ∈ (cs.dropWhile test).head?, test x = false := by
  intro x hx
  have := List.head?_dropWhile_not test cs
  rw [Option.mem_def.1 hx] at this
  simpa using this

/-- The text is blank up to a character that passes the test, or to its end. -/
def Before (test : Char → Bool) (cs : List Char) : Prop :=
  ∀ x ∈ (cs.dropWhile isBlank).head?, test x = true

instance (test : Char → Bool) (cs : List Char) : Decidable (Before test cs) :=
  decidable_of_iff ((cs.dropWhile isBlank).head?.all test = true) (Option.all_eq_true test _)

theorem before_nil (test : Char → Bool) : Before test [] := by
  simp [Before]

theorem before_cons {test : Char → Bool} {x : Char} (hx : isBlank x = false) (ht : test x = true)
    (cs : List Char) : Before test (x :: cs) := by
  intro y hy
  rw [dropWhile_isBlank_cons hx] at hy
  simp only [List.head?_cons, Option.mem_some_iff] at hy
  exact hy ▸ ht

theorem Before.mono {p q : Char → Bool} {cs : List Char} (h : Before p cs)
    (hpq : ∀ x, p x = true → q x = true) : Before q cs :=
  fun x hx => hpq x (h x hx)

/-- A character that fails the test does not come next. -/
theorem Before.ne {p : Char → Bool} {y : Char} {cs : List Char} (h : Before p cs)
    (hy : p y = false) : Before (· ≠ y) cs := by
  refine h.mono fun x hx => ?_
  rw [decide_eq_true_eq]
  rintro rfl
  rw [hy] at hx
  cases hx

theorem Before.of_eq {p : Char → Bool} {y : Char} {cs : List Char} (h : Before (· = y) cs)
    (hy : p y = true) : Before p cs :=
  h.mono fun x hx => by rwa [of_decide_eq_true hx]

theorem Before.blanks_append {p : Char → Bool} {gap cs : List Char} (h : Before p cs)
    (hg : Blanks gap) : Before p (gap ++ cs) := by
  rwa [Before, hg.dropWhile_append]

theorem Before.head {p : Char → Bool} {cs : List Char} (h : Before p cs) :
    ∀ x ∈ cs.head?, isBlank x = true ∨ p x = true := by
  intro x hx
  by_cases hb : isBlank x = true
  · exact .inl hb
  · obtain ⟨rest, rfl⟩ := List.head?_eq_some_iff.1 hx
    refine .inr (h x ?_)
    rw [dropWhile_isBlank_cons (by simpa using hb)]
    rfl

/-- Where blanks and passing characters all fail another test, so does what comes first. -/
theorem Before.head_of_imp {p q : Char → Bool} {cs : List Char} (h : Before p cs)
    (hb : ∀ x, isBlank x = true → q x = false) (hp : ∀ x, p x = true → q x = false) :
    ∀ x ∈ cs.head?, q x = false :=
  fun x hx => (h.head x hx).elim (hb x) (hp x)

/-- No lexeme is empty or begins with a blank. -/
def Solid (ls : List (List Char)) : Prop :=
  ∀ l ∈ ls, ∃ x k, l = x :: k ∧ isBlank x = false

theorem solid_append {ls ms : List (List Char)} : Solid (ls ++ ms) ↔ Solid ls ∧ Solid ms :=
  List.forall_mem_append

theorem solid_cons {l : List Char} {ls : List (List Char)} :
    Solid (l :: ls) ↔ (∃ x k, l = x :: k ∧ isBlank x = false) ∧ Solid ls :=
  List.forall_mem_cons

/-- The text is the lexemes in order, with any blanks around them. -/
inductive Spaced : List (List Char) → List Char → Prop
  | nil {gap : List Char} : Blanks gap → Spaced [] gap
  | cons {gap l cs : List Char} {ls : List (List Char)} :
    Blanks gap → Spaced ls cs → Spaced (l :: ls) (gap ++ l ++ cs)

theorem spaced_nil_iff {cs : List Char} : Spaced [] cs ↔ Blanks cs :=
  ⟨fun h => by cases h; assumption, .nil⟩

theorem Spaced.of_cons {l : List Char} {ls : List (List Char)} {cs : List Char}
    (h : Spaced (l :: ls) cs) :
    ∃ gap rest, cs = gap ++ l ++ rest ∧ Blanks gap ∧ Spaced ls rest := by
  cases h with
  | cons hg hs => exact ⟨_, _, rfl, hg, hs⟩

theorem Spaced.infix {ls : List (List Char)} {cs l : List Char} (h : Spaced ls cs) (hl : l ∈ ls) :
    ∃ a b, cs = a ++ l ++ b := by
  induction h with
  | nil => cases hl
  | @cons gap k cs ls _ _ ih =>
    rcases List.mem_cons.1 hl with rfl | hl
    · exact ⟨gap, cs, rfl⟩
    · obtain ⟨a, b, rfl⟩ := ih hl
      exact ⟨gap ++ k ++ a, b, by simp⟩

/-- A text without blanks is the lexemes put together. -/
theorem Spaced.eq_flatten {ls : List (List Char)} {cs : List Char} (h : Spaced ls cs)
    (hcs : ∀ x ∈ cs, isBlank x = false) : cs = ls.flatten := by
  have hnil : ∀ gap : List Char, Blanks gap → (∀ x ∈ gap, isBlank x = false) → gap = [] := by
    intro gap hg hn
    refine List.eq_nil_iff_forall_not_mem.2 fun x hx => ?_
    have := hg x hx
    rw [hn x hx] at this
    cases this
  induction h with
  | nil hg => exact hnil _ hg hcs
  | @cons gap l cs ls hg _ ih =>
    rw [hnil gap hg fun x hx => hcs x (by simp [hx]), List.nil_append, List.flatten_cons,
      ← ih fun x hx => hcs x (by simp [hx])]

theorem Spaced.blanks_append {gap cs : List Char} {ls : List (List Char)} (hg : Blanks gap)
    (h : Spaced ls cs) : Spaced ls (gap ++ cs) := by
  cases h with
  | nil h => exact .nil (hg.append h)
  | cons hg' hs =>
    rw [← List.append_assoc, ← List.append_assoc]
    exact .cons (hg.append hg') hs

theorem Spaced.append {a b : List Char} {ls ms : List (List Char)} (ha : Spaced ls a)
    (hb : Spaced ms b) : Spaced (ls ++ ms) (a ++ b) := by
  induction ha with
  | nil hg => exact hb.blanks_append hg
  | cons hg _ ih =>
    rw [List.append_assoc]
    exact .cons hg ih

theorem Spaced.of_append {cs : List Char} {ls ms : List (List Char)} (h : Spaced (ls ++ ms) cs) :
    ∃ a b, cs = a ++ b ∧ Spaced ls a ∧ Spaced ms b := by
  induction ls generalizing cs with
  | nil => exact ⟨[], cs, rfl, .nil blanks_nil, h⟩
  | cons l ls ih =>
    obtain ⟨gap, rest, rfl, hg, hs⟩ := h.of_cons
    obtain ⟨a, b, rfl, ha, hb⟩ := ih hs
    exact ⟨gap ++ l ++ a, b, (List.append_assoc ..).symm, .cons hg ha, hb⟩

/-- One lexeme after blanks. -/
theorem spaced_singleton {gap l : List Char} (hg : Blanks gap) : Spaced [l] (gap ++ l) := by
  simpa using Spaced.cons hg (.nil blanks_nil) (l := l)

/-- Takes the lexemes off the front of the text, and blanks before each and after the last. -/
def spells : List (List Char) → List Char → Bool
  | [], cs => cs.all isBlank
  | l :: ls, cs => l.isPrefixOf (cs.dropWhile isBlank) &&
    spells ls ((cs.dropWhile isBlank).drop l.length)

theorem spaced_of_spells : {ls : List (List Char)} → {cs : List Char} → spells ls cs = true →
    Spaced ls cs
  | [], cs, h => .nil (List.all_eq_true.1 h)
  | l :: ls, cs, h => by
    rw [spells, Bool.and_eq_true, List.isPrefixOf_iff_prefix] at h
    obtain ⟨⟨rest, hrest⟩, h⟩ := h
    rw [← hrest, List.drop_left] at h
    have hcs := List.takeWhile_append_dropWhile (p := isBlank) (l := cs)
    rw [← hcs, ← hrest, ← List.append_assoc]
    exact .cons (blanks_takeWhile cs) (spaced_of_spells h)

/-- The text is the lexemes in order, with any blanks before each. -/
inductive Led : List (List Char) → List Char → Prop
  | nil : Led [] []
  | cons {gap l cs : List Char} {ls : List (List Char)} :
    Blanks gap → Led ls cs → Led (l :: ls) (gap ++ l ++ cs)

theorem Led.of_cons {l : List Char} {ls : List (List Char)} {cs : List Char}
    (h : Led (l :: ls) cs) : ∃ gap rest, cs = gap ++ l ++ rest ∧ Blanks gap ∧ Led ls rest := by
  cases h with
  | cons hg hs => exact ⟨_, _, rfl, hg, hs⟩

/-- A lexeme with nothing before it. -/
theorem Led.prepend {cs : List Char} {ls : List (List Char)} (h : Led ls cs) (l : List Char) :
    Led (l :: ls) (l ++ cs) :=
  .cons blanks_nil h

theorem led_singleton (l : List Char) : Led [l] l := by
  simpa using Led.nil.prepend l

theorem Led.blanks_append {gap cs : List Char} {ls : List (List Char)} (h : Led ls cs)
    (hne : ls ≠ []) (hg : Blanks gap) : Led ls (gap ++ cs) := by
  cases h with
  | nil => exact absurd rfl hne
  | cons hg' hs =>
    rw [← List.append_assoc, ← List.append_assoc]
    exact .cons (hg.append hg') hs

theorem Led.append {a b : List Char} {ls ms : List (List Char)} (ha : Led ls a) (hb : Led ms b) :
    Led (ls ++ ms) (a ++ b) := by
  induction ha with
  | nil => exact hb
  | cons hg _ ih =>
    rw [List.append_assoc]
    exact .cons hg ih

theorem Led.of_append {cs : List Char} {ls ms : List (List Char)} (h : Led (ls ++ ms) cs) :
    ∃ a b, cs = a ++ b ∧ Led ls a ∧ Led ms b := by
  induction ls generalizing cs with
  | nil => exact ⟨[], cs, rfl, .nil, h⟩
  | cons l ls ih =>
    obtain ⟨gap, rest, rfl, hg, hs⟩ := h.of_cons
    obtain ⟨a, b, rfl, ha, hb⟩ := ih hs
    exact ⟨gap ++ l ++ a, b, (List.append_assoc ..).symm, .cons hg ha, hb⟩

theorem Led.spaced {ls : List (List Char)} {cs : List Char} (h : Led ls cs) : Spaced ls cs := by
  induction h with
  | nil => exact .nil blanks_nil
  | cons hg _ ih => exact .cons hg ih

/-- What follows the last lexeme is blank. -/
theorem Spaced.exists_led {ls : List (List Char)} {cs : List Char} (h : Spaced ls cs) :
    ∃ text gap, cs = text ++ gap ∧ Led ls text ∧ Blanks gap := by
  induction h with
  | @nil gap hg => exact ⟨[], gap, rfl, .nil, hg⟩
  | @cons gap l cs ls hg _ ih =>
    obtain ⟨text, rest, rfl, hled, hrest⟩ := ih
    exact ⟨gap ++ l ++ text, rest, (List.append_assoc ..).symm, .cons hg hled, hrest⟩

theorem Led.before {p : Char → Bool} {x : Char} {cs : List Char} {ls : List (List Char)}
    (h : Led ([x] :: ls) cs) (hx : isBlank x = false) (ht : p x = true) (post : List Char) :
    Before p (cs ++ post) := by
  obtain ⟨gap, rest, rfl, hg, -⟩ := h.of_cons
  rw [List.append_assoc, List.append_assoc]
  exact (before_cons hx ht _).blanks_append hg

end Reckoner.Text
