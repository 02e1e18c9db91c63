import Reckoner.Proofs.Literal.Numeral

/-!
# Numbers with an exponent

A number of a document is a numeral, alone or with a mark and a second numeral behind it. The number
rule goes on with digits and points (`Literal.scanScientific_append`), stops in front of what is no part
of a number (`Literal.scanScientific_stop`), and behind a mark looks for the second numeral
(`Literal.scanScientific_mark`).
-/

namespace Reckoner

open Text Cursor

def isMark (x : Char) : Bool :=
  x = 'e' || x = 'E'

/-- Whether the character announces a number where any literal may come. -/
def announcesNumber (x : Char) : Bool :=
  x.isDigit || isSign x

/-- Whether a number that has begun, and has no exponent yet, can go on with the character. -/
def goesOn (x : Char) : Bool :=
  inNumeral x || isMark x

/-- A power of ten behind a mark. -/
structure Exponent where
  mark : Char
  isMark : isMark mark = true
  power : Numeral

/-- A number of a document, as it is written. -/
structure Scientific where
  mantissa : Numeral
  announced : mantissa.chars.head?.any announcesNumber = true
  exponent : Option Exponent

namespace Scientific

def chars (n : Scientific) : List Char :=
  n.mantissa.chars ++ n.exponent.elim [] fun e => e.mark :: e.power.chars

/-- The number that is spelled. -/
def value (n : Scientific) : Float :=
  n.exponent.elim n.mantissa.value fun e => n.mantissa.value * Float.pow 10 e.power.value

end Scientific

/-- A sign alone in front of a mark stands for one with that sign. -/
def withUnit (cs : List Char) : List Char :=
  if cs = ['+'] || cs = ['-'] then cs ++ ['1'] else cs

theorem Numeral.withUnit_chars (n : Numeral) : withUnit n.chars = n.chars := by
  have hd := n.any_isDigit
  rw [withUnit, if_neg]
  simp only [Bool.or_eq_true, decide_eq_true_eq, not_or]
  constructor <;> intro hc <;> rw [hc] at hd <;> exact absurd hd (by decide)

theorem isBlank_of_isMark {x : Char} (h : isMark x = true) : isBlank x = false := by
  simp only [isMark, Bool.or_eq_true, decide_eq_true_eq] at h
  rcases h with rfl | rfl <;> rfl

theorem not_startsNumeral_of_isMark {x : Char} (h : isMark x = true) :
    (isSign x || inNumeral x) = false := by
  simp only [isMark, Bool.or_eq_true, decide_eq_true_eq] at h
  rcases h with rfl | rfl <;> rfl

theorem startsNumeral_of_announcesNumber {x : Char} (h : announcesNumber x = true) :
    (isSign x || inNumeral x) = true := by
  rw [announcesNumber, Bool.or_eq_true] at h
  rcases h with h | h <;> simp [inNumeral, h]

theorem isBlank_of_announcesNumber {x : Char} (h : announcesNumber x = true) :
    isBlank x = false :=
  isBlank_of_startsNumeral (startsNumeral_of_announcesNumber h)

namespace Literal

theorem scanScientific_ofList_nil (taken : List Char) :
    scanScientific taken (ofList []) = settle taken (ofList []) := by
  rw [scanScientific]
  rfl

theorem scanScientific_ofList_cons (taken : List Char) (x : Char) (cs : List Char) :
    scanScientific taken (ofList (x :: cs)) =
      if continues taken x then scanScientific (taken ++ [x]) (ofList cs)
      else if x = '.' then (.error .multipleDecimalPoints, ofList (x :: cs))
      else if isMark x && !taken.isEmpty then
        let taken := if taken = ['+'] || taken = ['-'] then taken ++ ['1'] else taken
        match (readPlain (ofList cs)).1 with
        | .error e => (.error e, (readPlain (ofList cs)).2)
        | .ok (some power) => (.ok ((Decimal.readPlain? taken).map fun m =>
            m.toFloat * Float.pow 10 power), (readPlain (ofList cs)).2)
        | .ok none => scanScientific taken (readPlain (ofList cs)).2
      else settle taken (ofList (x :: cs)) := by
  rw [scanScientific]
  rfl

/-- The rule takes digits and points as long as they make a numeral with what it has taken. -/
theorem scanScientific_append (post : List Char) :
    ∀ {cs taken : List Char}, taken ≠ [] → cs.all inNumeral = true → (taken ++ cs).count '.' ≤ 1 →
      scanScientific taken (ofList (cs ++ post)) = scanScientific (taken ++ cs) (ofList post)
  | [], taken, _, _, _ => by simp
  | x :: cs, taken, ht, hcs, hp => by
    simp only [List.all_cons, Bool.and_eq_true] at hcs
    have hc : continues taken x = true := by
      rw [continues_of_ne_nil ht]
      by_cases hx : x = '.'
      · subst hx
        have h0 : taken.count '.' = 0 := by
          rw [List.count_append, List.count_cons_self] at hp
          omega
        simpa using List.count_eq_zero.1 h0
      · simpa [inNumeral, hx] using hcs.1
    rw [List.cons_append, scanScientific_ofList_cons, if_pos hc,
      scanScientific_append post (by simp) hcs.2 (by simpa using hp)]
    simp

variable {taken cs : List Char} {x : Char}

theorem continues_of_not_inNumeral (ht : taken ≠ []) (hx : inNumeral x = false) :
    ¬ continues taken x = true ∧ x ≠ '.' := by
  have hdot : x ≠ '.' := by
    rintro rfl
    exact absurd hx (by decide)
  rw [inNumeral, Bool.or_eq_false_iff] at hx
  rw [continues_of_ne_nil ht, hx.1]
  simp [hdot]

/-- A number that has begun ends in front of what is no part of a number. -/
theorem scanScientific_stop (ht : taken ≠ []) (h : ∀ x ∈ cs.head?, goesOn x = false) :
    scanScientific taken (ofList cs) = settle taken (ofList cs) := by
  cases cs with
  | nil => exact scanScientific_ofList_nil taken
  | cons x cs =>
    obtain ⟨hx, hmark⟩ := Bool.or_eq_false_iff.1 (h x rfl)
    obtain ⟨hcont, hdot⟩ := continues_of_not_inNumeral ht hx
    rw [scanScientific_ofList_cons, if_neg hcont, if_neg hdot, hmark]
    rfl

/-- Behind a mark the rule looks for an exponent, and goes on if there is none. -/
theorem scanScientific_mark (ht : taken ≠ []) (hx : isMark x = true) (cs : List Char) :
    scanScientific taken (ofList (x :: cs)) = match readPlain (ofList cs) with
      | (.error e, d) => (.error e, d)
      | (.ok (some power), d) => (.ok ((Decimal.readPlain? (withUnit taken)).map fun m =>
          m.toFloat * Float.pow 10 power), d)
      | (.ok none, d) => scanScientific (withUnit taken) d := by
  have hnot := (Bool.or_eq_false_iff.1 (not_startsNumeral_of_isMark hx)).2
  have hempty : taken.isEmpty = false := by simpa using ht
  obtain ⟨hcont, hdot⟩ := continues_of_not_inNumeral ht hnot
  rw [scanScientific_ofList_cons, if_neg hcont, if_neg hdot, if_pos (by rw [hx, hempty]; rfl)]
  rcases readPlain (ofList cs) with ⟨e | (_ | power), d⟩ <;> rfl

end Literal

end Reckoner
