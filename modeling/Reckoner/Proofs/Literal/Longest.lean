import Reckoner.Proofs.Cursor.Refinement
import Reckoner.Proofs.Literal.Alike

/-!
# The number rule takes the longest front

Of a text without a queue in front of it, the number rule takes the longest front that is a sign, digits
and points (`longest_numeralFront`), refuses one with two points, gives the number that it spells if it
has a digit, and leaves the text as it was if it has none (`Literal.readNumber_longest`). An exponent is
looked for only behind a mark, so where none follows the rule that allows one does the same
(`Literal.scanScientific_eq_scanPlain`).
-/

namespace Reckoner

open Text Cursor

/-- A sign or none, and then digits and points alone. -/
def SignedRun (cs : List Char) : Prop :=
  ∃ sign body, cs = sign ++ body ∧ (sign = [] ∨ sign = ['+'] ∨ sign = ['-']) ∧
    ∀ x ∈ body, x.isDigit = true ∨ x = '.'

/-- Of the fronts of a text that have a property, the longest. -/
structure LongestFront (P : List Char → Prop) (front text : List Char) : Prop where
  isFront : front <+: text
  holds : P front
  longest : ∀ cs, cs <+: text → P cs → cs.length ≤ front.length

theorem LongestFront.eq {P : List Char → Prop} {a b text : List Char} (ha : LongestFront P a text)
    (hb : LongestFront P b text) : a = b := by
  have hle := hb.longest a ha.isFront ha.holds
  have hge := ha.longest b hb.isFront hb.holds
  exact (List.prefix_of_prefix_length_le ha.isFront hb.isFront hle).eq_of_length (Nat.le_antisymm hle hge)

theorem inNumeral_iff {x : Char} : inNumeral x = true ↔ x.isDigit = true ∨ x = '.' := by
  simp [inNumeral]

theorem isSign_iff {x : Char} : isSign x = true ↔ x = '+' ∨ x = '-' := by
  simp [isSign]

theorem signedRun_nil : SignedRun [] :=
  ⟨[], [], rfl, .inl rfl, fun _ hx => nomatch hx⟩

theorem signedRun_cons {x : Char} {cs : List Char} :
    SignedRun (x :: cs) ↔ (isSign x || inNumeral x) = true ∧ ∀ y ∈ cs, inNumeral y = true := by
  simp only [Bool.or_eq_true, isSign_iff, inNumeral_iff]
  constructor
  · rintro ⟨sign, body, heq, rfl | rfl | rfl, hbody⟩
    · cases heq
      obtain ⟨hx, hcs⟩ := List.forall_mem_cons.1 hbody
      exact ⟨.inr hx, hcs⟩
    · cases heq
      exact ⟨.inl (.inl rfl), hbody⟩
    · cases heq
      exact ⟨.inl (.inr rfl), hbody⟩
  · rintro ⟨hx, hcs⟩
    rcases hx with (rfl | rfl) | hx
    · exact ⟨['+'], cs, rfl, .inr (.inl rfl), hcs⟩
    · exact ⟨['-'], cs, rfl, .inr (.inr rfl), hcs⟩
    · exact ⟨[], x :: cs, rfl, .inl rfl, List.forall_mem_cons.2 ⟨hx, hcs⟩⟩

theorem signedRun_numeralFront (cs : List Char) : SignedRun (numeralFront cs) := by
  cases cs with
  | nil => exact signedRun_nil
  | cons x cs =>
    rw [numeralFront]
    split
    · exact signedRun_cons.2 ⟨‹_›, fun _ hy => List.mem_takeWhile_imp hy⟩
    · exact signedRun_nil

/-- Another front of this form is a front of the numeral's. -/
theorem isPrefix_numeralFront {cs text : List Char} (hcs : cs <+: text) (h : SignedRun cs) :
    cs <+: numeralFront text := by
  obtain ⟨rest, rfl⟩ := hcs
  cases cs with
  | nil => exact List.nil_prefix
  | cons x cs =>
    obtain ⟨hx, hrun⟩ := signedRun_cons.1 h
    rw [List.cons_append, numeralFront, if_pos hx, List.takeWhile_append_of_pos hrun, ← List.cons_append]
    exact List.prefix_append _ _

theorem longest_numeralFront (text : List Char) : LongestFront SignedRun (numeralFront text) text where
  isFront := ⟨numeralRest text, numeralFront_append_numeralRest text⟩
  holds := signedRun_numeralFront text
  longest _ hcs h := (isPrefix_numeralFront hcs h).length_le

namespace Literal

variable {c : Cursor} {taken : List Char}

/-- In front of anything but a mark, the rule with exponents goes on as the rule without. -/
theorem scanScientific_eq_scanPlain (hne : taken ≠ [])
    (h : (c.remaining.dropWhile inNumeral).head?.any isMark = false) :
    scanScientific taken c = scanPlain taken c := by
  fun_induction scanPlain taken c with
  | case1 taken c hp => exact scanScientific_of_peek_none hp
  | case2 taken c x hp hx ih =>
    rw [remaining_of_peek hp, List.dropWhile_cons_of_pos (inNumeral_of_continues hne hx)] at h
    rw [scanScientific_of_peek hp, if_pos hx, ih (by simp) h]
  | case3 taken c hp hx => rw [scanScientific_of_peek hp, if_neg hx, if_pos rfl]
  | case4 taken c x hp hx hdot =>
    have hin : ¬ inNumeral x = true := by
      rw [continues_of_ne_nil hne] at hx
      rw [inNumeral_iff]
      rintro (hd | hd)
      · exact hx (by rw [hd, Bool.true_or])
      · exact hdot hd
    rw [remaining_of_peek hp, List.dropWhile_cons_of_neg hin, List.head?_cons, Option.any_some] at h
    rw [scanScientific_of_peek hp, if_neg hx, if_neg hdot, h, Bool.false_and, if_neg Bool.false_ne_true]

/-- The two modes agree in front of anything but a mark, and wherever no number starts. -/
theorem scanScientific_nil_eq_scanPlain (h : numeralFront c.remaining = [] ∨
    (numeralRest c.remaining).head?.any isMark = false) : scanScientific [] c = scanPlain [] c := by
  cases hp : c.peek with
  | none => rw [scanScientific_of_peek_none hp, scanPlain_of_peek_none hp]
  | some x =>
    rw [scanScientific_of_peek hp, scanPlain_of_peek hp]
    by_cases hx : continues [] x = true
    · rw [if_pos hx, if_pos hx]
      rw [remaining_of_peek hp, numeralFront, numeralRest, ← continues_nil, if_pos hx, if_pos hx] at h
      exact scanScientific_eq_scanPlain (by simp) (h.resolve_left (by simp))
    · simp [hx]

/-- Without a queue, a cursor is read as a list of what remains. -/
theorem matches_readPlain_ofList (hc : c.Primed) (hq : c.queue = []) :
    Matches (readPlain c) (readPlain (ofList c.remaining)) := by
  have halike : Alike (fun _ => false) (.outside true) c (ofList c.remaining) :=
    ⟨hc, primed_ofSource _, (remaining_ofList _).symm, .inl (hq.trans (queue_ofList _).symm)⟩
  exact (agrees_readPlain halike).toMatches

theorem remaining_ofList_inject (cs front : List Char) :
    ((ofList cs).inject front).remaining = front ++ cs := by
  rw [← toList_pending, pending_inject, pending_ofList, Pending.inject, List.nil_append, Pending.toList]

section List

variable {cs : List Char}

theorem readPlain_of_two_points (hp : 2 ≤ (numeralFront (cs.dropWhile isBlank)).count '.') :
    (readPlain (ofList cs)).1 = .error .multipleDecimalPoints := by
  rw [readPlain, skipBlanks_ofList]
  rcases scanPlain_nil_ofList (cs.dropWhile isBlank) with ⟨hp', -⟩ | ⟨-, hscan⟩
  · omega
  · exact hscan

theorem readPlain_of_digit (hp : (numeralFront (cs.dropWhile isBlank)).count '.' < 2)
    (hd : (numeralFront (cs.dropWhile isBlank)).any Char.isDigit = true) :
    ∃ m, Decimal.readPlain? (numeralFront (cs.dropWhile isBlank)) = some m ∧
      readPlain (ofList cs) = (.ok (some m.toFloat), ofList (numeralRest (cs.dropWhile isBlank))) := by
  have hp : (numeralFront (cs.dropWhile isBlank)).count '.' ≤ 1 := Nat.le_of_lt_succ hp
  obtain ⟨m, hm⟩ := Decimal.exists_readPlain? (isNumeral_numeralFront hp hd)
  refine ⟨m, hm, ?_⟩
  rw [readPlain, skipBlanks_ofList]
  rcases scanPlain_nil_ofList (cs.dropWhile isBlank) with ⟨-, hscan⟩ | ⟨hp', -⟩
  · rw [hscan, settle, if_pos hd, hm, Option.map_some]
  · omega

theorem readPlain_of_no_digit (hp : (numeralFront (cs.dropWhile isBlank)).count '.' < 2)
    (hd : (numeralFront (cs.dropWhile isBlank)).any Char.isDigit = false) :
    ∃ d, readPlain (ofList cs) = (.ok none, d) ∧ d.remaining = cs.dropWhile isBlank := by
  refine ⟨(ofList (numeralRest (cs.dropWhile isBlank))).inject (numeralFront (cs.dropWhile isBlank)), ?_, ?_⟩
  · rw [readPlain, skipBlanks_ofList]
    rcases scanPlain_nil_ofList (cs.dropWhile isBlank) with ⟨-, hscan⟩ | ⟨hp', -⟩
    · rw [hscan, settle, if_neg (by simp [hd])]
    · omega
  · rw [remaining_ofList_inject, numeralFront_append_numeralRest]

end List

/-- The rule takes the longest front of the text that is a sign, digits and points. Two points in it are
refused; with a digit in it, it is a decimal, which is read as the nearest number and leaves what follows;
and without a digit nothing is taken. Where no mark follows, or no front was there, an exponent may as
well be allowed. -/
theorem readNumber_longest (hc : c.Reachable) (hq : c.queue = []) :
    let text := c.remaining.dropWhile isBlank
    ∃ front rest, text = front ++ rest ∧ LongestFront SignedRun front text ∧
      ((readNumber false c).1 = .error .multipleDecimalPoints ↔ 2 ≤ front.count '.') ∧
      (front.count '.' < 2 → front.any Char.isDigit = true →
        ∃ m d, Decimal.readPlain? front = some m ∧
          readNumber false c = (.ok (some m.toFloat), d) ∧ d.remaining = rest) ∧
      (front.count '.' < 2 → front.any Char.isDigit = false →
        ∃ d, readNumber false c = (.ok none, d) ∧ d.remaining = text) ∧
      (front = [] ∨ rest.head?.any isMark = false → readNumber true c = readNumber false c) := by
  intro text
  have hc := hc.primed
  -- Only without a queue is the cursor as good as a list: what is handed back goes behind a queue.
  have hmatch := matches_readPlain_ofList hc hq
  have hplain : readNumber false c = readPlain c := rfl
  have hresult : ∀ {r d}, readPlain (ofList c.remaining) = (r, d) →
      readNumber false c = (r, (readPlain c).2) ∧ (readPlain c).2.remaining = d.remaining := by
    intro r d h
    rw [h] at hmatch
    exact ⟨Prod.ext hmatch.result_eq rfl, hmatch.remaining_eq⟩
  refine ⟨numeralFront text, numeralRest text, (numeralFront_append_numeralRest text).symm,
    longest_numeralFront text, ⟨fun herror => ?_, fun hp => ?_⟩, fun hp hd => ?_, fun hp hd => ?_,
    fun h => ?_⟩
  · by_contra hp
    have hp : (numeralFront text).count '.' < 2 := Nat.lt_of_not_le hp
    rw [hplain, hmatch.result_eq] at herror
    cases hd : (numeralFront text).any Char.isDigit with
    | true =>
      obtain ⟨m, -, hread⟩ := readPlain_of_digit hp hd
      rw [hread] at herror
      cases herror
    | false =>
      obtain ⟨d, hread, -⟩ := readPlain_of_no_digit hp hd
      rw [hread] at herror
      cases herror
  · rw [hplain, hmatch.result_eq, readPlain_of_two_points hp]
  · obtain ⟨m, hm, hread⟩ := readPlain_of_digit hp hd
    obtain ⟨hnumber, hrest⟩ := hresult hread
    exact ⟨m, _, hm, hnumber, hrest.trans (remaining_ofList _)⟩
  · obtain ⟨d, hread, hrest⟩ := readPlain_of_no_digit hp hd
    obtain ⟨hnumber, hrest'⟩ := hresult hread
    exact ⟨_, hnumber, hrest'.trans hrest⟩
  · have htext : c.skipBlanks.remaining = text := hc.remaining_skipBlanks
    rw [hplain, readNumber, if_pos rfl, readPlain]
    exact scanScientific_nil_eq_scanPlain (htext ▸ h)

/-- A signed decimal behind a blank and in front of a letter that is no mark. -/
theorem readNumber_longest_signed :
    let c := ofList [' ', '-', '1', '.', '5', 'x']
    c.Reachable ∧ c.queue = [] ∧
      ∃ m d, Decimal.readPlain? ['-', '1', '.', '5'] = some m ∧
        readNumber true c = (.ok (some m.toFloat), d) ∧ d.remaining = ['x'] := by
  intro c
  have hc : c.Reachable := reachable_ofList _
  have htext : c.remaining.dropWhile isBlank = ['-', '1', '.', '5', 'x'] := by decide
  obtain ⟨front, rest, happend, hlongest, -, hdigit, -, hmode⟩ := readNumber_longest hc rfl
  rw [htext] at happend hlongest
  obtain rfl : front = ['-', '1', '.', '5'] := hlongest.eq (longest_numeralFront ['-', '1', '.', '5', 'x'])
  obtain rfl : ['x'] = rest := by simpa using happend
  obtain ⟨m, d, hm, hread, hrest⟩ := hdigit (by decide) (by decide)
  exact ⟨hc, rfl, m, d, hm, (hmode (.inr rfl)).trans hread, hrest⟩

end Literal

end Reckoner
