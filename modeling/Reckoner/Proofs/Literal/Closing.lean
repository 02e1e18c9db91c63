import Mathlib.Algebra.Ring.Parity
import Mathlib.Data.List.DropRight
import Mathlib.Data.Nat.Find
import Reckoner.Proofs.Cursor.Refinement
import Reckoner.Proofs.Literal.Alike

/-!
# The quote that closes a text

Inside quotes a character is escaped just if the backslashes right in front of it are odd in number
(`Literal.escapes_eq_true_iff`). So a text ends at the first of its quotes that has an even number of
them in front of it (`closesFirst_iff`), and is refused if there is none
(`Literal.readString_first_closing`).
-/

namespace Reckoner

open Text Cursor

/-- How many backslashes stand together right in front of the position. -/
def backslashesBefore (cs : List Char) (i : Nat) : Nat :=
  ((cs.take i).rtakeWhile (· = '\\')).length

/-- The quote stands at the position, and the backslashes in front of it escape each other. -/
def ClosesAt (quote : Char) (cs : List Char) (i : Nat) : Prop :=
  cs[i]? = some quote ∧ Even (backslashesBefore cs i)

instance (quote : Char) (cs : List Char) (i : Nat) : Decidable (ClosesAt quote cs i) :=
  inferInstanceAs (Decidable (_ ∧ _))

/-- The quote closes the text at the position and not before. -/
def ClosesFirst (quote : Char) (cs : List Char) (i : Nat) : Prop :=
  ClosesAt quote cs i ∧ ∀ j < i, ¬ ClosesAt quote cs j

theorem ClosesFirst.eq {quote : Char} {cs : List Char} {i j : Nat} (hi : ClosesFirst quote cs i)
    (hj : ClosesFirst quote cs j) : i = j := by
  rcases Nat.lt_trichotomy i j with hlt | heq | hlt
  · exact absurd hi.1 (hj.2 i hlt)
  · exact heq
  · exact absurd hj.1 (hi.2 j hlt)

theorem exists_closesFirst {quote : Char} {cs : List Char} (h : ∃ i, ClosesAt quote cs i) :
    ∃ i, ClosesFirst quote cs i := by
  classical
  exact ⟨Nat.find h, Nat.find_spec h, fun _ => Nat.find_min h⟩

namespace Literal

/-- Whether what comes behind the characters is escaped, where the first of them is escaped if
`escaped`. -/
def escapes (escaped : Bool) (cs : List Char) : Bool :=
  cs.foldl (fun escaped x => !escaped && x = '\\') escaped

theorem escapes_cons (escaped : Bool) (x : Char) (cs : List Char) :
    escapes escaped (x :: cs) = escapes (!escaped && x = '\\') cs := rfl

theorem escapes_append_singleton (escaped : Bool) (cs : List Char) (x : Char) :
    escapes escaped (cs ++ [x]) = (!escapes escaped cs && x = '\\') := by
  rw [escapes, List.foldl_append]
  rfl

theorem escapes_eq_true_iff (cs : List Char) :
    escapes false cs = true ↔ Odd (cs.rtakeWhile (· = '\\')).length := by
  -- From the end, where the run of backslashes grows or is cut off.
  induction cs using List.reverseRecOn with
  | nil => simp [escapes]
  | append_singleton cs x ih =>
    rw [escapes_append_singleton, List.rtakeWhile_concat]
    by_cases hx : x = '\\'
    · simp [hx, Nat.odd_add_one, ← ih]
    · simp [hx]

/-- The quote closes the characters at their end if nothing is escaped there, and not before if it is
escaped wherever it stands among them. -/
theorem closed_iff {quote : Char} {escaped : Bool} {cs : List Char} :
    closed quote escaped cs = true ↔ escapes escaped cs = false ∧
      ∀ j, cs[j]? = some quote → escapes escaped (cs.take j) = true := by
  induction cs generalizing escaped with
  | nil => simp [closed, escapes]
  | cons x cs ih =>
    rw [closed, Bool.and_eq_true, ih, escapes_cons]
    constructor
    · rintro ⟨hx, hend, hbefore⟩
      refine ⟨hend, fun j hj => ?_⟩
      cases j with
      | zero =>
        obtain rfl : x = quote := by simpa using hj
        simpa [escapes] using hx
      | succ j =>
        rw [List.take_succ_cons, escapes_cons]
        exact hbefore j (by simpa using hj)
    · rintro ⟨hend, hbefore⟩
      refine ⟨?_, hend, fun j hj => ?_⟩
      · by_cases hx : x = quote
        · have hescaped : escaped = true := hbefore 0 (by simp [hx])
          rw [hescaped, Bool.true_or]
        · simp [hx]
      · have := hbefore (j + 1) (by simpa using hj)
        rwa [List.take_succ_cons, escapes_cons] at this

end Literal

open Literal

theorem closesAt_iff {quote : Char} {cs : List Char} {i : Nat} :
    ClosesAt quote cs i ↔ cs[i]? = some quote ∧ escapes false (cs.take i) = false := by
  rw [ClosesAt, backslashesBefore, ← Nat.not_odd_iff_even, ← escapes_eq_true_iff, Bool.not_eq_true]

theorem closesFirst_iff {quote : Char} {cs : List Char} {i : Nat} :
    ClosesFirst quote cs i ↔ cs[i]? = some quote ∧ closed quote false (cs.take i) = true := by
  rw [ClosesFirst, closesAt_iff, closed_iff, and_assoc, and_congr_right_iff]
  intro _
  refine and_congr_right fun _ => ⟨fun h j hj => ?_, fun h j hlt hj => ?_⟩
  · rw [List.getElem?_take] at hj
    split at hj
    · rename_i hlt
      have hopen := h j hlt
      rw [closesAt_iff, not_and, Bool.not_eq_false] at hopen
      rw [List.take_take, Nat.min_eq_left (Nat.le_of_lt hlt)]
      exact hopen hj
    · cases hj
  · obtain ⟨hj, hend⟩ := closesAt_iff.1 hj
    have hescaped := h j (by rw [List.getElem?_take, if_pos hlt, hj])
    rw [List.take_take, Nat.min_eq_left (Nat.le_of_lt hlt), hend] at hescaped
    cases hescaped

namespace Literal

variable {c : Cursor} {quote : Char} {cs : List Char}

/-- Over any cursor a text is read as from a list of what remains. -/
theorem matches_readString_ofList (hc : c.Primed) :
    Matches (readString c) (readString (ofList c.remaining)) := by
  have halike : Alike (fun _ => false) (.outside false) c (ofList c.remaining) :=
    ⟨hc, primed_ofSource _, (remaining_ofList _).symm, .inr ⟨.never (by simp), .never (by simp)⟩⟩
  exact (agrees_readString halike).toMatches

/-- Behind an opening quote the text is closed where its quote first closes. -/
theorem readString_of_closesFirst (hc : c.Primed) (hquote : isQuote quote = true)
    (h : c.remaining.dropWhile isBlank = quote :: cs) {i : Nat} (hi : ClosesFirst quote cs i) :
    ∃ d, readString c = (.ok (some (String.ofList (cs.take i))), d) ∧ d.remaining = cs.drop (i + 1) := by
  obtain ⟨hat, hclosed⟩ := closesFirst_iff.1 hi
  let q : Quotation := ⟨quote, cs.take i, hquote, hclosed⟩
  have hcs : cs = cs.take i ++ quote :: cs.drop (i + 1) := by
    obtain ⟨hlt, rfl⟩ := List.getElem?_eq_some_iff.1 hat
    rw [List.getElem_cons_drop, List.take_append_drop]
  have hlist : (ofList c.remaining).skipBlanks = ofList (q.chars ++ cs.drop (i + 1)) := by
    rw [skipBlanks_ofList, h, Quotation.chars, List.cons_append, List.append_assoc, List.singleton_append,
      ← hcs]
  have hmatch := matches_readString_ofList hc
  rw [readString_quotation q hlist] at hmatch
  exact ⟨(readString c).2, Prod.ext hmatch.result_eq rfl, hmatch.remaining_eq.trans (remaining_ofList _)⟩

/-- What is read from behind an opening quote is closed by that quote. -/
theorem closed_of_readString (hc : c.Primed) (hquote : isQuote quote = true)
    (h : c.remaining.dropWhile isBlank = quote :: cs) :
    (readString c).1 = .error .unterminatedString ∨
      ∃ body rest, (readString c).1 = .ok (some (String.ofList body)) ∧
        closed quote false body = true ∧ cs = body ++ quote :: rest := by
  have hq : (quote = '\'' || quote = '"') = true := hquote
  rw [(matches_readString_ofList hc).result_eq, readString, skipBlanks_ofList, h]
  simp only [peek_ofList, List.head?_cons, pop_ofList, List.tail_cons, hq, if_true]
  rcases hcontent : content quote false (ofList cs) with ⟨_ | body, d⟩
  · exact .inl rfl
  · obtain ⟨hclosed, hcs⟩ := of_content hcontent
    rw [remaining_ofList] at hcs
    exact .inr ⟨body, d.remaining, rfl, hclosed, hcs⟩

/-- Behind an opening quote, a text ends at the first of its quotes that an even number of backslashes
stands in front of, and what follows is left; without such a quote it is refused. So what was read is
read again from between the same quotes, whatever follows. -/
theorem readString_first_closing (hc : c.Reachable) (hquote : quote = '\'' ∨ quote = '"')
    (h : c.remaining.dropWhile isBlank = quote :: cs) :
    ((∃ i, ClosesAt quote cs i) → ∃ i d, ClosesFirst quote cs i ∧
      readString c = (.ok (some (String.ofList (cs.take i))), d) ∧ d.remaining = cs.drop (i + 1)) ∧
    ((∀ i, ¬ ClosesAt quote cs i) → (readString c).1 = .error .unterminatedString) ∧
    ∀ text d, readString c = (.ok (some text), d) → ∀ (e : Cursor) (post : List Char), e.Reachable →
      e.remaining.dropWhile isBlank = quote :: (text.toList ++ quote :: post) →
      ∃ d', readString e = (.ok (some text), d') ∧ d'.remaining = post := by
  have hquote : isQuote quote = true := by simpa [isQuote] using hquote
  have hc := hc.primed
  refine ⟨fun hcloses => ?_, fun hopen => ?_, fun text d hread e post he hpost => ?_⟩
  · obtain ⟨i, hi⟩ := exists_closesFirst hcloses
    obtain ⟨d, hread, hrest⟩ := readString_of_closesFirst hc hquote h hi
    exact ⟨i, d, hi, hread, hrest⟩
  · rcases closed_of_readString hc hquote h with herror | ⟨body, rest, -, hclosed, rfl⟩
    · exact herror
    · refine absurd (closesFirst_iff.2 ⟨?_, ?_⟩).1 (hopen body.length)
      · simp
      · simpa using hclosed
  · rcases closed_of_readString hc hquote h with herror | ⟨body, rest, hbody, hclosed, -⟩
    · rw [hread] at herror
      cases herror
    · rw [hread] at hbody
      cases hbody
      rw [String.toList_ofList] at hpost
      have hfirst : ClosesFirst quote (body ++ quote :: post) body.length :=
        closesFirst_iff.2 ⟨by simp, by simpa using hclosed⟩
      simpa using readString_of_closesFirst he.primed hquote hpost hfirst

/-- A quote behind two backslashes closes, and one behind a single backslash does not. -/
theorem readString_first_closing_escaped :
    let c := ofList ['"', '\\', '"', '\\', '\\', '"', 'x']
    c.Reachable ∧ ∃ d, d.remaining = ['x'] ∧
      readString c = (.ok (some (String.ofList ['\\', '"', '\\', '\\'])), d) := by
  intro c
  have hc : c.Reachable := reachable_ofList _
  have hfirst : ClosesFirst '"' ['\\', '"', '\\', '\\', '"', 'x'] 4 := ⟨by decide, by decide⟩
  obtain ⟨i, d, hi, hread, hrest⟩ :=
    (readString_first_closing hc (.inr rfl) (by decide)).1 ⟨4, hfirst.1⟩
  obtain rfl := hi.eq hfirst
  exact ⟨hc, d, hrest, hread⟩

end Literal

end Reckoner
