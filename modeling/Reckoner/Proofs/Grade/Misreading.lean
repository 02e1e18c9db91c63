import Reckoner.Proofs.Grade.Joining

/-!
# Misread formulas

Where a plus is fused with the number behind it, the reader takes the two for a number of the open
term in front, and then finds neither a plus nor a parenthesis where the next term goes on
(`Term.Row.strays_readMembers`). So a text that is misread is no formula, while one that spells the same
formula with a blank behind each plus is read as it should be (`Formula.parse_spacing_iff`).
-/

namespace Reckoner

open Text Cursor Grammar

/-- An unsigned numeral with a plus in front. -/
theorem Numeral.exists_signed (n : Numeral) {x : Char} {cs : List Char} (hn : n.chars = x :: cs)
    (hx : inNumeral x = true) : ∃ k : Numeral, k.chars = '+' :: x :: cs := by
  have hsign : isSign x = false := isSign_of_inNumeral hx
  have h := n.isNumeral
  rw [hn, Reckoner.isNumeral, Decimal.splitSign_of_not_isSign hsign] at h
  exact ⟨⟨'+' :: x :: cs, h⟩, rfl⟩

namespace Term

variable {c : Cursor} {cs post : List Char} {ls : List (List Char)}

theorem Derivation.opens_of_fuses {d : Derivation} (h : d.Fuses ls) : Opens ls := by
  cases h with
  | @group before => exact ⟨before, '(', [], _, rfl, rfl⟩

theorem Row.opens_of_fuses {ts : Row} (h : ts.Fuses ls) : Opens ls := by
  cases h with
  | last h => exact Derivation.opens_of_fuses h
  | head h => exact (Derivation.opens_of_fuses h).append _
  | @tail t | @join t => exact t.opens_lexemes.append _

/-- A plus in front of a term that begins with a digit or a point makes a number with what the term
begins with, and the term goes on behind it. -/
theorem Opens.exists_signed (ho : Opens ls) {y : Char} (hp : Passed ls (y :: cs) post)
    (hy : inNumeral y = true) : ∃ n : Numeral, ∃ rest,
    Passed [n.chars] ('+' :: y :: cs) rest ∧ Before startsBody rest := by
  obtain ⟨⟨first, starred⟩, x, l, ms, rfl, hx⟩ := ho
  have hblank : isBlank y = false := isBlank_of_startsNumeral (by rw [hy, Bool.or_true])
  rw [Multipliers.lexemes, List.append_assoc] at hp
  have hopens : ∀ {rest}, Passed (starred.flatMap (marked '*') ++ (x :: l) :: ms) rest post →
      Before startsBody rest := by
    intro rest hp
    obtain ⟨rest', hstarred, hp⟩ := hp.of_append
    exact before_starred hstarred (hp.before (isBlank_of_opensTerm hx) hx)
  cases first with
  | none =>
    have hstarts := hopens hp y (by rw [dropWhile_isBlank_cons hblank]; rfl)
    have hfalse := startsNumeral_of_startsBody hstarts
    rw [hy, Bool.or_true] at hfalse
    cases hfalse
  | some n =>
    obtain ⟨z, zs, hn, -⟩ := n.chars_eq_cons
    simp only [Option.toList_some, List.map_cons, List.map_nil, List.singleton_append, hn] at hp
    obtain ⟨rfl, hp⟩ := hp.grow hblank '+'
    obtain ⟨k, hk⟩ := n.exists_signed hn hy
    obtain ⟨gap, rest, hcs, hg, hrest⟩ := hp.of_cons
    refine ⟨k, rest, ?_, hopens hrest⟩
    rw [hk, hcs]
    exact (passed_lexeme _ rest).blanks_append hg

theorem Derivation.stops_fill (d : Derivation) (n : Numeral) (hb : Before startsBody post) :
    (d.fill n).Stops post := by
  have hrests : Before (fun x => !inNumeral x) post := hb.mono fun x hx => by
    simp [(Bool.or_eq_false_iff.1 (startsNumeral_of_startsBody hx)).2]
  rcases d with ⟨before, name, divisor⟩ | ⟨before, members, after, _ | divisor⟩
  · exact ⟨hrests, fun h => nomatch h⟩
  · exact ⟨hb.ne rfl, fun _ => hrests⟩
  · exact ⟨hrests, fun h => nomatch h⟩

/-- An open term takes the number behind it, and where its row should end stands the rest of another
term. -/
theorem stray_of_isOpen {t : Derivation} (ho : t.IsOpen)
    (hfails : ∀ ls rest, t.Fuses ls → Passed ls cs rest → (readTerm c).Ensures fun _ _ => False)
    (hc : c.Faces cs) {rest : List Char} {n : Numeral} (ht : Passed t.lexemes cs rest)
    (hn : Passed [n.chars] rest post) (hb : Before startsBody post) :
    (readMembers c).Ensures fun _ d => (d.isNext ')').1 = false := by
  rw [readMembers]
  by_cases hfused : ∃ ls, (t.fill n).Fuses ls ∧ Passed ls cs post
  · obtain ⟨ls, hls, hp⟩ := hfused
    obtain ⟨ms, hms, rfl⟩ := Derivation.fuses_fill ho hls
    obtain ⟨rest', hp, -⟩ := hp.of_append
    exact (hfails ms rest' hms hp).andThen fun _ _ _ h => h.elim
  · have hfilled : Passed (t.fill n).lexemes cs post := by
      rw [Derivation.lexemes_fill ho]
      exact ht.append hn
    have hgives := (t.fill n).gives_readTerm hc (fun ls hls hp => hfused ⟨ls, hls, hp⟩) hfilled
      (t.stops_fill n hb)
    refine hgives.ensures.andThen fun u d _ hd => ?_
    refine Step.ensures_onNext_false (hd.isNext_false (hb.ne rfl)) fun _ => Step.ensures_done ?_
    rw [hd.skipBlanks.isNext_false (hb.ne rfl)]

mutual

/-- A term in which a plus is fused with a number is not read. -/
theorem Derivation.fails_readTerm : (d : Derivation) → {ls : List (List Char)} → d.Fuses ls →
    {c : Cursor} → {cs post : List Char} → c.Faces cs → Passed ls cs post →
    (readTerm c).Ensures fun _ _ => False
  | .grade .., _, h, _, _, _, _, _ => nomatch h
  | .group before members after divisor, _, .group h, c, cs, post, hc, hp => by
    obtain ⟨rest₁, hbefore, hp⟩ := hp.of_append
    obtain ⟨c₁, hc₁, hpair⟩ := exists_pair_readTerm before hc hbefore (hp.before rfl rfl)
    obtain ⟨gap, rest₂, rfl, hg, hp⟩ := hp.of_cons
    obtain ⟨rest₃, hmembers, -⟩ := hp.of_append
    refine Step.Ensures.of_pair_eq ?_ hpair
    rw [readBody]
    refine Step.ensures_onNext_true (hc₁.shows.isNext_true hg rfl) fun _ => ?_
    rw [readGroup]
    refine (members.strays_readMembers h (faces_ofList rest₂) hmembers).andThen fun ts c₂ _ hc₂ => ?_
    exact Step.ensures_onNext_false (Prod.ext hc₂ rfl) fun _ => Step.ensures_fail _

/-- A row in which a plus is fused with a number is not read up to its parenthesis. -/
theorem Row.strays_readMembers : (ts : Row) → {ls : List (List Char)} → ts.Fuses ls →
    {c : Cursor} → {cs post : List Char} → c.Faces cs → Passed ls cs post →
    (readMembers c).Ensures fun _ d => (d.isNext ')').1 = false
  | .last t, _, .last h, c, cs, post, hc, hp => by
    rw [readMembers]
    exact (t.fails_readTerm h hc hp).andThen fun _ _ _ h => h.elim
  | .cons t rest, _, .head h, c, cs, post, hc, hp => by
    obtain ⟨rest₁, hp, -⟩ := hp.of_append
    rw [readMembers]
    exact (t.fails_readTerm h hc hp).andThen fun _ _ _ h => h.elim
  | .cons t rest, _, .join (x := x) (l := l) ho hl hx, c, cs, post, hc, hp => by
    obtain ⟨rest₁, ht, hp⟩ := hp.of_append
    obtain ⟨gap, rest₂, rfl, hg, hp⟩ := hp.of_cons
    have hrest := (passed_lexeme (x :: l) rest₂).append hp
    have hopens := rest.opens_lexemes
    rw [hl] at hopens
    obtain ⟨n, rest₃, hn, hb⟩ := hopens.exists_signed hrest hx
    exact stray_of_isOpen ho (fun _ _ h hp => t.fails_readTerm h hc hp) hc ht
      ((passed_nil hg _).append hn) hb
  | .cons t rest, _, .tail h, c, cs, post, hc, hp => by
    obtain ⟨rest₁, ht, hp⟩ := hp.of_append
    have hends : Before endsTerm rest₁ := hp.before rfl rfl
    obtain ⟨gap, rest₂, rfl, hg, hp⟩ := hp.of_cons
    -- The plus in front of the rest may be fused as well, and so may one in the first term.
    by_cases hfused : ∃ ls, t.Fuses ls ∧ Passed ls cs (gap ++ '+' :: rest₂)
    · obtain ⟨ls, hls, hp⟩ := hfused
      rw [readMembers]
      exact (t.fails_readTerm hls hc hp).andThen fun _ _ _ h => h.elim
    by_cases hopen : t.IsOpen ∧ ∃ y ∈ rest₂.head?, inNumeral y = true
    · obtain ⟨ho, y, hy, hnumeral⟩ := hopen
      obtain ⟨rest₃, rfl⟩ := List.head?_eq_some_iff.1 hy
      obtain ⟨n, rest₄, hn, hb⟩ := (Row.opens_of_fuses h).exists_signed hp hnumeral
      exact stray_of_isOpen ho (fun _ _ h hp => t.fails_readTerm h hc hp) hc ht
        ((passed_nil hg _).append hn) hb
    have hapart : t.IsOpen → Apart (gap ++ '+' :: rest₂) := by
      intro ho rest hrest y hy
      rw [hg.dropWhile_append] at hrest
      obtain rfl : rest₂ = rest := (List.cons.inj hrest).2
      by_contra hnumeral
      exact hopen ⟨ho, y, hy, by simpa using hnumeral⟩
    have hgives := t.gives_readTerm hc (fun ls hls hp => hfused ⟨ls, hls, hp⟩) ht
      (Derivation.stops_of_endsTerm hends hapart)
    rw [readMembers]
    refine hgives.ensures.andThen fun u d _ hd => ?_
    refine Step.ensures_onNext_true (hd.isNext_true hg rfl) fun _ => ?_
    exact (rest.strays_readMembers h (faces_ofList rest₂) hp).map

end

end Term

namespace Formula

variable {d : Term.Derivation} {text : String}

/-- A text that is misread is no formula. -/
theorem parse_ne_ok_of_misread (h : d.Misread text.toList) (f : Formula) : parse text ≠ .ok f := by
  obtain ⟨ls, hls, hs⟩ := h
  have hfails := d.fails_readTerm hls (faces_ofList text.toList) ⟨_, (List.append_nil _).symm, hs⟩
  intro hf
  rw [parse] at hf
  split at hf
  · cases hf
  · rename_i c rest hread
    obtain ⟨t, ht, -⟩ := bind_eq_ok.1 (Prod.mk.inj hread).1
    exact hfails t ht

theorem toOption_of_ne_ok (h : ∀ f, parse text ≠ .ok f) :
    (parse text).toOption.map calculator = none := by
  cases hparse : parse text with
  | error e => rfl
  | ok f => exact absurd hparse (h f)

theorem toOption_of_not_misread (hs : Spaced d.lexemes text.toList) (hm : ¬ d.Misread text.toList) :
    (parse text).toOption.map calculator = (d.build >>= Term.toCalculator).toOption := by
  rw [parse_of_not_misread hs hm]
  cases d.build >>= Term.toCalculator (ν := Float) <;> rfl

theorem not_misread_of_wide (hs : Spaced (d.joined Term.wide) text.toList) :
    Spaced d.lexemes text.toList ∧ ¬ d.Misread text.toList := by
  have hp : Passed (d.joined Term.wide) text.toList [] := ⟨_, (List.append_nil _).symm, hs⟩
  refine ⟨(d.passed_of_joined Term.passed_of_wide hp).spaced, fun ⟨ls, hls, hfused⟩ => ?_⟩
  exact d.not_passed_wide hls hp ⟨_, (List.append_nil _).symm, hfused⟩

theorem misread_of_tight (hs : Spaced (d.joined Term.tight) text.toList) :
    Spaced d.lexemes text.toList ∧ (d.Misread text.toList ↔ ∃ ls, d.Fuses ls) := by
  have hp : Passed (d.joined Term.tight) text.toList [] := ⟨_, (List.append_nil _).symm, hs⟩
  refine ⟨(d.passed_of_joined Term.passed_of_tight hp).spaced, fun ⟨ls, hls, _⟩ => ⟨ls, hls⟩, ?_⟩
  exact fun ⟨ls, hls⟩ => ⟨ls, hls, (d.passed_tight hls hp).spaced⟩

/-- However a formula is spaced, it is read as its derivation says, or it is misread and refused. With
a space behind every plus it is never misread. With nothing behind them it is just if one can be fused,
and then it is not read as with the spaces, unless that is refused as well. -/
theorem parse_spacing_iff (d : Term.Derivation) :
    (∀ text : String, Spaced d.lexemes text.toList →
      (d.Misread text.toList → ∀ f, parse text ≠ .ok f) ∧
      (¬ d.Misread text.toList → parse text = (d.build >>= Term.toCalculator).map (⟨text, ·⟩))) ∧
    (∀ text : String, Spaced (d.joined Term.wide) text.toList →
      Spaced d.lexemes text.toList ∧ ¬ d.Misread text.toList) ∧
    (∀ text : String, Spaced (d.joined Term.tight) text.toList →
      Spaced d.lexemes text.toList ∧ (d.Misread text.toList ↔ ∃ ls, d.Fuses ls)) ∧
    ∀ s t : String, Spaced (d.joined Term.tight) s.toList → Spaced (d.joined Term.wide) t.toList →
      ((parse s).toOption.map calculator = (parse t).toOption.map calculator ↔
        ((∃ ls, d.Fuses ls) → ∀ f, parse t ≠ .ok f)) := by
  refine ⟨fun text hs => ⟨parse_ne_ok_of_misread, parse_of_not_misread hs⟩,
    fun text => not_misread_of_wide, fun text => misread_of_tight, fun s t hs ht => ?_⟩
  obtain ⟨hs, hmisread⟩ := misread_of_tight hs
  obtain ⟨ht, hread⟩ := not_misread_of_wide ht
  by_cases hfuses : ∃ ls, d.Fuses ls
  · rw [toOption_of_ne_ok (parse_ne_ok_of_misread (hmisread.2 hfuses))]
    refine ⟨fun heq _ f hf => ?_, fun h => (toOption_of_ne_ok (h hfuses)).symm⟩
    rw [hf] at heq
    cases heq
  · refine iff_of_true ?_ fun h => absurd h hfuses
    rw [toOption_of_not_misread hs (mt hmisread.1 hfuses), toOption_of_not_misread ht hread]

/-- Behind the parenthesis of a group a number may stand, behind a name or a divisor it may not. -/
theorem parse_spacing_iff_divided : ∃ d : Term.Derivation,
    Spaced (d.joined Term.tight) "((A+B)/2+2*C)/3".toList ∧
    Spaced (d.joined Term.wide) "((A + B)/2 + 2*C)/3".toList ∧
    (parse "((A+B)/2+2*C)/3").toOption.map calculator =
      (parse "((A + B)/2 + 2*C)/3").toOption.map calculator := by
  let number (x : Char) (h : isNumeral [x] = true) : Numeral := ⟨[x], h⟩
  let name (x : Char) (h : isWord [x] = true) : Word := ⟨[x], h⟩
  let inner : Term.Derivation := .group ⟨none, []⟩ (.cons (.grade ⟨none, []⟩ (name 'A' rfl) none)
    (.last (.grade ⟨none, []⟩ (name 'B' rfl) none))) none (some (some (number '2' rfl)))
  let d : Term.Derivation := .group ⟨none, []⟩ (.cons inner
    (.last (.grade ⟨some (number '2' rfl), [none]⟩ (name 'C' rfl) none))) none
    (some (some (number '3' rfl)))
  have htight : Spaced (d.joined Term.tight) "((A+B)/2+2*C)/3".toList := spaced_of_spells (by decide)
  have hwide : Spaced (d.joined Term.wide) "((A + B)/2 + 2*C)/3".toList :=
    spaced_of_spells (by decide)
  have hfuses : ¬ ∃ ls, d.Fuses ls := by
    rintro ⟨_, h⟩
    simp only [d, inner] at h
    rcases h with ⟨h⟩
    rcases h with _ | ⟨⟨h⟩⟩ | ⟨⟨⟨⟩⟩⟩ | ⟨⟨⟩⟩
    rcases h with _ | ⟨⟨⟩⟩ | ⟨⟨⟨⟩⟩⟩ | ⟨⟨⟩⟩
  exact ⟨d, htight, hwide, ((parse_spacing_iff d).2.2.2 _ _ htight hwide).2 fun h => absurd h hfuses⟩

/-- A single grade in parentheses, with the number of the next grade behind it. -/
theorem parse_tight_group :
    (∃ d : Term.Derivation, Spaced (d.joined Term.wide) "((A) + 2B)/3".toList ∧
      Spaced (d.joined Term.tight) "((A)+2B)/3".toList) ∧
    (∃ f, parse "((A) + 2B)/3" = .ok f ∧
      (f.calculator.grades.map fun g => (g.name, g.weighting)) = [("A", 1), ("B", 2)]) ∧
    ∀ f, parse "((A)+2B)/3" ≠ .ok f := by
  let number (x : Char) (h : isNumeral [x] = true) : Numeral := ⟨[x], h⟩
  let name (x : Char) (h : isWord [x] = true) : Word := ⟨[x], h⟩
  let inner : Term.Derivation :=
    .group ⟨none, []⟩ (.last (.grade ⟨none, []⟩ (name 'A' rfl) none)) none none
  let d : Term.Derivation := .group ⟨none, []⟩ (.cons inner
    (.last (.grade ⟨some (number '2' rfl), []⟩ (name 'B' rfl) none))) none
    (some (some (number '3' rfl)))
  have hwide : Spaced (d.joined Term.wide) "((A) + 2B)/3".toList := spaced_of_spells (by decide)
  have htight : Spaced (d.joined Term.tight) "((A)+2B)/3".toList := spaced_of_spells (by decide)
  have hfuses : d.Fuses _ := .group (.join .closed rfl rfl)
  refine ⟨⟨d, hwide, htight⟩, ?_, ?_⟩
  · exact exists_of_build _ (not_misread_of_wide hwide).1 (by decide) (by decide +kernel)
  · exact parse_ne_ok_of_misread ((misread_of_tight htight).2.2 ⟨_, hfuses⟩)

end Formula

end Reckoner
