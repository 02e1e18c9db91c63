import Reckoner.Proofs.Grade.Derivation
import Reckoner.Proofs.Literal.Stub
import Reckoner.Proofs.Text.Passing

/-!
# Recognizing formulas

Whatever term the reader gives is that of a derivation whose lexemes it has passed
(`exists_derivation_of_readTerm`). A number rule that finds no number may have handed back a sign or
a point, so what is left is told as text that the cursor is over.
-/

namespace Reckoner

open Text Cursor Grammar

namespace Term

variable {c d : Cursor} {cs : List Char}

theorem exists_numeral_of_readFactor (h : c.Over cs) {k : Option Float}
    (hk : (readFactor c).pair = (.ok k, d)) : ∃ n : Option Numeral, ∃ post,
    Passed (n.toList.map Numeral.chars) cs post ∧ d.Over post ∧ k = n.map Numeral.value := by
  have hread : Literal.readPlain c = (.ok k, d) := by
    obtain ⟨hr, hd⟩ := Prod.mk.inj hk
    have hr : (Literal.readPlain c).1.mapError GradeError.malformed = .ok k := hr
    refine Prod.ext ?_ hd
    cases hp : (Literal.readPlain c).1 with
    | error e =>
      rw [hp] at hr
      cases hr
    | ok v =>
      rw [hp] at hr
      exact congrArg Except.ok (Except.ok.inj hr)
  obtain ⟨gap, n, post, rfl, hg, hd, hv⟩ := h.exists_numeral hread
  refine ⟨n, post, ?_, hd, hv⟩
  cases n with
  | none => exact passed_nil hg post
  | some n => exact (passed_nil hg _).append (passed_lexeme n.chars post)

/-- A mark and the number behind it. -/
theorem passed_marked {gap post rest : List Char} {n : Option Numeral} (hg : Blanks gap) (mark : Char)
    (h : Passed (n.toList.map Numeral.chars) rest post) :
    Passed (marked mark n) (gap ++ mark :: rest) post :=
  (passed_char hg mark rest).append h

theorem exists_starred_of_readMultipliers {c : Cursor} {cs : List Char} (h : c.Over cs)
    {acc k : Option Float} (hk : (readMultipliers acc c).pair = (.ok k, d)) :
    ∃ starred : List (Option Numeral), ∃ post, Passed (starred.flatMap (marked '*')) cs post ∧
      d.Over post ∧ k = carriedFrom acc (starred.flatMap Option.toList) := by
  rw [readMultipliers] at hk
  rcases h.cases_of_onNext hk with ⟨gap, rest, c₁, hcs, hg, hc₁, _, hk⟩ | ⟨gap, post, c₁, hcs, hg, hc₁, _, hk⟩
  · obtain ⟨v, c₂, hv, _, hk⟩ := Step.exists_of_andThen hk
    obtain ⟨n, rest₁, hn, hc₂, rfl⟩ := exists_numeral_of_readFactor hc₁ hv
    have := hn.length_le
    obtain ⟨starred, post, hstarred, hd, rfl⟩ := exists_starred_of_readMultipliers hc₂ hk
    refine ⟨n :: starred, post, ?_, hd, ?_⟩
    · rw [hcs, List.flatMap_cons]
      exact (passed_marked hg '*' hn).append hstarred
    · rw [List.flatMap_cons, carriedFrom_append, carriedFrom_toList]
  · obtain ⟨hacc, rfl⟩ := Prod.mk.inj hk
    exact ⟨[], post, hcs ▸ passed_nil hg post, hc₁, (Except.ok.inj hacc).symm⟩
  termination_by cs.length
  decreasing_by
    simp only [hcs, List.length_append, List.length_cons]
    omega

theorem exists_divisor_of_readDivisor (h : c.Over cs) {t t' : Term}
    (ht : (readDivisor t c).pair = (.ok t', d)) : ∃ divisor : Divisor, ∃ post,
    Passed divisor.lexemes cs post ∧ d.Over post ∧ divideBy (carried divisor.numbers) t = .ok t' := by
  rw [readDivisor] at ht
  rcases h.cases_of_onNext ht with ⟨gap, rest, c₁, rfl, hg, hc₁, _, ht⟩ | ⟨gap, post, c₁, rfl, hg, hc₁, _, ht⟩
  · obtain ⟨v, c₂, hv, _, ht⟩ := Step.exists_of_andThen ht
    obtain ⟨n, post, hn, hc₂, rfl⟩ := exists_numeral_of_readFactor hc₁ hv
    refine ⟨some n, post, passed_marked hg '/' hn, ?_⟩
    cases n with
    | none =>
      obtain ⟨hdiv, rfl⟩ := Prod.mk.inj ht
      exact ⟨hc₂, hdiv⟩
    | some n =>
      obtain ⟨hdiv, rfl⟩ := Prod.mk.inj ht
      exact ⟨hc₂, hdiv⟩
  · obtain ⟨hdiv, rfl⟩ := Prod.mk.inj ht
    exact ⟨none, post, passed_nil hg post, hc₁, hdiv⟩

theorem exists_of_finish (h : c.Over cs) {k : Option Float} {r : Except GradeError Term} {t : Term}
    (ht : (finish k r c).pair = (.ok t, d)) : ∃ t₀ t₁, ∃ divisor : Divisor, ∃ post, r = .ok t₀ ∧
      scaleBy k t₀ = .ok t₁ ∧ Passed divisor.lexemes cs post ∧ d.Over post ∧
      divideBy (carried divisor.numbers) t₁ = .ok t := by
  rw [finish] at ht
  split at ht
  · cases (Prod.mk.inj ht).1
  · rename_i t₁ hr
    obtain ⟨t₀, hr, hs⟩ := bind_eq_ok.1 hr
    obtain ⟨divisor, post, hp, hd, hdiv⟩ := exists_divisor_of_readDivisor h ht
    exact ⟨t₀, t₁, divisor, post, hr, hs, hp, hd, hdiv⟩

mutual

theorem exists_derivation_of_readTerm {c d : Cursor} {cs : List Char} (h : c.Over cs) {t : Term}
    (ht : (readTerm c).pair = (.ok t, d)) : ∃ x : Derivation, ∃ post,
    Passed x.lexemes cs post ∧ d.Over post ∧ x.build = .ok t := by
  rw [readTerm] at ht
  obtain ⟨v, c₁, hv, _, ht⟩ := Step.exists_of_andThen ht
  obtain ⟨first, rest₁, hfirst, hc₁, rfl⟩ := exists_numeral_of_readFactor h hv
  obtain ⟨k, c₂, hk, _, ht⟩ := Step.exists_of_andThen ht
  obtain ⟨starred, rest₂, hstarred, hc₂, rfl⟩ := exists_starred_of_readMultipliers hc₁ hk
  let before : Multipliers := ⟨first, starred⟩
  have hbefore : Passed before.lexemes cs rest₂ := hfirst.append hstarred
  have hcarried := carriedFrom_numbers before
  simp only [before] at hcarried
  rw [hcarried] at ht
  rcases hc₂.cases_of_onNext ht with
    ⟨gap, rest₃, c₃, rfl, hg, hc₃, _, ht⟩ | ⟨gap, rest₃, c₃, rfl, hg, hc₃, _, ht⟩
  · have := hbefore.length_le
    obtain ⟨members, after, divisor, post, hpassed, hd, ts, t₀, t₁, hts, ht₀, ht₁, ht⟩ :=
      exists_row_of_readGroup hc₃ ht
    refine ⟨.group before members after divisor, post, ?_, hd, ?_⟩
    · exact hbefore.append ((passed_char hg '(' rest₃).append hpassed)
    · have hm : carried (before.numbers ++ after.toList)
          = carriedFrom (carried before.numbers) after.toList := carriedFrom_append ..
      rw [← hm] at ht₁
      rw [Derivation.build, hts, ok_bind, ht₀, ok_bind, ht₁]
      exact ht
  · obtain ⟨gap₁, rest₄, c₄, rfl, hg₁, hc₄, _, ht⟩ := hc₃.exists_of_afterBlanks ht
    obtain ⟨name, c₅, hname, _, ht⟩ := Step.exists_of_andThen ht
    cases name with
    | none => cases (Prod.mk.inj ht).1
    | some name =>
      obtain ⟨hsome, hc₅⟩ := Prod.mk.inj hname
      obtain ⟨word, rest₅, rfl, rfl, rfl⟩ :=
        hc₄.exists_word (Prod.ext (Except.ok.inj hsome) hc₅)
      obtain ⟨t₀, t₁, divisor, post, ht₀, ht₁, hdivisor, hd, ht⟩ :=
        exists_of_finish (.list rest₅) ht
      obtain rfl := Except.ok.inj ht₀
      refine ⟨.grade before word divisor, post, ?_, hd, ?_⟩
      · have hname := (passed_nil (hg.append hg₁) _).append (passed_lexeme word.chars rest₅)
        rw [List.append_assoc] at hname
        exact hbefore.append (hname.append hdivisor)
      · rw [Derivation.build, ht₁]
        exact ht
  termination_by (cs.length, 0)
  decreasing_by
    refine .left _ _ ?_
    simp only [List.length_append, List.length_cons] at this
    omega

theorem exists_row_of_readGroup {c d : Cursor} {cs : List Char} (h : c.Over cs) {k : Option Float}
    {t : Term} (ht : (readGroup k c).pair = (.ok t, d)) :
    ∃ members : Row, ∃ after : Option Numeral, ∃ divisor : Divisor, ∃ post,
      Passed (members.lexemes ++ [')'] :: (after.toList.map Numeral.chars ++ divisor.lexemes)) cs post ∧
      d.Over post ∧ ∃ ts t₀ t₁, members.build = .ok ts ∧ ofMembers ts = .ok t₀ ∧
        scaleBy (carriedFrom k after.toList) t₀ = .ok t₁ ∧
        divideBy (carried divisor.numbers) t₁ = .ok t := by
  rw [readGroup] at ht
  obtain ⟨ts, c₁, hts, _, ht⟩ := Step.exists_of_andThen ht
  obtain ⟨members, rest₁, hmembers, hc₁, hbuild⟩ := exists_row_of_readMembers h hts
  obtain ⟨gap, rest₂, c₂, rfl, hg, hc₂, _, ht⟩ := hc₁.exists_of_require ht
  obtain ⟨v, c₃, hv, _, ht⟩ := Step.exists_of_andThen ht
  obtain ⟨after, rest₃, hafter, hc₃, rfl⟩ := exists_numeral_of_readFactor hc₂ hv
  obtain ⟨t₀, t₁, divisor, post, ht₀, ht₁, hdivisor, hd, ht⟩ := exists_of_finish hc₃ ht
  rw [← carriedFrom_toList] at ht₁
  refine ⟨members, after, divisor, post, ?_, hd, ts, t₀, t₁, hbuild, ht₀, ht₁, ht⟩
  exact hmembers.append ((passed_char hg ')' rest₂).append (hafter.append hdivisor))
  termination_by (cs.length, 2)
  decreasing_by exact .right' _ (Nat.le_refl _) (by decide)

theorem exists_row_of_readMembers {c d : Cursor} {cs : List Char} (h : c.Over cs) {ts : List Term}
    (ht : (readMembers c).pair = (.ok ts, d)) : ∃ members : Row, ∃ post,
    Passed members.lexemes cs post ∧ d.Over post ∧ members.build = .ok ts := by
  rw [readMembers] at ht
  obtain ⟨t, c₁, hc, _, ht⟩ := Step.exists_of_andThen ht
  obtain ⟨x, rest₁, hx, hc₁, hbuild⟩ := exists_derivation_of_readTerm h hc
  have := hx.length_le
  rcases hc₁.cases_of_onNext ht with
    ⟨gap, rest₂, c₂, rfl, hg, hc₂, _, ht⟩ | ⟨gap, post, c₂, rfl, hg, hc₂, _, ht⟩
  · obtain ⟨us, hus, rfl⟩ := Step.exists_of_map ht
    obtain ⟨xs, post, hxs, hd, hbuilds⟩ := exists_row_of_readMembers hc₂ hus
    refine ⟨.cons x xs, post, hx.append ((passed_char hg '+' rest₂).append hxs), hd, ?_⟩
    rw [Row.build, hbuild, hbuilds]
    rfl
  · obtain ⟨hts, rfl⟩ := Prod.mk.inj ht
    obtain rfl := Except.ok.inj hts
    refine ⟨.last x, post, ?_, hc₂, ?_⟩
    · have := hx.append (passed_nil hg post)
      rwa [List.append_nil] at this
    · rw [Row.build, hbuild]
      rfl
  termination_by (cs.length, 1)
  decreasing_by
    · exact .right' _ (Nat.le_refl _) (by decide)
    · refine .left _ _ ?_
      simp only [List.length_append, List.length_cons] at this
      omega

end

end Term

/-- A calculator that was read is made from the term of a derivation that was passed. -/
theorem Calculator.exists_derivation_of_read {ν : Type} {c : Calculator ν} {cs : List Char}
    {rest : Cursor} (h : Calculator.read (ofList cs) = (.ok c, rest)) :
    ∃ d : Term.Derivation, ∃ t post, Passed d.lexemes cs post ∧ rest.Over post ∧
      d.build = .ok t ∧ t.toCalculator = .ok c := by
  obtain ⟨hr, hrest⟩ := Prod.mk.inj h
  obtain ⟨t, ht, hc⟩ := bind_eq_ok.1 hr
  obtain ⟨d, post, hp, hpost, hbuild⟩ :=
    Term.exists_derivation_of_readTerm (.list cs) (Prod.ext ht hrest)
  exact ⟨d, t, post, hp, hpost, hbuild, hc⟩

/-- A text that is a formula spells a derivation from whose term the calculator is made. -/
theorem Formula.exists_derivation_of_parse {text : String} {f : Formula} (h : parse text = .ok f) :
    ∃ d : Term.Derivation, ∃ t, Spaced d.lexemes text.toList ∧ d.build = .ok t ∧
      t.toCalculator = .ok f.calculator := by
  rw [parse] at h
  split at h
  · cases h
  · rename_i c rest hread
    split at h
    · cases h
    · rename_i hpeek
      obtain rfl := Except.ok.inj h
      obtain ⟨d, t, post, ⟨pre, hcs, hs⟩, hpost, hbuild, hc⟩ :=
        Calculator.exists_derivation_of_read hread
      have := hs.append (.nil (hpost.blanks_of_peek hpeek))
      rw [List.append_nil, ← hcs] at this
      exact ⟨d, t, this, hbuild, hc⟩

end Reckoner
