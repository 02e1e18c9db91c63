import Reckoner.Proofs.Cursor.Outcomes
import Reckoner.Proofs.Expression.Derivation
import Reckoner.Proofs.Literal.Stub
import Reckoner.Proofs.Text.Passing

/-!
# Recognizing derivations

Whatever the reader accepts is a rendering of a derivation: each rule that gives a value has passed
the lexemes of a derivation of its own kind (`exists_chain_of_readTier`), and so has the whole
(`exists_renders_of_readWhole`).
-/

namespace Reckoner

open Text Cursor Expression

namespace Grammar

variable {cs : List Char}

/-- Before a name a numeral may have gone, unless what was taken for one is handed back: then no
name follows. -/
theorem exists_of_readNumber {k : Option Float} {d : Cursor}
    (h : (readNumber (ofList cs)).pair = (.ok k, d)) :
    (∃ gap, ∃ n : Option Numeral, ∃ post, cs = gap ++ (n.elim [] Numeral.chars ++ post) ∧ Blanks gap
      ∧ d = ofList post ∧ k = n.map Numeral.value)
    ∨ k = none ∧ d.name = (none, d) := by
  have h : Literal.readPlain (ofList cs) = (.ok k, d) := h
  cases k with
  | some v =>
    obtain ⟨gap, n, post, hcs, hg, hd, rfl⟩ := Literal.exists_numeral_of_readPlain h
    exact .inl ⟨gap, some n, post, by simpa using hcs, hg, hd, rfl⟩
  | none =>
    have hcs := List.takeWhile_append_dropWhile (p := isBlank) (l := cs)
    have hover := Literal.over_of_readPlain_none h
    generalize cs.dropWhile isBlank = post at hcs hover
    cases hover with
    | list => exact .inl ⟨_, none, post, hcs.symm, blanks_takeWhile cs, rfl, rfl⟩
    | stub hs _ => exact .inr ⟨rfl, name_stub hs _⟩

variable {s : Settings}

mutual

theorem exists_factor_of_readTerm {cs : List Char} {e : Expression} {d : Cursor}
    (h : (readTerm s (ofList cs)).pair = (.ok e, d)) :
    ∃ f : Factor, ∃ post, Passed f.lexemes cs post ∧ d = ofList post := by
  rw [readTerm] at h
  rcases Step.cases_of_onNext h with ⟨gap, rest, hcs, hg, _, h⟩ | ⟨gap, rest, hcs, hg, -, _, h⟩
  · obtain ⟨inner, c₁, h₁, _, h⟩ := Step.exists_of_andThen h
    obtain ⟨x, rest₁, hx, rfl⟩ := exists_chain_of_readTier h₁
    obtain ⟨gap₂, rest₂, rfl, hg₂, _, h⟩ := Step.exists_of_require h
    obtain ⟨-, rfl⟩ := Prod.mk.inj h
    rw [hcs]
    exact ⟨.group x, rest₂, (passed_char hg '(' _).append (hx.append (passed_char hg₂ ')' _)), rfl⟩
  · obtain ⟨k, c₁, hk, _, h⟩ := Step.exists_of_andThen h
    obtain ⟨name, c₂, hname, _, h⟩ := Step.exists_of_andThen h
    have hname : c₁.name = (name, c₂) := by
      obtain ⟨hn, hc⟩ := Prod.mk.inj hname
      exact Prod.ext (Except.ok.inj hn) hc
    rcases exists_of_readNumber hk with ⟨gap₁, n, rest₁, rfl, hg₁, rfl, rfl⟩ | ⟨rfl, hnone⟩
    · cases name with
      | none =>
        rw [name_ofList] at hname
        split at hname
        · cases (Prod.mk.inj hname).1
        obtain ⟨-, rfl⟩ := Prod.mk.inj hname
        cases n with
        | none => cases (Prod.mk.inj h).1
        | some n =>
          obtain ⟨-, rfl⟩ := Prod.mk.inj h
          refine ⟨.number n, rest₁, ?_, rfl⟩
          rw [hcs]
          simpa only [Factor.lexemes, Option.elim_some, List.append_assoc, List.nil_append]
            using (passed_nil (hg.append hg₁) _).append (passed_lexeme n.chars rest₁)
      | some name =>
        obtain ⟨w, rest₂, rfl, rfl, rfl⟩ := exists_word_of_name hname
        rcases Step.cases_of_onNext h with
          ⟨gap₂, rest₃, rfl, hg₂, _, h⟩ | ⟨gap₂, rest₃, rfl, hg₂, -, _, h⟩
        · obtain ⟨args, post, hargs, rfl⟩ := exists_arguments_of_readCall h
          refine ⟨.call n w args, post, ?_, rfl⟩
          rw [hcs]
          have hw := (passed_nil (hg.append hg₁) _).append
            (passed_lexeme (scaledWord n w) (gap₂ ++ '(' :: rest₃))
          have := hw.append ((passed_char hg₂ '(' _).append hargs)
          simpa only [Factor.lexemes, scaledWord, List.append_assoc, List.nil_append,
            List.singleton_append] using this
        · obtain ⟨-, rfl⟩ := Prod.mk.inj h
          refine ⟨.quantity n w, rest₃, ?_, rfl⟩
          rw [hcs]
          have hw := (passed_nil (hg.append hg₁) _).append
            (passed_lexeme (scaledWord n w) (gap₂ ++ rest₃))
          have := hw.append (passed_nil hg₂ rest₃)
          simpa only [Factor.lexemes, scaledWord, List.append_assoc, List.append_nil, List.nil_append]
            using this
    · rw [hnone] at hname
      obtain ⟨rfl, -⟩ := Prod.mk.inj hname
      cases (Prod.mk.inj h).1
termination_by (cs.length, 0)
decreasing_by
  all_goals
    refine .left _ _ ?_
    simp only [hcs, List.length_append, List.length_cons]
    omega

theorem exists_arguments_of_readCall {cs : List Char} {n : String} {k : Option Float}
    {e : Expression} {d : Cursor} (h : (readCall s n k (ofList cs)).pair = (.ok e, d)) :
    ∃ args : Arguments, ∃ post, Passed (args.lexemes ++ [[')']]) cs post ∧ d = ofList post := by
  rw [readCall] at h
  split at h
  · cases (Prod.mk.inj h).1
  · obtain ⟨args, c₁, h₁, _, h⟩ := Step.exists_of_andThen h
    obtain ⟨x, rest₁, hx, rfl⟩ := exists_arguments_of_readArgs h₁
    obtain ⟨gap, rest₂, rfl, hg, _, h⟩ := Step.exists_of_require h
    split at h
    · cases (Prod.mk.inj h).1
    · obtain ⟨-, rfl⟩ := Prod.mk.inj h
      exact ⟨x, rest₂, hx.append (passed_char hg ')' _), rfl⟩
termination_by (cs.length, 6)
decreasing_by exact .right' _ (Nat.le_refl _) (by decide)

theorem exists_arguments_of_readArgs {cs : List Char} {es : List Expression} {d : Cursor}
    (h : (readArgs s (ofList cs)).pair = (.ok es, d)) :
    ∃ args : Arguments, ∃ post, Passed args.lexemes cs post ∧ d = ofList post := by
  rw [readArgs] at h
  obtain ⟨arg, c₁, h₁, _, h⟩ := Step.exists_of_andThen h
  obtain ⟨x, rest, hx, rfl⟩ := exists_chain_of_readTier h₁
  rcases Step.cases_of_onNext h with ⟨gap, rest₁, rfl, hg, _, h⟩ | ⟨gap, rest₁, rfl, hg, -, _, h⟩
  · obtain ⟨es, h₂, -⟩ := Step.exists_of_map h
    have := hx.length_le
    obtain ⟨xs, post, hxs, rfl⟩ := exists_arguments_of_readArgs h₂
    exact ⟨.cons x xs, post, hx.append ((passed_char hg ',' _).append hxs), rfl⟩
  · obtain ⟨-, rfl⟩ := Prod.mk.inj h
    have := hx.append (passed_nil hg rest₁)
    rw [List.append_nil] at this
    exact ⟨.last x, rest₁, this, rfl⟩
termination_by (cs.length, 5)
decreasing_by
  · exact .right' _ (Nat.le_refl _) (by decide)
  · refine .left _ _ ?_
    simp only [List.length_append, List.length_cons] at this
    omega

theorem exists_operand_of_readOperand {cs : List Char} {e : Expression} {d : Cursor} :
    {t : Tier} → (readOperand s t (ofList cs)).pair = (.ok e, d) →
    ∃ x : Operand t, ∃ post, Passed x.lexemes cs post ∧ d = ofList post
  | .low, h => by
    rw [readOperand] at h
    obtain ⟨gap, rest, hcs, hg, _, h⟩ := Step.exists_of_afterBlanks h
    obtain ⟨x, post, hx, rfl⟩ := exists_chain_of_readTier h
    exact ⟨.chain x, post, hcs ▸ (passed_nil hg rest).append hx, rfl⟩
  | .high, h => by
    rw [readOperand] at h
    obtain ⟨gap, rest, hcs, hg, _, h⟩ := Step.exists_of_afterBlanks h
    obtain ⟨f, post, hf, rfl⟩ := exists_factor_of_readTerm h
    exact ⟨.factor f, post, hcs ▸ (passed_nil hg rest).append hf, rfl⟩
termination_by t => (cs.length, depth t)
decreasing_by
  all_goals
    refine .right' _ ?_ (by decide)
    simp only [hcs, List.length_append]
    omega

theorem exists_chain_of_readTier {t : Tier} {cs : List Char} {e : Expression} {d : Cursor}
    (h : (readTier s t (ofList cs)).pair = (.ok e, d)) :
    ∃ x : Chain t, ∃ post, Passed x.lexemes cs post ∧ d = ofList post := by
  rw [readTier] at h
  obtain ⟨first, c₁, h₁, _, h⟩ := Step.exists_of_andThen h
  obtain ⟨x, rest, hx, rfl⟩ := exists_operand_of_readOperand h₁
  have := hx.length_le
  obtain ⟨xs, post, hxs, rfl⟩ := exists_tail_of_readChain h
  exact ⟨.mk x xs, post, hx.append hxs, rfl⟩
termination_by (cs.length, depth t + 1)
decreasing_by
  · exact .right' _ (Nat.le_refl _) (Nat.lt_succ_self _)
  · exact .right' _ this (Nat.succ_pos _)

theorem exists_tail_of_readChain {t : Tier} {first : Expression}
    {acc : List (Operator × Expression)} {cs : List Char} {e : Expression} {d : Cursor}
    (h : (readChain s t first acc (ofList cs)).pair = (.ok e, d)) :
    ∃ x : Tail t, ∃ post, Passed x.lexemes cs post ∧ d = ofList post := by
  rw [readChain] at h
  obtain ⟨gap, rest, hcs, hg, _, h⟩ := Step.exists_of_afterBlanks h
  rcases Step.cases_of_onPeek h with ⟨rfl, h⟩ | ⟨x, rest, rfl, _, h⟩
  · obtain ⟨-, rfl⟩ := Prod.mk.inj h
    exact ⟨.nil, [], hcs ▸ passed_nil hg [], rfl⟩
  · split at h
    · rename_i op hop
      split at h
      · rename_i htier
        rw [Step.pair_beyond] at h
        obtain ⟨operand, c₁, h₁, _, h⟩ := Step.exists_of_andThen h
        obtain ⟨y, rest₁, hy, rfl⟩ := exists_operand_of_readOperand h₁
        split at h
        · cases (Prod.mk.inj h).1
        · have := hy.length_le
          obtain ⟨ys, post, hys, rfl⟩ := exists_tail_of_readChain h
          have hx := passed_char hg x rest
          rw [← hcs, ← Operator.symbol_of_ofChar? hop] at hx
          exact ⟨.cons op htier y ys, post, hx.append (hy.append hys), rfl⟩
      · obtain ⟨-, rfl⟩ := Prod.mk.inj h
        exact ⟨.nil, _, hcs ▸ passed_nil hg _, rfl⟩
    · split at h
      · obtain ⟨-, rfl⟩ := Prod.mk.inj h
        exact ⟨.nil, _, hcs ▸ passed_nil hg _, rfl⟩
      · cases (Prod.mk.inj h).1
termination_by (cs.length, 0)
decreasing_by
  all_goals
    refine .left _ _ ?_
    simp only [hcs, List.length_append, List.length_cons]
    omega

end

/-- A text that the reader accepts is a rendering of a derivation. -/
theorem exists_renders_of_readWhole {text : String} {e : Expression}
    (h : readWhole s (ofString text) = .ok e) : ∃ d : Chain .low, d.Renders text := by
  rw [readWhole] at h
  split at h
  · cases h
  · rename_i e' rest hr
    obtain ⟨d, post, ⟨pre, hpre, hs⟩, rfl⟩ := exists_chain_of_readTier hr
    split at h
    · cases h
    · rename_i hpeek
      have hpost : Blanks post := (Over.list post).blanks_of_peek hpeek
      refine ⟨d, ?_⟩
      rw [Chain.Renders, hpre]
      simpa only [List.append_nil] using hs.append (.nil hpost)

end Grammar

end Reckoner
