import Reckoner.Proofs.Cursor.Outcomes
import Reckoner.Proofs.Expression.Construction

/-!
# Reading renderings

The reader builds from every rendering of a derivation the expression of the derivation, or meets the
error that building it meets. Each rule does so in front of whatever can end what it reads
(`Chain.gives_readTier`), and so does the whole (`readWhole_of_renders`).
-/

namespace Reckoner

open Text Cursor Expression

namespace Grammar

/-- Whether a chain of the tier can end in front of the character. -/
def endsChain : Tier → Char → Bool
  | .low, x => x = ')' || x = ','
  | .high, x => x = ')' || x = ',' || x = '+' || x = '-'

/-- Whether an operand of the tier can end in front of the character. -/
def endsOperand : Tier → Char → Bool
  | .low, x => endsChain .high x
  | .high, x => endsChain .high x || x = '*' || x = '/' || x = '^'

theorem endsOperand_of_endsChain {t : Tier} {x : Char} (h : endsChain t x = true) :
    endsOperand t x = true := by
  cases t with
  | low =>
    simp only [endsChain, Bool.or_eq_true, decide_eq_true_eq] at h
    rcases h with rfl | rfl <;> rfl
  | high => simp only [endsOperand, h, Bool.true_or]

/-- What can come after an operand: a delimiter or the symbol of an operator. -/
theorem eq_of_endsOperand {t : Tier} {x : Char} (h : endsOperand t x = true) :
    x = ')' ∨ x = ',' ∨ x = '+' ∨ x = '-' ∨ x = '*' ∨ x = '/' ∨ x = '^' := by
  cases t <;> simp only [endsOperand, endsChain, Bool.or_eq_true, decide_eq_true_eq] at h <;> grind

theorem isNameRest_of_endsOperand {t : Tier} {x : Char} (h : endsOperand t x = true) :
    isNameRest x = false := by
  rcases eq_of_endsOperand h with rfl | rfl | rfl | rfl | rfl | rfl | rfl <;> rfl

theorem inNumeral_of_endsOperand {t : Tier} {x : Char} (h : endsOperand t x = true) :
    inNumeral x = false := by
  rcases eq_of_endsOperand h with rfl | rfl | rfl | rfl | rfl | rfl | rfl <;> rfl

theorem endsOperand_symbol (op : Operator) : endsOperand op.tier op.symbol = true := by
  cases op <;> rfl

theorem isBlank_symbol (op : Operator) : isBlank op.symbol = false := by
  cases op <;> rfl

theorem ofChar?_of_endsChain {t : Tier} {x : Char} (h : endsChain t x = true) :
    (∃ op, Operator.ofChar? x = some op ∧ op.tier ≠ t) ∨
      Operator.ofChar? x = none ∧ (x = ')' || x = ',') = true := by
  cases t <;> simp only [endsChain, Bool.or_eq_true, decide_eq_true_eq] at h
  · rcases h with rfl | rfl <;> exact .inr ⟨rfl, rfl⟩
  · rcases h with ((rfl | rfl) | rfl) | rfl
    · exact .inr ⟨rfl, rfl⟩
    · exact .inr ⟨rfl, rfl⟩
    · exact .inl ⟨.add, rfl, by decide⟩
    · exact .inl ⟨.subtract, rfl, by decide⟩

/-- The rest of a chain, if there is one, starts with an operator of the tier. -/
theorem Tail.before {t : Tier} {d : Tail t} {text post : List Char} (hs : Spaced d.lexemes text)
    (hp : Before (endsChain t) post) : Before (endsOperand t) (text ++ post) := by
  cases d with
  | nil => exact (hp.mono fun _ => endsOperand_of_endsChain).blanks_append (spaced_nil_iff.1 hs)
  | cons op h operand rest =>
    subst h
    obtain ⟨gap, cs, rfl, hg, -⟩ := hs.of_cons
    rw [List.append_assoc, List.append_assoc]
    exact (before_cons (isBlank_symbol op) (endsOperand_symbol op) _).blanks_append hg

/-- Whether an operand that is no group can start with the character. -/
def startsScaled (x : Char) : Bool :=
  isSign x || inNumeral x || isNameStart x

theorem ne_of_startsScaled {x : Char} (h : startsScaled x = true) : isBlank x = false ∧ x ≠ '(' := by
  constructor
  · by_contra hb
    have hb : isBlank x = true := by simpa using hb
    simp only [startsScaled, isSign, inNumeral_of_isBlank hb, Bool.or_false, Bool.or_eq_true,
      decide_eq_true_eq] at h
    rcases h with (rfl | rfl) | h
    · exact absurd hb (by decide)
    · exact absurd hb (by decide)
    · have := isNameRest_of_isNameStart h
      rw [isNameRest_of_isBlank hb] at this
      cases this
  · rintro rfl
    exact absurd h (by decide)

theorem startsScaled_numeral (n : Numeral) : ∃ x cs, n.chars = x :: cs ∧ startsScaled x = true := by
  obtain ⟨x, cs, hn, hx, -⟩ := n.chars_eq_cons
  exact ⟨x, cs, hn, by rw [startsScaled, hx, Bool.true_or]⟩

theorem startsScaled_scaledWord (k : Option Numeral) (w : Word) :
    ∃ x cs, scaledWord k w = x :: cs ∧ startsScaled x = true := by
  cases k with
  | none =>
    obtain ⟨x, cs, hw, hx, -⟩ := w.chars_eq_cons
    exact ⟨x, cs, hw, by rw [startsScaled, hx, Bool.or_true]⟩
  | some n =>
    obtain ⟨x, cs, hn, hx⟩ := startsScaled_numeral n
    exact ⟨x, cs ++ w.chars, by simp [scaledWord, hn], hx⟩

theorem gives_readNumber_scaledWord (k : Option Numeral) (w : Word) {c : Cursor} {post : List Char}
    (hc : c.skipBlanks = ofList (scaledWord k w ++ post)) :
    (readNumber c).Gives (.ok (k.map Numeral.value)) (· = ofList (w.chars ++ post)) := by
  obtain ⟨x, cs, hw, hx, -⟩ := w.chars_eq_cons
  have hstart := startsNumeral_of_isNameStart hx
  cases k with
  | none =>
    refine Step.gives_of_pair (Literal.readPlain_none hc ?_) rfl
    simpa [scaledWord, hw] using hstart
  | some n =>
    have hn : c.skipBlanks = ofList (n.chars ++ (w.chars ++ post)) := by simpa [scaledWord] using hc
    refine Step.gives_of_pair (Literal.readPlain_numeral n hn ?_) rfl
    rw [Bool.or_eq_false_iff] at hstart
    simpa [hw] using hstart.2

section Reading

variable {s : Settings} {c : Cursor} {post : List Char} {P : Cursor → Prop}
  {r : Except SyntaxError Expression}

theorem gives_readTerm_number (n : Numeral) (hc : c.Faces (n.chars ++ post))
    (hp : Before (endsOperand .high) post) :
    (readTerm s c).Gives (.ok (constant n.value)) (· = ofList post) := by
  obtain ⟨x, cs, hn, hx⟩ := startsScaled_numeral n
  obtain ⟨hb, hx⟩ := ne_of_startsScaled hx
  have hsk : c.skipBlanks = ofList (n.chars ++ post) := by
    rw [hn] at hc ⊢
    exact hc.skipBlanks_eq hb
  have hsk' : c.skipBlanks.skipBlanks = ofList (n.chars ++ post) := by
    rw [hn] at hc ⊢
    exact hc.skipBlanks.skipBlanks_eq hb
  rw [readTerm]
  refine Step.gives_onNext_false (hc.isNext_of_ne ?_) fun _ => ?_
  · rw [hn, List.cons_append, dropWhile_isBlank_cons hb]
    simpa using hx
  have hn := Literal.readPlain_numeral n hsk' (hp.head_of_imp (fun _ => inNumeral_of_isBlank)
    fun _ => inNumeral_of_endsOperand)
  refine Step.Gives.andThen_ok (Step.gives_of_pair hn (P := (· = ofList post)) rfl) ?_
  rintro _ - rfl
  have hname : (ofList post).name = (none, ofList post) := by
    rw [name_ofList, if_neg]
    have hrest := hp.head_of_imp (fun _ => isNameRest_of_isBlank) fun _ => isNameRest_of_endsOperand
    simp only [Option.any_eq_true, not_exists, not_and]
    intro y hy hstart
    have := hrest y hy
    rw [isNameRest_of_isNameStart hstart] at this
    cases this
  refine (Step.gives_name hname).andThen_ok ?_
  rintro _ - rfl
  exact Step.gives_done _ rfl

theorem gives_readTerm_scaledWord (k : Option Numeral) (w : Word)
    (hc : c.Faces (scaledWord k w ++ post)) (hp : ∀ x ∈ post.head?, isNameRest x = false)
    (h : (Step.onNext '(' (ofList post) (fun c₄ _ => readCall s w.text (k.map Numeral.value) c₄)
      fun c₄ _ => .done (.quantity (.free w.text (k.map Numeral.value))) c₄).Gives r P) :
    (readTerm s c).Gives r P := by
  obtain ⟨x, cs, hw, hx⟩ := startsScaled_scaledWord k w
  obtain ⟨hb, hx⟩ := ne_of_startsScaled hx
  have hsk : c.skipBlanks.skipBlanks = ofList (scaledWord k w ++ post) := by
    rw [hw] at hc ⊢
    exact hc.skipBlanks.skipBlanks_eq hb
  rw [readTerm]
  refine Step.gives_onNext_false (hc.isNext_of_ne ?_) fun _ => ?_
  · rw [hw, List.cons_append, dropWhile_isBlank_cons hb]
    simpa using hx
  refine (gives_readNumber_scaledWord k w hsk).andThen_ok ?_
  rintro _ - rfl
  refine (Step.gives_name (name_word w hp)).andThen_ok ?_
  rintro _ - rfl
  exact h

end Reading

section Reading

variable {s : Settings}

mutual

theorem Chain.gives_readTier {t : Tier} {c : Cursor} {text post : List Char} :
    (d : Chain t) → c.Faces (text ++ post) → Spaced d.lexemes text → Before (endsChain t) post →
    (readTier s t c).Gives (d.build s) (·.Faces post)
  | .mk first rest, hc, hs, hp => by
    obtain ⟨a, b, rfl, ha, hb⟩ := hs.of_append
    rw [List.append_assoc] at hc
    rw [readTier, Chain.build]
    refine (first.gives_readOperand hc ha (rest.before hb hp)).andThen fun e c₁ _ _ hc₁ => ?_
    exact rest.gives_readChain e [] hc₁ hb hp

theorem Tail.gives_readChain {t : Tier} {c : Cursor} {text post : List Char} :
    (d : Tail t) → (first : Expression) → (acc : List (Operator × Expression)) →
    c.Faces (text ++ post) → Spaced d.lexemes text → Before (endsChain t) post →
    (readChain s t first acc c).Gives (d.buildFrom s first acc) (·.Faces post)
  | .nil, first, acc, hc, hs, hp => by
    have hc : c.Faces post := hc.of_append (spaced_nil_iff.1 hs)
    rw [readChain, Tail.buildFrom]
    refine Step.gives_afterBlanks rfl fun _ => ?_
    have hd : (Step.done (close first acc) c.skipBlanks : Step SyntaxError _ _).Gives
        (.ok (close first acc)) (·.Faces post) := Step.gives_done _ hc.skipBlanks
    rcases hpeek : c.skipBlanks.peek with _ | x
    · exact hd.of_pair_eq (Step.pair_onPeek_none hpeek)
    · have hx : endsChain t x = true := by
        rw [show c.skipBlanks = _ from hc, peek_ofList] at hpeek
        exact hp x hpeek
      rcases ofChar?_of_endsChain hx with ⟨op, hop, htier⟩ | ⟨hop, hdelim⟩
      · refine hd.of_pair_eq ((Step.pair_onPeek_some hpeek rfl (size_pop_lt hpeek)).trans ?_)
        simp only [hop, if_neg htier]
      · refine hd.of_pair_eq ((Step.pair_onPeek_some hpeek rfl (size_pop_lt hpeek)).trans ?_)
        simp only [hop, hdelim, if_true]
  | .cons op h operand rest, first, acc, hc, hs, hp => by
    obtain ⟨gap, cs, rfl, hg, hcs⟩ := hs.of_cons
    obtain ⟨a, b, rfl, ha, hb⟩ := hcs.of_append
    have hsk : c.skipBlanks = ofList (op.symbol :: (a ++ (b ++ post))) := by
      refine Faces.skipBlanks_eq (Faces.of_append ?_ hg) (isBlank_symbol op)
      simpa only [List.append_assoc, List.cons_append, List.nil_append] using hc
    rw [readChain, Tail.buildFrom]
    refine Step.gives_afterBlanks hsk fun _ => ?_
    refine Step.Gives.of_pair_eq ?_ (Step.pair_onPeek_some (peek_ofList _) rfl (by simp))
    simp only [Operator.ofChar?_symbol, if_pos h]
    refine Step.Gives.beyond ?_ _
    refine (operand.gives_readOperand (faces_ofList _) ha (rest.before hb hp)).andThen
      fun e c₁ _ _ hc₁ => ?_
    rcases s.extend first acc op e with err | p
    · exact Step.gives_fail _
    · exact rest.gives_readChain p.1 p.2 hc₁ hb hp

theorem Operand.gives_readOperand {t : Tier} {c : Cursor} {text post : List Char} :
    (d : Operand t) → c.Faces (text ++ post) → Spaced d.lexemes text →
    Before (endsOperand t) post → (readOperand s t c).Gives (d.build s) (·.Faces post)
  | .chain d, hc, hs, hp => by
    rw [readOperand]
    refine Step.gives_afterBlanks rfl fun _ => ?_
    exact d.gives_readTier hc.skipBlanks hs hp
  | .factor f, hc, hs, hp => by
    rw [readOperand]
    refine Step.gives_afterBlanks rfl fun _ => ?_
    exact f.gives_readTerm hc.skipBlanks hs hp

theorem Factor.gives_readTerm {c : Cursor} {text post : List Char} :
    (f : Factor) → c.Faces (text ++ post) → Spaced f.lexemes text →
    Before (endsOperand .high) post → (readTerm s c).Gives (f.build s) (·.Faces post)
  | .group inner, hc, hs, hp => by
    obtain ⟨gap, cs, rfl, hg, hcs⟩ := hs.of_cons
    obtain ⟨a, b, rfl, ha, hb⟩ := hcs.of_append
    obtain ⟨gap', end', rfl, hg', hend⟩ := hb.of_cons
    have hc : c.Faces ('(' :: (a ++ (gap' ++ ')' :: (end' ++ post)))) := by
      refine Faces.of_append ?_ hg
      simpa only [List.append_assoc, List.cons_append, List.nil_append] using hc
    rw [readTerm, Factor.build]
    refine Step.gives_onNext_true (hc.isNext_cons rfl) fun _ => ?_
    have hclose : Before (endsChain .low) (gap' ++ ')' :: (end' ++ post)) :=
      (before_cons rfl rfl _).blanks_append hg'
    refine (inner.gives_readTier (faces_ofList _) ha hclose).andThen fun e c₁ _ _ hc₁ => ?_
    refine Step.gives_require ((hc₁.of_append hg').isNext_cons rfl) fun _ => ?_
    exact Step.gives_done _ (Faces.of_append (faces_ofList _) (spaced_nil_iff.1 hend))
  | .number n, hc, hs, hp => by
    obtain ⟨gap, cs, rfl, hg, hcs⟩ := hs.of_cons
    have hcs : Blanks cs := spaced_nil_iff.1 hcs
    have hc : c.Faces (n.chars ++ (cs ++ post)) := by
      refine Faces.of_append ?_ hg
      simpa only [List.append_assoc] using hc
    refine (gives_readTerm_number n hc (hp.blanks_append hcs)).mono ?_
    rintro _ rfl
    exact (faces_ofList _).of_append hcs
  | .quantity k name, hc, hs, hp => by
    obtain ⟨gap, cs, rfl, hg, hcs⟩ := hs.of_cons
    have hcs : Blanks cs := spaced_nil_iff.1 hcs
    have hc : c.Faces (scaledWord k name ++ (cs ++ post)) := by
      refine Faces.of_append ?_ hg
      simpa only [List.append_assoc] using hc
    have hend := hp.blanks_append hcs
    refine gives_readTerm_scaledWord k name hc (hend.head_of_imp (fun _ => isNameRest_of_isBlank)
      fun _ => isNameRest_of_endsOperand) ?_
    refine Step.gives_onNext_false ((faces_ofList _).isNext_of_ne ?_) fun _ => ?_
    · intro hx
      exact absurd (hend _ hx) (by decide)
    · exact Step.gives_done _ ((faces_ofList _).of_append hcs).skipBlanks
  | .call k name args, hc, hs, hp => by
    obtain ⟨gap, cs, rfl, hg, hcs⟩ := hs.of_cons
    obtain ⟨gap₁, cs, rfl, hg₁, hcs⟩ := hcs.of_cons
    obtain ⟨a, b, rfl, ha, hb⟩ := hcs.of_append
    obtain ⟨gap₂, end', rfl, hg₂, hend⟩ := hb.of_cons
    have hc : c.Faces (scaledWord k name ++ (gap₁ ++ '(' :: (a ++ (gap₂ ++ ')' :: (end' ++ post))))) := by
      refine Faces.of_append ?_ hg
      simpa only [List.append_assoc, List.cons_append, List.nil_append] using hc
    have hopen : Before (fun x => x == '(') (gap₁ ++ '(' :: (a ++ (gap₂ ++ ')' :: (end' ++ post)))) :=
      (before_cons rfl rfl _).blanks_append hg₁
    refine gives_readTerm_scaledWord k name hc (hopen.head_of_imp (fun _ => isNameRest_of_isBlank) ?_) ?_
    · intro x hx
      rw [beq_iff_eq] at hx
      exact hx ▸ rfl
    refine Step.gives_onNext_true (((faces_ofList _).of_append hg₁).isNext_cons rfl) fun _ => ?_
    rw [readCall, Factor.build]
    rcases s.registry.lookup name.text with _ | f
    · exact Step.gives_fail _
    have hargs : Spaced args.lexemes (a ++ gap₂) := by simpa using ha.append (.nil hg₂)
    have hc : (ofList (a ++ (gap₂ ++ ')' :: (end' ++ post)))).Faces (a ++ gap₂ ++ ')' :: (end' ++ post)) := by
      rw [List.append_assoc]
      exact faces_ofList _
    refine (args.gives_readArgs hc hargs).andThen fun es c₁ _ _ hc₁ => ?_
    refine Step.gives_require (hc₁.isNext_cons rfl) fun _ => ?_
    rcases f.checkArity es.length with err | _
    · exact Step.gives_fail _
    · exact Step.gives_done _ ((faces_ofList _).of_append (spaced_nil_iff.1 hend))

theorem Arguments.gives_readArgs {c : Cursor} {text post : List Char} :
    (d : Arguments) → c.Faces (text ++ ')' :: post) → Spaced d.lexemes text →
    (readArgs s c).Gives (d.build s) (·.Faces (')' :: post))
  | .last arg, hc, hs => by
    rw [readArgs, Arguments.build]
    refine (arg.gives_readTier hc hs (before_cons rfl rfl _)).andThen fun e c₁ _ _ hc₁ => ?_
    refine Step.gives_onNext_false (hc₁.isNext_of_ne ?_) fun _ => ?_
    · rw [dropWhile_isBlank_cons rfl]
      simp
    · exact Step.gives_done _ hc₁.skipBlanks
  | .cons arg rest, hc, hs => by
    obtain ⟨a, b, rfl, ha, hb⟩ := hs.of_append
    obtain ⟨gap, cs, rfl, hg, hcs⟩ := hb.of_cons
    have hc : c.Faces (a ++ (gap ++ ',' :: (cs ++ ')' :: post))) := by
      simpa only [List.append_assoc, List.cons_append, List.nil_append] using hc
    rw [readArgs, Arguments.build]
    have hcomma : Before (endsChain .low) (gap ++ ',' :: (cs ++ ')' :: post)) :=
      (before_cons rfl rfl _).blanks_append hg
    refine (arg.gives_readTier hc ha hcomma).andThen fun e c₁ _ _ hc₁ => ?_
    refine Step.gives_onNext_true ((hc₁.of_append hg).isNext_cons rfl) fun _ => ?_
    have := (rest.gives_readArgs (faces_ofList (cs ++ ')' :: post)) hcs).map (e :: ·)
    rwa [map_eq_bind] at this

end

theorem readWhole_of_renders {text : String} {d : Chain .low} (h : d.Renders text) :
    readWhole s (ofString text) = d.build s := by
  have hc : (ofString text).Faces (text.toList ++ []) := by
    rw [List.append_nil]
    exact faces_ofList _
  obtain ⟨hr, hrest⟩ := d.gives_readTier (s := s) hc h (before_nil _)
  have hpair : Expression.read s (ofString text) =
      (d.build s, (readTier s .low (ofString text)).rest) := Prod.ext hr rfl
  rw [readWhole, hpair]
  rcases hd : d.build s with err | e
  · rfl
  · have hend : (readTier s .low (ofString text)).rest.skipBlanks = ofList [] := hrest e hd
    simp only [hend, peek_ofList, List.head?_nil]

end Reading

end Grammar

end Reckoner
