import Reckoner.Proofs.Expression.Correctness

/-!
# Expressions inside a text

A chain that has been read ends in front of a delimiter or at the end of the text, with no blanks
between (`Expression.ensures_readTier`). So one derivation tells what is read of a text up to there
and what its front gives by itself (`Expression.read_local`).
-/

namespace Reckoner

open Text Cursor Grammar

namespace Expression

variable {s : Settings} {t : Tier} {c : Cursor}

/-- The cursor stands at the end of the text, or where a chain of the tier can end. -/
def Delimited (t : Tier) (c : Cursor) : Prop :=
  ∀ x ∈ c.peek, endsChain t x = true

/-- Behind an operand of the low tier no operator of the high tier is left. -/
def Between (t : Tier) (c : Cursor) : Prop :=
  t = .low → Delimited .high c

theorem isBlank_of_endsChain {x : Char} (h : endsChain t x = true) : isBlank x = false := by
  rcases eq_of_endsOperand (endsOperand_of_endsChain h) with
    rfl | rfl | rfl | rfl | rfl | rfl | rfl <;> rfl

theorem Delimited.skipBlanks_eq (h : Delimited t c) : c.skipBlanks = c := by
  rw [skipBlanks]
  rcases hx : c.peek with _ | x
  · rw [takeWhile_of_peek_none hx]
  · rw [takeWhile_of_neg hx (by simp [isBlank_of_endsChain (h x hx)])]

theorem Delimited.before {cs : List Char} (h : Delimited t (ofList cs)) :
    Before (endsChain t) cs := by
  cases cs with
  | nil => exact before_nil _
  | cons x cs => exact before_cons (isBlank_of_endsChain (h x rfl)) (h x rfl) cs

theorem Between.skipBlanks (h : Between t c) : Between t c.skipBlanks := by
  intro ht
  rw [(h ht).skipBlanks_eq]
  exact h ht

/-- Where no operator of the tier goes on, the chain can end. -/
theorem Between.endsChain {x : Char} {op : Operator} (h : Between t c) (hx : c.peek = some x)
    (hop : Operator.ofChar? x = some op) (ht : op.tier ≠ t) : endsChain t x = true := by
  rw [← Operator.symbol_of_ofChar? hop] at hx ⊢
  cases t with
  | low =>
    have := h rfl _ hx
    cases op <;> first | exact absurd rfl ht | exact absurd this (by decide)
  | high => cases op <;> first | rfl | exact absurd rfl ht

theorem ensures_readChain
    (hoperand : ∀ c, (readOperand s t c).Ensures fun _ d => Between t d) (first : Expression)
    (acc : List (Operator × Expression)) {c : Cursor} (hc : Between t c) :
    (readChain s t first acc c).Ensures fun _ d => Delimited t d := by
  have hsk := hc.skipBlanks
  have hle := size_skipBlanks_le c
  rw [readChain]
  change (Step.onPeek c.skipBlanks _ _).Ensures _
  rw [Step.onPeek]
  split
  · rename_i hpeek
    refine Step.ensures_done fun x hx => ?_
    rw [hpeek] at hx
    cases hx
  · rename_i x hpeek
    have hlt := size_pop_lt hpeek
    split
    · rename_i op hop
      split
      · refine Step.Ensures.beyond ((hoperand _).andThen fun operand d hd hbetween => ?_) _
        split
        · exact Step.ensures_fail _
        · exact ensures_readChain hoperand _ _ hbetween
      · rename_i htier
        refine Step.ensures_done fun y hy => ?_
        obtain rfl : x = y := by simpa [hpeek] using hy
        exact hsk.endsChain hpeek hop htier
    · split
      · rename_i hx
        refine Step.ensures_done fun y hy => ?_
        obtain rfl : x = y := by simpa [hpeek] using hy
        cases t <;> simp_all [Grammar.endsChain]
      · exact Step.ensures_fail _
  termination_by c.size

theorem ensures_readTier_high (s : Settings) (c : Cursor) :
    (readTier s .high c).Ensures fun _ d => Delimited .high d := by
  have hoperand : ∀ c, (readOperand s .high c).Ensures fun _ d => Between .high d := by
    intro c e _ ht
    cases ht
  rw [readTier]
  exact (hoperand c).andThen fun first d _ hd => ensures_readChain hoperand first [] hd

/-- An expression that has been read ends in front of a delimiter or at the end of the text. -/
theorem ensures_readTier_low (s : Settings) (c : Cursor) :
    (readTier s .low c).Ensures fun _ d => Delimited .low d := by
  have hoperand : ∀ c, (readOperand s .low c).Ensures fun _ d => Between .low d := by
    intro c
    rw [readOperand]
    exact (ensures_readTier_high s c.skipBlanks).mono fun _ _ hd _ => hd
  rw [readTier]
  exact (hoperand c).andThen fun first d _ hd => ensures_readChain hoperand first [] hd

/-- In front of a delimiter, what a derivation renders is read as it is alone, and nothing more. -/
theorem read_of_renders {d : Chain .low} {text rest : String} {e : Expression} (hd : d.Renders text)
    (he : d.build s = .ok e) (hrest : Delimited .low (ofString rest)) :
    Expression.read s (ofString (text ++ rest)) = (.ok e, ofString rest) := by
  have hfaces : (ofString (text ++ rest)).Faces (text.toList ++ rest.toList) := by
    rw [ofString, String.toList_append]
    exact faces_ofList _
  obtain ⟨hresult, hleft⟩ := d.gives_readTier (s := s) hfaces hd hrest.before
  rw [he] at hresult hleft
  refine Prod.ext hresult ?_
  calc (readTier s .low (ofString (text ++ rest))).rest
      = (readTier s .low (ofString (text ++ rest))).rest.skipBlanks :=
        (ensures_readTier_low s _ e hresult).skipBlanks_eq.symm
    _ = ofList (rest.toList.dropWhile isBlank) := hleft e rfl
    _ = (ofString rest).skipBlanks := (skipBlanks_ofList _).symm
    _ = ofString rest := hrest.skipBlanks_eq

/-- What is read of a text stands in front of a delimiter or the end, and was built by a derivation
of which it is a rendering. -/
theorem exists_renders_of_read {text : String} {e : Expression}
    {c : Cursor} (h : Expression.read s (ofString text) = (.ok e, c)) :
    ∃ d : Chain .low, ∃ front rest : String, text = front ++ rest ∧ c = ofString rest ∧
      Delimited .low (ofString rest) ∧ d.Renders front ∧ d.build s = .ok e := by
  obtain ⟨d, post, ⟨pre, htext, hs⟩, rfl⟩ := exists_chain_of_readTier h
  have hdelim : Delimited .low (ofList post) := (ensures_readTier_low s _).of_pair h
  have hfaces : (ofString text).Faces (pre ++ post) := htext ▸ faces_ofList _
  obtain ⟨hresult, -⟩ := d.gives_readTier (s := s) hfaces hs hdelim.before
  refine ⟨d, .ofList pre, .ofList post, ?_, ?_, ?_, ?_, ?_⟩
  · rw [← String.ofList_append, ← htext, String.ofList_toList]
  · rw [ofString, String.toList_ofList]
  · rwa [ofString, String.toList_ofList]
  · rwa [Chain.Renders, String.toList_ofList]
  · exact hresult.symm.trans (congrArg Prod.fst h)

/-- Reading an expression is local. In front of a delimiter, a text that is an expression by itself
is read as that expression, and a cursor over the rest is left. Whatever is read of a text ends at
its end or in front of a delimiter, and is what the text up to there is by itself. -/
theorem read_local (r : Registry) :
    (∀ (text rest : String) (e : Expression), parse r text = .ok e →
      (∀ x ∈ rest.toList.head?, x = ')' ∨ x = ',') →
      Expression.read { registry := r } (ofString (text ++ rest)) = (.ok e, ofString rest) ∧
      (ofString rest).remaining = rest.toList) ∧
    ∀ (text : String) (e : Expression) (c : Cursor),
      Expression.read { registry := r } (ofString text) = (.ok e, c) →
      (∀ x ∈ c.remaining.head?, x = ')' ∨ x = ',') ∧
      ∃ front : String, text.toList = front.toList ++ c.remaining ∧ parse r front = .ok e := by
  have hends : ∀ x, endsChain .low x = true ↔ x = ')' ∨ x = ',' := by
    simp [endsChain]
  refine ⟨fun text rest e he hrest => ⟨?_, remaining_ofList _⟩, fun text e c h => ?_⟩
  · obtain ⟨d, hd, hb⟩ := exists_build_of_readWhole he
    refine read_of_renders hd hb fun x hx => (hends x).2 (hrest x ?_)
    rwa [ofString, peek_ofList] at hx
  · obtain ⟨d, front, rest, rfl, rfl, hdelim, hd, hb⟩ := exists_renders_of_read h
    rw [ofString, remaining_ofList, String.toList_append]
    refine ⟨fun x hx => (hends x).1 (hdelim x ?_), front, rfl, ?_⟩
    · rwa [ofString, peek_ofList]
    · exact (readWhole_of_renders hd).trans hb

end Expression

end Reckoner
