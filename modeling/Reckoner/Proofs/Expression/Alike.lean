import Reckoner.Expression.Grammar
import Reckoner.Proofs.Literal.Alike

/-!
# Expressions of one text in two cursors

A number may be read where an expression starts, and behind an operator, an opening parenthesis and a
comma (`opensOperand`). Reading an expression agrees over two cursors that are alike there.
-/

namespace Reckoner

open Text Cursor

namespace Expression

/-- Whether an operand may follow the character. -/
def opensOperand (x : Char) : Bool :=
  (Operator.ofChar? x).isSome || x = '(' || x = ','

variable {s : Settings}

theorem agrees_readNumber {c d : Cursor} (h : Alike opensOperand (.outside true) c d) :
    Agrees opensOperand (readNumber c).pair (readNumber d).pair :=
  Literal.agrees_readPlain h

theorem next_of_ofChar? {b : Bool} {x : Char} {op : Operator} (h : Operator.ofChar? x = some op) :
    (Place.outside b).next opensOperand x = .outside true := by
  have hx : (isBlank x || isQuote x) = false := by
    obtain rfl := Operator.symbol_of_ofChar? h
    cases op <;> rfl
  rw [Place.next_outside hx, opensOperand, h]
  rfl

mutual

theorem agrees_readTerm {c d : Cursor} (h : Alike opensOperand (.outside true) c d) :
    Agrees opensOperand (readTerm s c).pair (readTerm s d).pair := by
  rw [readTerm, readTerm]
  refine .onNext rfl h (fun c₁ d₁ hc hd h => ?_) fun c₁ d₁ hc hd h => ?_
  · refine .andThen (agrees_readTier h) fun inner c₂ d₂ _ _ h => ?_
    exact .require rfl h fun _ _ _ _ h => .ok h _
  · refine .andThen (agrees_readNumber h) fun coefficient c₂ d₂ hc₂ hd₂ h => ?_
    refine .andThen (.name h) fun name c₃ d₃ hc₃ hd₃ h => ?_
    match name, coefficient with
    | some name, coefficient =>
      exact .onNext rfl h (fun c₄ d₄ hc₄ hd₄ h => agrees_readCall h) fun _ _ _ _ h => .ok h _
    | none, some n => exact .ok h _
    | none, none => exact .error h _
  termination_by (c.size, 0)
  decreasing_by
    · exact .left _ _ hc
    · exact .left _ _ (Nat.lt_of_lt_of_le hc₄ (Nat.le_trans hc₃ (Nat.le_trans hc₂ hc)))

theorem agrees_readCall {c d : Cursor} {name : String} {coefficient : Option Float}
    (h : Alike opensOperand (.outside true) c d) :
    Agrees opensOperand (readCall s name coefficient c).pair (readCall s name coefficient d).pair := by
  rw [readCall, readCall]
  split
  · exact .error h _
  · refine .andThen (agrees_readArgs h) fun args c₁ d₁ _ _ h => ?_
    refine .require rfl h fun c₂ d₂ _ _ h => ?_
    split
    · exact .error h _
    · exact .ok h _
  termination_by (c.size, 6)
  decreasing_by exact .right' _ (Nat.le_refl _) (by decide)

theorem agrees_readArgs {c d : Cursor} (h : Alike opensOperand (.outside true) c d) :
    Agrees opensOperand (readArgs s c).pair (readArgs s d).pair := by
  rw [readArgs, readArgs]
  refine .andThen (agrees_readTier h) fun arg c₁ d₁ hc hd h => ?_
  exact .onNext rfl h (fun c₂ d₂ hc₂ _ h => .map (agrees_readArgs h) _) fun _ _ _ _ h => .ok h _
  termination_by (c.size, 5)
  decreasing_by
    · exact .right' _ (Nat.le_refl _) (by decide)
    · exact .left _ _ (Nat.lt_of_lt_of_le hc₂ hc)

theorem agrees_readOperand {c d : Cursor} {tier : Tier}
    (h : Alike opensOperand (.outside true) c d) :
    Agrees opensOperand (readOperand s tier c).pair (readOperand s tier d).pair := by
  rw [readOperand, readOperand]
  refine .afterBlanks h fun c₁ d₁ hc hd h => ?_
  match tier with
  | .low => exact agrees_readTier h
  | .high => exact agrees_readTerm h
  termination_by (c.size, depth tier)
  decreasing_by
    · exact .right' _ hc (by decide)
    · exact .right' _ hc (by decide)

theorem agrees_readTier {c d : Cursor} {tier : Tier}
    (h : Alike opensOperand (.outside true) c d) :
    Agrees opensOperand (readTier s tier c).pair (readTier s tier d).pair := by
  rw [readTier, readTier]
  exact .andThen (agrees_readOperand h) fun first c₁ d₁ hc _ h => agrees_readChain h
  termination_by (c.size, depth tier + 1)
  decreasing_by
    · exact .right' _ (Nat.le_refl _) (Nat.lt_succ_self _)
    · exact .right' _ hc (Nat.succ_pos _)

theorem agrees_readChain {c d : Cursor} {tier : Tier} {first : Expression}
    {rest : List (Operator × Expression)} (h : Alike opensOperand (.outside false) c d) :
    Agrees opensOperand (readChain s tier first rest c).pair (readChain s tier first rest d).pair := by
  rw [readChain, readChain]
  refine .afterBlanks h fun c₁ d₁ hc hd h => ?_
  refine .onPeek h (.ok h _) fun x c₂ d₂ hc₂ hd₂ hpop => ?_
  split
  · rename_i op hop
    split
    · rw [next_of_ofChar? hop] at hpop
      refine .andThen (agrees_readOperand hpop) fun operand c₃ d₃ hc₃ hd₃ h => ?_
      split
      · exact .error h _
      · exact agrees_readChain h
    · exact .ok h _
  · split
    · exact .ok h _
    · exact .error h _
  termination_by (c.size, 0)
  decreasing_by
    · exact .left _ _ (Nat.lt_of_lt_of_le hc₂ hc)
    · exact .left _ _ (Nat.lt_of_le_of_lt hc₃ (Nat.lt_of_lt_of_le hc₂ hc))

end

end Expression

end Reckoner
