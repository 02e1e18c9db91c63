import Reckoner.Expression.Grammar
import Reckoner.Proofs.Literal.Termination

/-!
# Every expression rule comes to an end

A tier hands its work down to the next before anything is read, so a rule counts how far down it stands
beside how much remains: a character is worth more than all the ways down together
(`Expression.reaches_read`). A term is read with a character at least, and the chain that goes on after
an operand with an operator each time around (`Expression.consumes_readChain`), so an expression that is
read leaves less than there was (`Expression.consumes_read`).
-/

namespace Reckoner

open Cursor Limited

namespace Expression

mutual

def readTermWithin (s : Settings) : ℕ → Limited SyntaxError Expression
  | 0 => exhausted
  | n + 1 => do
    if ← isNext '(' n then
      let inner ← readTierWithin s .low n
      require ')' (.expectedChar ')') n
      return group inner
    else
      let coefficient ← Literal.readPlainWithin n
      let name ← Limited.name n
      match name, coefficient with
      | some name, coefficient =>
        if ← isNext '(' n then readCallWithin s name coefficient n
        else return quantity (.free name coefficient)
      | none, some m => return constant m
      | none, none => throw .missingTerm

def readCallWithin (s : Settings) (name : String) (coefficient : Option Float) :
    ℕ → Limited SyntaxError Expression
  | 0 => exhausted
  | n + 1 =>
    match s.registry.lookup name with
    | none => throw (.unknownFunction name)
    | some f => do
      let args ← readArgsWithin s n
      require ')' (.expectedChar ')') n
      match f.checkArity args.length with
      | .error e => throw e
      | .ok () => return ofCall f coefficient args

def readArgsWithin (s : Settings) : ℕ → Limited SyntaxError (List Expression)
  | 0 => exhausted
  | n + 1 => do
    let arg ← readTierWithin s .low n
    if ← isNext ',' n then
      let args ← readArgsWithin s n
      return arg :: args
    else return [arg]

def readOperandWithin (s : Settings) (tier : Tier) : ℕ → Limited SyntaxError Expression
  | 0 => exhausted
  | n + 1 => do
    skipBlanks n
    match tier with
    | .low => readTierWithin s .high n
    | .high => readTermWithin s n

def readTierWithin (s : Settings) (tier : Tier) : ℕ → Limited SyntaxError Expression
  | 0 => exhausted
  | n + 1 => do
    let first ← readOperandWithin s tier n
    readChainWithin s tier first [] n

def readChainWithin (s : Settings) (tier : Tier) (first : Expression)
    (rest : List (Operator × Expression)) : ℕ → Limited SyntaxError Expression
  | 0 => exhausted
  | n + 1 => do
    skipBlanks n
    match ← peek with
    | none => return close first rest
    | some x =>
      match Operator.ofChar? x with
      | some op =>
        if op.tier = tier then do
          let _ ← pop
          let operand ← readOperandWithin s tier n
          match s.extend first rest op operand with
          | .error e => throw e
          | .ok (first, rest) => readChainWithin s tier first rest n
        else return close first rest
      | none =>
        if x = ')' || x = ',' then return close first rest
        else throw (.unexpectedCharacter x)

end

def readWithin (s : Settings) (n : ℕ) : Limited SyntaxError Expression :=
  readTierWithin s .low n

variable {s : Settings}

theorem depth_le (tier : Tier) : depth tier ≤ 3 := by
  cases tier <;> decide

mutual

theorem reaches_readTerm {c : Cursor} : ∀ {n : ℕ}, 7 * c.size + 1 < n →
    Reaches (readTermWithin s n) c (readTerm s c).pair
  | 0, hn => absurd hn (Nat.not_lt_zero _)
  | n + 1, hn => by
    -- A parenthesis is passed before a tier or a call, and makes up for the rank that these have.
    have hlow := depth_le .low
    rw [readTermWithin, readTerm]
    refine reaches_onNext (by omega) (fun c₁ h₁ => ?_) fun c₁ h₁ => ?_
    · refine .andThen (reaches_readTier (by omega)) fun inner c₂ h₂ => ?_
      exact reaches_require (by omega) fun c₃ _ => reaches_pure _ c₃
    · refine .andThen (s := readNumber c₁) (Literal.reaches_readPlain (by omega))
        fun coefficient c₂ h₂ => ?_
      refine .andThen (reaches_name (by omega)) fun name c₃ h₃ => ?_
      match name, coefficient with
      | some name, coefficient =>
        exact reaches_onNext (by omega) (fun c₄ h₄ => reaches_readCall (by omega))
          fun c₄ _ => reaches_pure _ c₄
      | none, some m => exact reaches_pure _ c₃
      | none, none => exact reaches_throw _ c₃

theorem reaches_readCall {c : Cursor} {name : String} {coefficient : Option Float} :
    ∀ {n : ℕ}, 7 * c.size + 7 < n →
      Reaches (readCallWithin s name coefficient n) c (readCall s name coefficient c).pair
  | 0, hn => absurd hn (Nat.not_lt_zero _)
  | n + 1, hn => by
    rw [readCallWithin, readCall]
    rcases s.registry.lookup name with _ | f
    · exact reaches_throw _ c
    · refine .andThen (reaches_readArgs (by omega)) fun args c₁ h₁ => ?_
      refine reaches_require (by omega) fun c₂ _ => ?_
      rcases f.checkArity args.length with _ | _
      · exact reaches_throw _ c₂
      · exact reaches_pure _ c₂

theorem reaches_readArgs {c : Cursor} : ∀ {n : ℕ}, 7 * c.size + 6 < n →
    Reaches (readArgsWithin s n) c (readArgs s c).pair
  | 0, hn => absurd hn (Nat.not_lt_zero _)
  | n + 1, hn => by
    have hlow := depth_le .low
    rw [readArgsWithin, readArgs]
    refine .andThen (reaches_readTier (by omega)) fun arg c₁ h₁ => ?_
    exact reaches_onNext (by omega) (fun c₂ h₂ => .map (reaches_readArgs (by omega)) (arg :: ·))
      fun c₂ _ => reaches_pure [arg] c₂

theorem reaches_readOperand {tier : Tier} {c : Cursor} : ∀ {n : ℕ},
    7 * c.size + depth tier + 1 < n → Reaches (readOperandWithin s tier n) c (readOperand s tier c).pair
  | 0, hn => absurd hn (Nat.not_lt_zero _)
  | n + 1, hn => by
    cases tier with
    | low =>
      rw [readOperandWithin, readOperand]
      dsimp only [depth] at hn
      exact reaches_afterBlanks (by omega) fun c₁ h₁ =>
        reaches_readTier (by dsimp only [depth]; omega)
    | high =>
      rw [readOperandWithin, readOperand]
      dsimp only [depth] at hn
      exact reaches_afterBlanks (by omega) fun c₁ h₁ => reaches_readTerm (by omega)

theorem reaches_readTier {tier : Tier} {c : Cursor} : ∀ {n : ℕ},
    7 * c.size + depth tier + 2 < n → Reaches (readTierWithin s tier n) c (readTier s tier c).pair
  | 0, hn => absurd hn (Nat.not_lt_zero _)
  | n + 1, hn => by
    rw [readTierWithin, readTier]
    exact .andThen (reaches_readOperand (by omega)) fun first c₁ h₁ => reaches_readChain (by omega)

theorem reaches_readChain {tier : Tier} {first : Expression}
    {rest : List (Operator × Expression)} {c : Cursor} : ∀ {n : ℕ}, 7 * c.size + 1 < n →
      Reaches (readChainWithin s tier first rest n) c (readChain s tier first rest c).pair
  | 0, hn => absurd hn (Nat.not_lt_zero _)
  | n + 1, hn => by
    have htier := depth_le tier
    rw [readChainWithin, readChain]
    refine reaches_afterBlanks (by omega) fun c₁ h₁ => ?_
    refine reaches_onPeek (reaches_pure _ c₁) fun x h₂ => ?_
    dsimp only
    rcases Operator.ofChar? x with _ | op
    · dsimp only
      split
      · exact reaches_pure _ c₁
      · exact reaches_throw _ c₁
    · dsimp only
      split
      · refine .pop_bind (.andThen (reaches_readOperand (by omega)) fun operand c₃ h₃ => ?_)
        rcases s.extend first rest op operand with _ | ⟨first, rest⟩
        · exact reaches_throw _ c₃
        · exact reaches_readChain (by omega)
      · exact reaches_pure _ c₁

end

/-- A reading of an expression ends, whatever the settings. -/
theorem reaches_read {c : Cursor} {n : ℕ} (hn : 7 * c.size + 5 < n) :
    Reaches (readWithin s n) c (read s c) := by
  unfold readWithin read
  exact reaches_readTier hn

mutual

theorem consumes_readTerm (c : Cursor) : Consumes c (fun _ => true) (readTerm s c).pair := by
  rw [readTerm]
  refine .onNext (fun c₁ _ h₁ => ?_) fun c₁ hc₁ h₁ => ?_
  · refine .andThen (Nat.le_of_lt h₁) (consumes_readTier .low c₁) fun inner c₂ _ h₂ _ => ?_
    exact .require (by omega) fun c₃ _ h₃ => .done (by omega) _
  · refine .andThen h₁ (s := readNumber c₁) (Literal.consumes_readNumber false c₁)
      fun coefficient c₂ hc₂ h₂ hcoefficient => ?_
    refine .andThen (by omega) (consumes_name c₂) fun name c₃ hc₃ h₃ hname => ?_
    match name, coefficient with
    | some name, coefficient =>
      have h₃ := hname rfl
      exact .onNext (fun c₄ hc₄ h₄ => (consumes_readCall c₄).of_lt (by omega))
        fun c₄ _ h₄ => .done (by omega) _
    | none, some m =>
      have h₂ := hcoefficient rfl
      exact .done (by omega) _
    | none, none => exact .fail (by omega) _
  termination_by (c.size, 0)
  decreasing_by
    · exact .left _ _ ‹_›
    · exact .left _ _ (Nat.lt_of_lt_of_le hc₄ (Nat.le_trans hc₃ (Nat.le_trans hc₂ hc₁)))

theorem consumes_readCall {name : String} {coefficient : Option Float} (c : Cursor) :
    Consumes c (fun _ => true) (readCall s name coefficient c).pair := by
  rw [readCall]
  split
  · exact .fail (Nat.le_refl _) _
  · refine .andThen (Nat.le_refl _) (consumes_readArgs c) fun args c₁ _ h₁ _ => ?_
    refine .require h₁ fun c₂ _ h₂ => ?_
    split
    · exact .fail (by omega) _
    · exact .done (by omega) _
  termination_by (c.size, 6)
  decreasing_by exact .right' _ (Nat.le_refl _) (by decide)

theorem consumes_readArgs (c : Cursor) : Consumes c (fun _ => true) (readArgs s c).pair := by
  rw [readArgs]
  refine .andThen (Nat.le_refl _) (consumes_readTier .low c) fun arg c₁ hc₁ _ harg => ?_
  have h₁ := harg rfl
  exact .onNext (fun c₂ hc₂ h₂ => .map ((consumes_readArgs c₂).of_lt (by omega)))
    fun c₂ _ h₂ => .done (by omega) _
  termination_by (c.size, 5)
  decreasing_by
    · exact .right' _ (Nat.le_refl _) (by decide)
    · exact .left _ _ (Nat.lt_of_lt_of_le hc₂ hc₁)

theorem consumes_readOperand (tier : Tier) (c : Cursor) :
    Consumes c (fun _ => true) (readOperand s tier c).pair := by
  rw [readOperand]
  refine .afterBlanks fun c₁ hc₁ h₁ => ?_
  match tier with
  | .low => exact (consumes_readTier .high c₁).of_le h₁
  | .high => exact (consumes_readTerm c₁).of_le h₁
  termination_by (c.size, depth tier)
  decreasing_by
    · exact .right' _ hc₁ (by decide)
    · exact .right' _ hc₁ (by decide)

theorem consumes_readTier (tier : Tier) (c : Cursor) :
    Consumes c (fun _ => true) (readTier s tier c).pair := by
  rw [readTier]
  exact .andThen (Nat.le_refl _) (consumes_readOperand tier c) fun first c₁ hc₁ _ hfirst =>
    (consumes_readChain c₁).of_lt (hfirst rfl)
  termination_by (c.size, depth tier + 1)
  decreasing_by
    · exact .right' _ (Nat.le_refl _) (Nat.lt_succ_self _)
    · exact .right' _ hc₁ (Nat.succ_pos _)

/-- A chain may end where it stands. -/
theorem consumes_readChain {tier : Tier} {first : Expression} {rest : List (Operator × Expression)}
    (c : Cursor) : Consumes c (fun _ => false) (readChain s tier first rest c).pair := by
  rw [readChain]
  refine .afterBlanks fun c₁ hc₁ h₁ => ?_
  have hend : Consumes c (fun _ => false)
      (Step.done (close first rest) c₁ : Step SyntaxError Expression c₁).pair :=
    .ok h₁ fun h => by cases h
  refine .onPeek hend fun x c₂ hc₂ h₂ => ?_
  split
  · split
    · refine .andThen (by omega) (consumes_readOperand tier c₂) fun operand c₃ hc₃ h₃ _ => ?_
      split
      · exact .fail (by omega) _
      · exact (consumes_readChain c₃).of_lt (by omega)
    · exact hend
  · split
    · exact hend
    · exact .fail h₁ _
  termination_by (c.size, 0)
  decreasing_by
    · exact .left _ _ (Nat.lt_of_lt_of_le hc₂ hc₁)
    · exact .left _ _ (Nat.lt_of_le_of_lt hc₃ (Nat.lt_of_lt_of_le hc₂ hc₁))

end

theorem consumes_read (c : Cursor) : Consumes c (fun _ => true) (read s c) :=
  consumes_readTier .low c

end Expression

end Reckoner
