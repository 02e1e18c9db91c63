import Reckoner.Cursor.Step
import Reckoner.Expression.Basic
import Reckoner.Literal.Basic

/-!
# The expression grammar

    low  := high (('+' | '-') high)*
    high := term (('*' | '/' | '^') term)*
    term := '(' low ')' | [number] [name ['(' low (',' low)* ')']]

A tier reads operands joined by its own operators and leaves the other tier's where they stand.
Operands without names are combined at once while nothing else has been read, so that an expression
without names is a single number; `Settings.folds` turns this off. Every rule leaves no more to read
than it found, which bounds the recursion.
-/

namespace Reckoner

namespace Expression

/-- What an expression is read against. -/
structure Settings where
  registry : Registry
  /-- Whether leading operands without names are combined as they are read. -/
  folds : Bool := true

/-- Takes one more operand into a chain that has read `first` and `rest`. -/
def Settings.extend (s : Settings) (first : Expression) (rest : List (Operator × Expression))
    (op : Operator) (operand : Expression) :
    Except SyntaxError (Expression × List (Operator × Expression)) :=
  if s.folds && rest.isEmpty && first.isConstant && operand.isConstant then do
    let x ← first.value
    let y ← operand.value
    let z ← op.apply x y
    return (constant z, [])
  else .ok (first, rest ++ [(op, operand)])

/-- The expression that has been read: a chain only where an operand was joined to the first. -/
def close (first : Expression) (rest : List (Operator × Expression)) : Expression :=
  if rest.isEmpty then first else ofChain first rest

/-- A number without an exponent, if one stands here. -/
def readNumber (c : Cursor) : Step SyntaxError (Option Float) c :=
  .ofPair (Literal.readPlain c) (Literal.size_readPlain_le c)

/-- How far down the grammar an operand of a tier stands. -/
abbrev depth : Tier → Nat
  | .low => 3
  | .high => 1

mutual

/-- A group, a number, a quantity or a call. -/
def readTerm (s : Settings) (c : Cursor) : Step SyntaxError Expression c :=
  .onNext '(' c
    (fun c₁ _h₁ => (readTier s .low c₁).andThen fun inner c₂ _ =>
      .require ')' c₂ (.expectedChar ')') fun c₃ _ => .done (group inner) c₃)
    fun c₁ _h₁ => (readNumber c₁).andThen fun coefficient c₂ _h₂ =>
      (Step.name c₂).andThen fun name c₃ _h₃ =>
        match name, coefficient with
        | some name, coefficient =>
          .onNext '(' c₃ (fun c₄ _h₄ => readCall s name coefficient c₄)
            fun c₄ _ => .done (quantity (.free name coefficient)) c₄
        | none, some n => .done (constant n) c₃
        | none, none => .fail .missingTerm c₃
  termination_by (c.size, 0)
  decreasing_by
    · exact .left _ _ _h₁
    · exact .left _ _ (Nat.lt_of_lt_of_le _h₄ (Nat.le_trans _h₃ (Nat.le_trans _h₂ _h₁)))

/-- The rest of a call whose opening parenthesis has been read. -/
def readCall (s : Settings) (name : String) (coefficient : Option Float) (c : Cursor) :
    Step SyntaxError Expression c :=
  match s.registry.lookup name with
  | none => .fail (.unknownFunction name) c
  | some f =>
    (readArgs s c).andThen fun args c₁ _ =>
      .require ')' c₁ (.expectedChar ')') fun c₂ _ =>
        match f.checkArity args.length with
        | .error e => .fail e c₂
        | .ok () => .done (ofCall f coefficient args) c₂
  termination_by (c.size, 6)
  decreasing_by exact .right' _ (Nat.le_refl _) (by decide)

/-- One or more arguments with commas between them. -/
def readArgs (s : Settings) (c : Cursor) : Step SyntaxError (List Expression) c :=
  (readTier s .low c).andThen fun arg c₁ _h₁ =>
    .onNext ',' c₁ (fun c₂ _h₂ => (readArgs s c₂).map (arg :: ·)) fun c₂ _ => .done [arg] c₂
  termination_by (c.size, 5)
  decreasing_by
    · exact .right' _ (Nat.le_refl _) (by decide)
    · exact .left _ _ (Nat.lt_of_lt_of_le _h₂ _h₁)

/-- An operand of a tier: for the low tier whatever the high one reads, for the high tier a term. -/
def readOperand (s : Settings) (tier : Tier) (c : Cursor) : Step SyntaxError Expression c :=
  .afterBlanks c fun c₁ _h₁ =>
    match tier with
    | .low => readTier s .high c₁
    | .high => readTerm s c₁
  termination_by (c.size, depth tier)
  decreasing_by
    · exact .right' _ _h₁ (by decide)
    · exact .right' _ _h₁ (by decide)

/-- The operands of a tier and the operators between them. -/
def readTier (s : Settings) (tier : Tier) (c : Cursor) : Step SyntaxError Expression c :=
  (readOperand s tier c).andThen fun first c₁ _h₁ => readChain s tier first [] c₁
  termination_by (c.size, depth tier + 1)
  decreasing_by
    · exact .right' _ (Nat.le_refl _) (Nat.lt_succ_self _)
    · exact .right' _ _h₁ (Nat.succ_pos _)

/-- Reads on in a tier that has read `first` and `rest`. -/
def readChain (s : Settings) (tier : Tier) (first : Expression)
    (rest : List (Operator × Expression)) (c : Cursor) : Step SyntaxError Expression c :=
  .afterBlanks c fun c₁ _h₁ =>
    .onPeek c₁ (.done (close first rest) c₁) fun x c₂ _h₂ =>
      match Operator.ofChar? x with
      | some op =>
        if op.tier = tier then
          ((readOperand s tier c₂).andThen fun operand c₃ _h₃ =>
            match s.extend first rest op operand with
            | .error e => .fail e c₃
            | .ok (first, rest) => readChain s tier first rest c₃).beyond _h₂
        else .done (close first rest) c₁
      | none =>
        if x = ')' || x = ',' then .done (close first rest) c₁
        else .fail (.unexpectedCharacter x) c₁
  termination_by (c.size, 0)
  decreasing_by
    · exact .left _ _ (Nat.lt_of_lt_of_le _h₂ _h₁)
    · exact .left _ _ (Nat.lt_of_le_of_lt _h₃ (Nat.lt_of_lt_of_le _h₂ _h₁))

end

/-- Reads one expression; what follows it stays. -/
def read (s : Settings) (c : Cursor) : Except SyntaxError Expression × Cursor :=
  (readTier s .low c).pair

/-- Reads one expression and refuses whatever follows it, blanks apart. -/
def readWhole (s : Settings) (c : Cursor) : Except SyntaxError Expression :=
  match read s c with
  | (.error e, _) => .error e
  | (.ok e, rest) =>
    match rest.skipBlanks.peek with
    | some x => .error (.unexpectedCharacter x)
    | none => .ok e

/-- Reads a text that is one expression, with calls from `registry`. -/
def parse (registry : Registry) (text : String) : Except SyntaxError Expression :=
  readWhole { registry } (Cursor.ofString text)

end Expression

end Reckoner
