import Reckoner.Cursor.Step
import Reckoner.Json.Basic
import Reckoner.Literal.Progress

/-!
# The JSON grammar

    document := object | array
    object   := '{' [string ':' value (',' string ':' value)*] '}'
    array    := '[' [value (',' value)* [',']] ']'
    value    := string | number | boolean | object | array | 'null'

Strings, numbers and truth values are the literals. The last member under a key wins. Every rule
leaves no more to read than it found, which bounds the recursion.
-/

namespace Reckoner

namespace Json

/-- The value of a literal. -/
def ofLiteral : Literal → Json
  | .string s => string s
  | .number n => number n
  | .boolean b => boolean b

/-- A literal, or nothing where none can start. -/
def readLiteral (c : Cursor) : Step SyntaxError (Option Literal) c :=
  .ofPair (Literal.readValue c) (Literal.size_readValue_le c)

/-- A key, or nothing where none can start. -/
def readKey (c : Cursor) : Step SyntaxError (Option String) c :=
  .ofPair (Literal.readString c) (Literal.size_readString_le c)

/-- The word `null`, to which its first letter commits. -/
def readNull (c : Cursor) : Step SyntaxError Json c :=
  let word := c.take 4
  ⟨if word.1 = ['n', 'u', 'l', 'l'] then .ok null else .error (.expectedToken "null"), word.2,
    Cursor.size_take_le 4 c⟩

mutual

/-- A value, or nothing where none can start. -/
def readValue (c : Cursor) : Step SyntaxError (Option Json) c :=
  (readLiteral c).andThen fun literal c₁ _h₁ =>
    match literal with
    | some l => .done (some (ofLiteral l)) c₁
    | none =>
      .onPeek c₁ (.done none c₁) fun x c₂ _h₂ =>
        if x = '\x7b' then ((readObject c₂).map some).beyond _h₂
        else if x = '[' then ((readArray c₂).map some).beyond _h₂
        else if x = 'n' then (readNull c₁).map some
        else .done none c₁
  termination_by (c.size, 0)
  decreasing_by
    · exact .left _ _ (Nat.lt_of_lt_of_le _h₂ _h₁)
    · exact .left _ _ (Nat.lt_of_lt_of_le _h₂ _h₁)

/-- The rest of an object whose opening brace has been read. -/
def readObject (c : Cursor) : Step SyntaxError Json c :=
  .onNext '\x7d' c (fun c₁ _ => .done (object []) c₁)
    fun c₁ _h₁ => (readMembers [] c₁).map object
  termination_by (c.size, 1)
  decreasing_by exact .right' _ _h₁ (by decide)

/-- One or more members after those already read, and the closing brace. -/
def readMembers (members : Members Json) (c : Cursor) : Step SyntaxError (Members Json) c :=
  (readKey c).andThen fun key c₁ _h₁ =>
    match key with
    | none => .fail (.expectedToken "key") c₁
    | some key =>
      .require ':' c₁ (.expectedChar ':') fun c₂ _h₂ =>
        (readValue c₂).andThen fun value c₃ _h₃ =>
          match value with
          | none => .fail (.expectedToken "value") c₃
          | some v =>
            let members := Members.insert key v members
            .onNext ',' c₃ (fun c₄ _h₄ => readMembers members c₄) fun c₄ _ =>
              .require '\x7d' c₄ (.expectedChar '\x7d') fun c₅ _ => .done members c₅
  termination_by (c.size, 0)
  decreasing_by
    · exact .left _ _ (Nat.lt_of_lt_of_le _h₂ _h₁)
    · have h := Nat.lt_of_lt_of_le _h₂ _h₁
      exact .left _ _ (Nat.lt_of_lt_of_le _h₄ (Nat.le_trans _h₃ (Nat.le_of_lt h)))

/-- The rest of an array whose opening bracket has been read. -/
def readArray (c : Cursor) : Step SyntaxError Json c :=
  (readItems c).andThen fun items c₁ _ =>
    .require ']' c₁ (.expectedChar ']') fun c₂ _ => .done (array items) c₂
  termination_by (c.size, 2)
  decreasing_by exact .right' _ (Nat.le_refl _) (by decide)

/-- As many items as follow each other with commas between them; a comma may come last. -/
def readItems (c : Cursor) : Step SyntaxError (List Json) c :=
  (readValue c).andThen fun value c₁ _h₁ =>
    match value with
    | none => .done [] c₁
    | some v =>
      .onNext ',' c₁ (fun c₂ _h₂ => (readItems c₂).map (v :: ·)) fun c₂ _ => .done [v] c₂
  termination_by (c.size, 1)
  decreasing_by
    · exact .right' _ (Nat.le_refl _) (by decide)
    · exact .left _ _ (Nat.lt_of_lt_of_le _h₂ _h₁)

end

/-- An object or an array, or nothing where neither starts; what follows it stays. -/
def readDocument (c : Cursor) : Except SyntaxError (Option Json) × Cursor :=
  let c := c.skipBlanks
  match c.peek with
  | some '\x7b' =>
    ((readObject c.pop.2).map some).pair
  | some '[' =>
    ((readArray c.pop.2).map some).pair
  | _ => (.ok none, c)

/-- Reads a text that is one document. -/
def parse (text : String) : Except SyntaxError Json :=
  match readDocument (Cursor.ofString text) with
  | (.error e, _) => .error e
  | (.ok none, _) => .error (.expectedChar '\x7b')
  | (.ok (some v), rest) =>
    match rest.skipBlanks.peek with
    | some x => .error (.unexpectedCharacter x)
    | none => .ok v

end Json

end Reckoner
