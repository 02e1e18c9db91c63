import Reckoner.Json.Grammar
import Reckoner.Proofs.Literal.Termination

/-!
# Every rule for documents comes to an end

A container goes on as long as its values do, and a value in it starts behind a character that was
passed: a brace, a bracket, a colon or a comma. So a document is read within a limit that three times
the size of the cursor is enough for (`Json.reaches_readDocument`), and uses up what opens it
(`Json.consumes_readDocument`).
-/

namespace Reckoner

open Cursor Limited

namespace Json

def readNullWithin : Limited SyntaxError Json := do
  let word ← take 4
  if word = ['n', 'u', 'l', 'l'] then return null else throw (.expectedToken "null")

mutual

def readValueWithin : ℕ → Limited SyntaxError (Option Json)
  | 0 => exhausted
  | n + 1 => do
    let literal ← Literal.readValueWithin n
    match literal with
    | some l => return some (ofLiteral l)
    | none =>
      match ← peek with
      | none => return none
      | some x =>
        if x = '\x7b' then do
          let _ ← pop
          let v ← readObjectWithin n
          return some v
        else if x = '[' then do
          let _ ← pop
          let v ← readArrayWithin n
          return some v
        else if x = 'n' then do
          let v ← readNullWithin
          return some v
        else return none

def readObjectWithin : ℕ → Limited SyntaxError Json
  | 0 => exhausted
  | n + 1 => do
    if ← isNext '\x7d' n then return object []
    else
      let members ← readMembersWithin [] n
      return object members

def readMembersWithin (members : Members Json) : ℕ → Limited SyntaxError (Members Json)
  | 0 => exhausted
  | n + 1 => do
    let key ← Literal.readStringWithin n
    match key with
    | none => throw (.expectedToken "key")
    | some key =>
      require ':' (.expectedChar ':') n
      let value ← readValueWithin n
      match value with
      | none => throw (.expectedToken "value")
      | some v =>
        if ← isNext ',' n then readMembersWithin (members.insert key v) n
        else
          require '\x7d' (.expectedChar '\x7d') n
          return members.insert key v

def readArrayWithin : ℕ → Limited SyntaxError Json
  | 0 => exhausted
  | n + 1 => do
    let items ← readItemsWithin n
    require ']' (.expectedChar ']') n
    return array items

def readItemsWithin : ℕ → Limited SyntaxError (List Json)
  | 0 => exhausted
  | n + 1 => do
    let value ← readValueWithin n
    match value with
    | none => return []
    | some v =>
      if ← isNext ',' n then
        let vs ← readItemsWithin n
        return v :: vs
      else return [v]

end

def readDocumentWithin (n : ℕ) : Limited SyntaxError (Option Json) := do
  skipBlanks n
  let next ← peek
  if next = some '\x7b' then do
    let _ ← pop
    let v ← readObjectWithin n
    return some v
  else if next = some '[' then do
    let _ ← pop
    let v ← readArrayWithin n
    return some v
  else return none

theorem reaches_readNull (c : Cursor) : Reaches readNullWithin c (readNull c).pair := by
  unfold readNullWithin readNull Step.pair
  refine .bind (reaches_take 4 c) ?_
  dsimp only
  split
  · exact reaches_pure null _
  · exact reaches_throw _ _

mutual

theorem reaches_readValue {c : Cursor} : ∀ {n : ℕ}, 3 * c.size + 1 < n →
    Reaches (readValueWithin n) c (readValue c).pair
  | 0, hn => absurd hn (Nat.not_lt_zero _)
  | n + 1, hn => by
    rw [readValueWithin, readValue]
    refine .andThen (s := readLiteral c) (Literal.reaches_readValue (by omega)) fun literal c₁ h₁ => ?_
    match literal with
    | some l => exact reaches_pure _ c₁
    | none =>
      refine reaches_onPeek (reaches_pure none c₁) fun x h₂ => ?_
      dsimp only
      split
      · exact .pop_bind (.map (reaches_readObject (by omega)) some)
      split
      · exact .pop_bind (.map (reaches_readArray (by omega)) some)
      split
      · exact .map (reaches_readNull c₁) some
      · exact reaches_pure none c₁

theorem reaches_readObject {c : Cursor} : ∀ {n : ℕ}, 3 * c.size + 2 < n →
    Reaches (readObjectWithin n) c (readObject c).pair
  | 0, hn => absurd hn (Nat.not_lt_zero _)
  | n + 1, hn => by
    rw [readObjectWithin, readObject]
    exact reaches_onNext (by omega) (fun c₁ _ => reaches_pure _ c₁)
      fun c₁ h₁ => .map (reaches_readMembers (by omega)) object

theorem reaches_readMembers {members : Members Json} {c : Cursor} : ∀ {n : ℕ},
    3 * c.size + 1 < n → Reaches (readMembersWithin members n) c (readMembers members c).pair
  | 0, hn => absurd hn (Nat.not_lt_zero _)
  | n + 1, hn => by
    rw [readMembersWithin, readMembers]
    refine .andThen (s := readKey c) (Literal.reaches_readString (by omega)) fun key c₁ h₁ => ?_
    match key with
    | none => exact reaches_throw _ c₁
    | some key =>
      refine reaches_require (by omega) fun c₂ h₂ => ?_
      refine .andThen (reaches_readValue (by omega)) fun value c₃ h₃ => ?_
      match value with
      | none => exact reaches_throw _ c₃
      | some v =>
        refine reaches_onNext (by omega) (fun c₄ h₄ => reaches_readMembers (by omega))
          fun c₄ h₄ => ?_
        exact reaches_require (by omega) fun c₅ _ => reaches_pure _ c₅

theorem reaches_readArray {c : Cursor} : ∀ {n : ℕ}, 3 * c.size + 3 < n →
    Reaches (readArrayWithin n) c (readArray c).pair
  | 0, hn => absurd hn (Nat.not_lt_zero _)
  | n + 1, hn => by
    rw [readArrayWithin, readArray]
    refine .andThen (reaches_readItems (by omega)) fun items c₁ h₁ => ?_
    exact reaches_require (by omega) fun c₂ _ => reaches_pure _ c₂

theorem reaches_readItems {c : Cursor} : ∀ {n : ℕ}, 3 * c.size + 2 < n →
    Reaches (readItemsWithin n) c (readItems c).pair
  | 0, hn => absurd hn (Nat.not_lt_zero _)
  | n + 1, hn => by
    rw [readItemsWithin, readItems]
    refine .andThen (reaches_readValue (by omega)) fun value c₁ h₁ => ?_
    match value with
    | none => exact reaches_pure [] c₁
    | some v =>
      exact reaches_onNext (by omega) (fun c₂ h₂ => .map (reaches_readItems (by omega)) (v :: ·))
        fun c₂ _ => reaches_pure [v] c₂

end

theorem readDocument_eq_ite (c : Cursor) : readDocument c =
    if c.skipBlanks.peek = some '\x7b' then ((readObject c.skipBlanks.pop.2).map some).pair
    else if c.skipBlanks.peek = some '[' then ((readArray c.skipBlanks.pop.2).map some).pair
    else (.ok none, c.skipBlanks) := by
  unfold readDocument
  dsimp only
  split
  · rename_i hbrace
    rw [if_pos hbrace]
  · rename_i hbracket
    rw [hbracket, if_neg (by decide), if_pos rfl]
  · rename_i hbrace hbracket
    rw [if_neg hbrace, if_neg hbracket]

theorem reaches_readDocument {c : Cursor} {n : ℕ} (hn : 3 * c.size + 3 < n) :
    Reaches (readDocumentWithin n) c (readDocument c) := by
  have hblanks := size_skipBlanks_le c
  have hpop := size_pop_le c.skipBlanks
  rw [readDocumentWithin, readDocument_eq_ite]
  refine .bind (reaches_skipBlanks (by omega)) (.peek_bind ?_)
  split
  · exact .pop_bind (.map (reaches_readObject (by omega)) some)
  split
  · exact .pop_bind (.map (reaches_readArray (by omega)) some)
  · exact reaches_pure none _

theorem consumes_readNull (c : Cursor) : Consumes c (fun _ => true) (readNull c).pair := by
  have htake := length_take 4 c
  change Consumes c _ (if (c.take 4).1 = ['n', 'u', 'l', 'l'] then .ok null else .error _, (c.take 4).2)
  split
  · rename_i hword
    rw [hword] at htake
    change 4 + _ = _ at htake
    exact .ok (by omega) fun _ => by omega
  · exact .error (by omega) _

mutual

theorem consumes_readValue (c : Cursor) : Consumes c Option.isSome (readValue c).pair := by
  rw [readValue]
  refine .andThen (Nat.le_refl _) (s := readLiteral c) (Literal.consumes_readValue c)
    fun literal c₁ hc₁ h₁ hliteral => ?_
  match literal with
  | some l => exact .done (hliteral rfl) _
  | none =>
    refine .onPeek (.none h₁) fun x c₂ hc₂ h₂ => ?_
    have hlt := Nat.lt_of_lt_of_le h₂ h₁
    split
    · exact .map (s := readObject c₂) ((consumes_readObject c₂).of_lt hlt)
    split
    · exact .map (s := readArray c₂) ((consumes_readArray c₂).of_lt hlt)
    split
    · exact .map ((consumes_readNull c₁).of_le h₁)
    · exact .none h₁
  termination_by (c.size, 0)
  decreasing_by
    · exact .left _ _ (Nat.lt_of_lt_of_le hc₂ hc₁)
    · exact .left _ _ (Nat.lt_of_lt_of_le hc₂ hc₁)

theorem consumes_readObject (c : Cursor) : Consumes c (fun _ => true) (readObject c).pair := by
  rw [readObject]
  exact .onNext (fun c₁ _ h₁ => .done h₁ _)
    fun c₁ hc₁ h₁ => .map ((consumes_readMembers c₁).of_le h₁)
  termination_by (c.size, 1)
  decreasing_by exact .right' _ hc₁ (by decide)

theorem consumes_readMembers {members : Members Json} (c : Cursor) :
    Consumes c (fun _ => true) (readMembers members c).pair := by
  rw [readMembers]
  refine .andThen (Nat.le_refl _) (s := readKey c) (Literal.consumes_readString c)
    fun key c₁ hc₁ h₁ hkey => ?_
  match key with
  | none => exact .fail h₁ _
  | some key =>
    refine .require h₁ fun c₂ hc₂ h₂ => ?_
    refine .andThen (by omega) (consumes_readValue c₂) fun value c₃ hc₃ h₃ _ => ?_
    match value with
    | none => exact .fail (by omega) _
    | some v =>
      refine .onNext (fun c₄ hc₄ h₄ => (consumes_readMembers c₄).of_lt (by omega))
        fun c₄ _ h₄ => ?_
      exact .require (by omega) fun c₅ _ h₅ => .done (by omega) _
  termination_by (c.size, 0)
  decreasing_by
    · exact .left _ _ (Nat.lt_of_lt_of_le hc₂ hc₁)
    · have h := Nat.lt_of_lt_of_le hc₂ hc₁
      exact .left _ _ (Nat.lt_of_lt_of_le hc₄ (Nat.le_trans hc₃ (Nat.le_of_lt h)))

theorem consumes_readArray (c : Cursor) : Consumes c (fun _ => true) (readArray c).pair := by
  rw [readArray]
  refine .andThen (Nat.le_refl _) (consumes_readItems c) fun items c₁ hc₁ h₁ _ => ?_
  exact .require h₁ fun c₂ _ h₂ => .done (by omega) _
  termination_by (c.size, 2)
  decreasing_by exact .right' _ (Nat.le_refl _) (by decide)

/-- There may be no items at all. -/
theorem consumes_readItems (c : Cursor) : Consumes c (fun _ => false) (readItems c).pair := by
  rw [readItems]
  refine .andThen (Nat.le_refl _) (consumes_readValue c) fun value c₁ hc₁ h₁ hvalue => ?_
  match value with
  | none => exact .ok h₁ fun h => by cases h
  | some v =>
    have hlt := hvalue rfl
    exact .onNext (fun c₂ hc₂ h₂ => .map ((consumes_readItems c₂).of_lt (by omega)))
      fun c₂ _ h₂ => .done (by omega) _
  termination_by (c.size, 1)
  decreasing_by
    · exact .right' _ (Nat.le_refl _) (by decide)
    · exact .left _ _ (Nat.lt_of_lt_of_le hc₂ hc₁)

end

theorem consumes_readDocument (c : Cursor) : Consumes c Option.isSome (readDocument c) := by
  have hblanks := c.skipBlanks_suffix.length_le
  unfold readDocument
  dsimp only
  split
  · rename_i hx
    have hlt := Nat.lt_of_lt_of_le (length_pop_lt hx) hblanks
    exact .map ((consumes_readObject c.skipBlanks.pop.2).of_lt hlt)
  · rename_i hx
    have hlt := Nat.lt_of_lt_of_le (length_pop_lt hx) hblanks
    exact .map ((consumes_readArray c.skipBlanks.pop.2).of_lt hlt)
  · exact .none hblanks

end Json

end Reckoner
