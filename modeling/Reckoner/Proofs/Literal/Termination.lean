import Reckoner.Proofs.Cursor.Consumption
import Reckoner.Proofs.Cursor.Limited
import Reckoner.Proofs.Literal.Alike
import Reckoner.Proofs.Literal.Remaining

/-!
# Every literal rule comes to an end

With a limit past the size of the cursor each literal rule comes to what it reads
(`Literal.reaches_readNumber`, `Literal.reaches_readValue`). The loop of a number goes around once for
each character: behind a mark it goes on where the exponent ended, and that is behind the mark even
where the exponent was handed back. A number that is read has a digit, which the loop has taken or will
(`Literal.length_scanScientific`), so no literal is read for nothing (`Literal.consumes_readValue`).
-/

namespace Reckoner

open Cursor Limited

namespace Literal

/-- What stands before the closing quote; nothing if the input ends first. -/
def contentWithin (quote : Char) (escaped : Bool) : ℕ → Limited SyntaxError (Option (List Char))
  | 0 => exhausted
  | n + 1 => do
    match ← pop with
    | none => return none
    | some x =>
      if !escaped && x = quote then return some []
      else
        let body ← contentWithin quote (!escaped && x = '\\') n
        return body.map (x :: ·)

def readStringWithin (n : ℕ) : Limited SyntaxError (Option String) := do
  skipBlanks n
  match ← peek with
  | none => return none
  | some quote =>
    if quote = '\'' || quote = '"' then do
      let _ ← pop
      match ← contentWithin quote false n with
      | some body => return some (String.ofList body)
      | none => throw .unterminatedString
    else return none

/-- Ends a number: without a digit in it, it is none, and is handed back. -/
def ending (taken : List Char) : Limited SyntaxError (Option Float) :=
  if taken.any Char.isDigit then return (Decimal.readPlain? taken).map Decimal.toFloat
  else do
    inject taken
    return none

def scanPlainWithin (taken : List Char) : ℕ → Limited SyntaxError (Option Float)
  | 0 => exhausted
  | n + 1 => do
    match ← peek with
    | none => ending taken
    | some x =>
      if continues taken x then do
        let _ ← pop
        scanPlainWithin (taken ++ [x]) n
      else if x = '.' then throw .multipleDecimalPoints
      else ending taken

def readPlainWithin (n : ℕ) : Limited SyntaxError (Option Float) := do
  skipBlanks n
  scanPlainWithin [] n

def scanScientificWithin (taken : List Char) : ℕ → Limited SyntaxError (Option Float)
  | 0 => exhausted
  | n + 1 => do
    match ← peek with
    | none => ending taken
    | some x =>
      if continues taken x then do
        let _ ← pop
        scanScientificWithin (taken ++ [x]) n
      else if x = '.' then throw .multipleDecimalPoints
      else if isMark x && !taken.isEmpty then do
        let _ ← pop
        match ← readPlainWithin n with
        | some power => return (Decimal.readPlain? (withUnit taken)).map fun m =>
            m.toFloat * Float.pow 10 power
        | none => scanScientificWithin (withUnit taken) n
      else ending taken

def readNumberWithin (exponent : Bool) (n : ℕ) : Limited SyntaxError (Option Float) :=
  if exponent then do
    skipBlanks n
    scanScientificWithin [] n
  else readPlainWithin n

def readWordWithin (expected : Bool) : Limited SyntaxError (Option Bool) := do
  let found ← take (word expected).length
  if found = word expected then return some expected
  else throw (.invalidBooleanLiteral expected (String.ofList found))

def readBooleanWithin (n : ℕ) : Limited SyntaxError (Option Bool) := do
  skipBlanks n
  let next ← peek
  if next = some 't' then readWordWithin true
  else if next = some 'f' then readWordWithin false
  else return none

def readValueWithin (n : ℕ) : Limited SyntaxError (Option Literal) := do
  skipBlanks n
  match ← peek with
  | none => return none
  | some x =>
    if x = '\'' || x = '"' then do
      let s ← readStringWithin n
      return s.map string
    else if x.isDigit || x = '+' || x = '-' then do
      let m ← readNumberWithin true n
      return m.map number
    else if x = 't' || x = 'f' then do
      let b ← readBooleanWithin n
      return b.map boolean
    else return none

variable {c : Cursor} {n : ℕ}

theorem reaches_content (quote : Char) (escaped : Bool) (hn : c.size < n) :
    Reaches (contentWithin quote escaped n) c
      (.ok (content quote escaped c).1, (content quote escaped c).2) := by
  induction n generalizing c escaped with
  | zero => exact absurd hn (Nat.not_lt_zero _)
  | succ n ih =>
    rw [contentWithin]
    refine .pop_bind ?_
    rcases hx : c.peek with _ | x
    · rw [content_of_peek_none hx]
      exact reaches_pure none _
    · rw [content_of_peek hx]
      dsimp only
      split
      · exact reaches_pure (some []) _
      · have := size_pop_lt hx
        exact .bind (ih _ (by omega)) (reaches_pure _ _)

theorem reaches_readString (hn : c.size < n) : Reaches (readStringWithin n) c (readString c) := by
  have hblanks := size_skipBlanks_le c
  unfold readStringWithin readString
  refine .bind (reaches_skipBlanks hn) (.peek_bind ?_)
  dsimp only
  rcases hx : c.skipBlanks.peek with _ | quote
  · exact reaches_pure none _
  · dsimp only
    split
    · have hpop := size_pop_lt hx
      have hcontent := reaches_content quote false (c := c.skipBlanks.pop.2) (n := n) (by omega)
      refine .pop_bind ?_
      rcases hc : content quote false c.skipBlanks.pop.2 with ⟨_ | body, d⟩ <;> rw [hc] at hcontent
      · exact .bind hcontent (reaches_throw _ d)
      · exact .bind hcontent (reaches_pure _ d)
    · exact reaches_pure none _

theorem reaches_ending (taken : List Char) (c : Cursor) :
    Reaches (ending taken) c (settle taken c) := by
  unfold ending settle
  split
  · exact reaches_pure _ c
  · rfl

theorem reaches_scanPlain {taken : List Char} (hn : c.size < n) :
    Reaches (scanPlainWithin taken n) c (scanPlain taken c) := by
  induction n generalizing c taken with
  | zero => exact absurd hn (Nat.not_lt_zero _)
  | succ n ih =>
    rw [scanPlainWithin]
    refine .peek_bind ?_
    rcases hx : c.peek with _ | x
    · rw [scanPlain_of_peek_none hx]
      exact reaches_ending taken c
    · have := size_pop_lt hx
      rw [scanPlain_of_peek hx]
      dsimp only
      split
      · exact .pop_bind (ih (by omega))
      split
      · exact reaches_throw _ c
      · exact reaches_ending taken c

theorem reaches_readPlain (hn : c.size < n) : Reaches (readPlainWithin n) c (readPlain c) :=
  .bind (reaches_skipBlanks hn) (reaches_scanPlain (Nat.lt_of_le_of_lt (size_skipBlanks_le c) hn))

theorem reaches_scanScientific {taken : List Char} (hn : c.size < n) :
    Reaches (scanScientificWithin taken n) c (scanScientific taken c) := by
  induction n generalizing c taken with
  | zero => exact absurd hn (Nat.not_lt_zero _)
  | succ n ih =>
    rw [scanScientificWithin]
    refine .peek_bind ?_
    rcases hx : c.peek with _ | x
    · rw [scanScientific_of_peek_none hx]
      exact reaches_ending taken c
    · have hpop := size_pop_lt hx
      rw [scanScientific_of_peek hx]
      dsimp only
      split
      · exact .pop_bind (ih (by omega))
      split
      · exact reaches_throw _ c
      split
      · -- The exponent leaves no more than stood behind the mark, so the loop may go on.
        have hle := size_readPlain_le c.pop.2
        have hread := reaches_readPlain (c := c.pop.2) (n := n) (by omega)
        refine .pop_bind ?_
        rcases hp : readPlain c.pop.2 with ⟨_ | _ | power, d⟩ <;>
          rw [hp] at hle hread <;> dsimp only at hle
        · exact hread.bind_error
        · exact .bind hread (ih (by omega))
        · exact .bind hread (reaches_pure _ d)
      · exact reaches_ending taken c

theorem reaches_readNumber (exponent : Bool) (hn : c.size < n) :
    Reaches (readNumberWithin exponent n) c (readNumber exponent c) := by
  unfold readNumberWithin readNumber
  split
  · exact .bind (reaches_skipBlanks hn)
      (reaches_scanScientific (Nat.lt_of_le_of_lt (size_skipBlanks_le c) hn))
  · exact reaches_readPlain hn

theorem reaches_readWord (expected : Bool) (c : Cursor) :
    Reaches (readWordWithin expected) c (readWord expected c) := by
  unfold readWordWithin readWord
  refine .bind (reaches_take _ c) ?_
  dsimp only
  split
  · exact reaches_pure _ _
  · exact reaches_throw _ _

theorem readBoolean_eq_ite (c : Cursor) : readBoolean c =
    if c.skipBlanks.peek = some 't' then readWord true c.skipBlanks
    else if c.skipBlanks.peek = some 'f' then readWord false c.skipBlanks
    else (.ok none, c.skipBlanks) := by
  unfold readBoolean
  dsimp only
  split
  · rename_i ht
    rw [if_pos ht]
  · rename_i hf
    rw [hf, if_neg (by decide), if_pos rfl]
  · rename_i ht hf
    rw [if_neg ht, if_neg hf]

theorem reaches_readBoolean (hn : c.size < n) : Reaches (readBooleanWithin n) c (readBoolean c) := by
  rw [readBooleanWithin, readBoolean_eq_ite]
  refine .bind (reaches_skipBlanks hn) (.peek_bind ?_)
  split
  · exact reaches_readWord true _
  split
  · exact reaches_readWord false _
  · exact reaches_pure none _

theorem reaches_readValue (hn : c.size < n) : Reaches (readValueWithin n) c (readValue c) := by
  have hn' := Nat.lt_of_le_of_lt (size_skipBlanks_le c) hn
  unfold readValueWithin readValue
  refine .bind (reaches_skipBlanks hn) (.peek_bind ?_)
  dsimp only
  rcases c.skipBlanks.peek with _ | x
  · exact reaches_pure none _
  · dsimp only
    split
    · exact (reaches_readString hn').map (Option.map string)
    split
    · exact (reaches_readNumber true hn').map (Option.map number)
    split
    · exact (reaches_readBoolean hn').map (Option.map boolean)
    · exact reaches_pure none _

/-- How many characters a number has yet to take that has begun with `taken`. -/
def owed (taken : List Char) : ℕ :=
  if taken.any Char.isDigit then 0 else 1

theorem owed_le (taken : List Char) : owed taken ≤ 1 := by
  unfold owed
  split <;> omega

theorem length_settle {taken : List Char} {v : Float} (h : (settle taken c).1 = .ok (some v)) :
    (settle taken c).2.remaining.length + owed taken ≤ c.remaining.length := by
  unfold settle owed at *
  split at h
  · rename_i hdigit
    rw [if_pos hdigit, if_pos hdigit]
    exact Nat.le_refl _
  · cases h

theorem length_readPlain_le (c : Cursor) : (readPlain c).2.remaining.length ≤ c.remaining.length :=
  (subperm_readPlain c).length_le

theorem length_scanPlain {taken : List Char} {v : Float} (h : (scanPlain taken c).1 = .ok (some v)) :
    (scanPlain taken c).2.remaining.length + owed taken ≤ c.remaining.length := by
  fun_induction scanPlain taken c with
  | case1 => exact length_settle h
  | case2 taken c x hx _ ih =>
    have := length_pop_lt hx
    have := ih h
    have := owed_le taken
    omega
  | case3 => cases h
  | case4 => exact length_settle h

theorem length_scanScientific {taken : List Char} {v : Float}
    (h : (scanScientific taken c).1 = .ok (some v)) :
    (scanScientific taken c).2.remaining.length + owed taken ≤ c.remaining.length := by
  fun_induction scanScientific taken c with
  | case1 => exact length_settle h
  | case2 taken c x hx _ ih =>
    have := length_pop_lt hx
    have := ih h
    have := owed_le taken
    omega
  | case3 => cases h
  | case4 => cases h
  | case5 taken c x hx _ _ _ taken' after =>
    have := length_pop_lt hx
    have : after.2.remaining.length ≤ _ := length_readPlain_le c.pop.2
    have := owed_le taken
    dsimp only
    omega
  | case6 taken c x hx _ _ _ taken' after _ ih =>
    have := length_pop_lt hx
    have : after.2.remaining.length ≤ _ := length_readPlain_le c.pop.2
    have := ih h
    have := owed_le taken
    omega
  | case7 => exact length_settle h

theorem consumes_readNumber (exponent : Bool) (c : Cursor) :
    Consumes c Option.isSome (readNumber exponent c) := by
  refine ⟨(subperm_readNumber exponent c).length_le, fun a ha hk => ?_⟩
  obtain ⟨v, rfl⟩ := Option.isSome_iff_exists.1 hk
  have hblanks := c.skipBlanks_suffix.length_le
  unfold readNumber at *
  split at ha
  · rename_i he
    have hlt := length_scanScientific ha
    rw [if_pos he]
    exact Nat.lt_of_lt_of_le (Nat.lt_of_succ_le hlt) hblanks
  · rename_i he
    have hlt := length_scanPlain (c := c.skipBlanks) ha
    rw [if_neg he]
    exact Nat.lt_of_lt_of_le (Nat.lt_of_succ_le hlt) hblanks

theorem length_content_le (quote : Char) (escaped : Bool) (c : Cursor) :
    (content quote escaped c).2.remaining.length ≤ c.remaining.length := by
  fun_induction content quote escaped c with
  | case1 => exact (pop_suffix _).length_le
  | case2 => exact (pop_suffix _).length_le
  | case3 escaped c x _ _ body rest heq ih =>
    rw [heq] at ih
    exact Nat.le_trans ih c.pop_suffix.length_le

theorem consumes_readString (c : Cursor) : Consumes c Option.isSome (readString c) := by
  have hblanks := c.skipBlanks_suffix.length_le
  unfold readString
  dsimp only
  rcases hx : c.skipBlanks.peek with _ | quote
  · exact .none hblanks
  · dsimp only
    split
    · have hlt : (content quote false c.skipBlanks.pop.2).2.remaining.length < c.remaining.length :=
        calc _ ≤ c.skipBlanks.pop.2.remaining.length := length_content_le quote false _
          _ < c.skipBlanks.remaining.length := length_pop_lt hx
          _ ≤ c.remaining.length := hblanks
      rcases hc : content quote false c.skipBlanks.pop.2 with ⟨_ | body, d⟩ <;> rw [hc] at hlt
      · exact .error (Nat.le_of_lt hlt) _
      · exact .ok (Nat.le_of_lt hlt) fun _ => hlt
    · exact .none hblanks

theorem consumes_readWord (expected : Bool) (c : Cursor) :
    Consumes c Option.isSome (readWord expected c) := by
  have htake := length_take (word expected).length c
  unfold readWord
  dsimp only
  split
  · rename_i hword
    have hlen : 0 < (word expected).length := by cases expected <;> decide
    rw [hword] at htake
    exact .ok (by omega) fun _ => by omega
  · exact .error (by omega) _

theorem consumes_readBoolean (c : Cursor) : Consumes c Option.isSome (readBoolean c) := by
  have hblanks := c.skipBlanks_suffix.length_le
  unfold readBoolean
  dsimp only
  split
  · exact (consumes_readWord true _).of_le hblanks
  · exact (consumes_readWord false _).of_le hblanks
  · exact .none hblanks

theorem consumes_readValue (c : Cursor) : Consumes c Option.isSome (readValue c) := by
  have hblanks := c.skipBlanks_suffix.length_le
  unfold readValue
  dsimp only
  split
  · exact .none hblanks
  · split
    · exact (consumes_readString _).mapSome.of_le hblanks
    split
    · exact (consumes_readNumber true _).mapSome.of_le hblanks
    split
    · exact (consumes_readBoolean _).mapSome.of_le hblanks
    · exact .none hblanks

end Literal

end Reckoner
