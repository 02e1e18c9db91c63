import Reckoner.Proofs.Cursor.Outcomes
import Reckoner.Proofs.Cursor.Remaining

/-!
# Rules with a limit

A rule as it runs is loops and calls over a cursor that looks at a character, passes it or takes text
back, and nothing in this form says that it comes to an end. Here each loop and each call is given a
limit on how deep turns may nest, and gives nothing where that does not suffice (`Limited`). A rule
that a step describes is found to return what the step gives, part by part: each way of going on after
a step is one of going on after a rule (`Reaches.andThen`, `reaches_onPeek`, `reaches_onNext`).
-/

namespace Reckoner

/-- A rule that gives its result and the cursor that it leaves, or nothing where its limit does not
suffice. -/
abbrev Limited (ε α : Type) : Type :=
  ExceptT ε (StateT Cursor Option) α

namespace Limited

variable {ε α β : Type}

/-- The limit does not suffice. -/
def exhausted : Limited ε α :=
  fun _ => none

/-- The current character, which stays. -/
def peek : Limited ε (Option Char) :=
  fun c => some (.ok c.peek, c)

/-- The current character, which is passed. -/
def pop : Limited ε (Option Char) :=
  fun c => some (.ok c.pop.1, c.pop.2)

/-- Hands text back. -/
def inject (cs : List Char) : Limited ε Unit :=
  fun c => some (.ok (), c.inject cs)

/-- Passes the characters up to the first that fails the test. -/
def takeWhile (test : Char → Bool) : ℕ → Limited ε (List Char)
  | 0 => exhausted
  | n + 1 => do
    match ← peek with
    | none => return []
    | some x =>
      if test x then do
        let _ ← pop
        let xs ← takeWhile test n
        return x :: xs
      else return []

/-- Passes at most `k` characters. -/
def take : ℕ → Limited ε (List Char)
  | 0 => return []
  | k + 1 => do
    match ← pop with
    | none => return []
    | some x =>
      let xs ← take k
      return x :: xs

/-- Passes blanks. -/
def skipBlanks (n : ℕ) : Limited ε Unit := do
  let _ ← takeWhile Text.isBlank n
  return ()

/-- Passes blanks, and `x` if that is the next character: says whether it was. -/
def isNext (x : Char) (n : ℕ) : Limited ε Bool := do
  skipBlanks n
  let next ← peek
  if next = some x then do
    let _ ← pop
    return true
  else return false

/-- Passes blanks and `x`, which must be there. -/
def require (x : Char) (e : ε) (n : ℕ) : Limited ε Unit := do
  if ← isNext x n then return () else throw e

/-- Passes a name, if one starts here. -/
def name (n : ℕ) : Limited ε (Option String) := do
  let next ← peek
  if next.any Cursor.isNameStart then do
    let cs ← takeWhile Cursor.isNameRest n
    return some (String.ofList cs)
  else return none

/-- From `c`, the rule comes to the reading `r`. -/
def Reaches (p : Limited ε α) (c : Cursor) (r : Except ε α × Cursor) : Prop :=
  p.run.run c = some r

variable {p : Limited ε α} {f : α → Limited ε β} {c d : Cursor} {a : α} {n : ℕ}

theorem reaches_pure (a : α) (c : Cursor) : Reaches (pure a : Limited ε α) c (.ok a, c) :=
  rfl

theorem reaches_throw (e : ε) (c : Cursor) : Reaches (throw e : Limited ε α) c (.error e, c) :=
  rfl

theorem Reaches.bind {r : Except ε β × Cursor} (hp : Reaches p c (.ok a, d)) (hf : Reaches (f a) d r) :
    Reaches (p >>= f) c r := by
  unfold Reaches at *
  rw [ExceptT.run_bind, StateT.run_bind, hp]
  exact hf

theorem Reaches.bind_error {e : ε} (hp : Reaches p c (.error e, d)) :
    Reaches (p >>= f) c (.error e, d) := by
  unfold Reaches at *
  rw [ExceptT.run_bind, StateT.run_bind, hp]
  rfl

/-- A result may be changed afterwards. -/
theorem Reaches.map {r : Except ε α × Cursor} (hp : Reaches p c r) (g : α → β) :
    Reaches (p >>= fun a => pure (g a)) c (r.1.map g, r.2) := by
  rcases r with ⟨_ | a, d⟩
  · exact hp.bind_error
  · exact hp.bind (reaches_pure (g a) d)

theorem Reaches.adapt {ε' : Type} {r : Except ε α × Cursor} (hp : Reaches p c r) (f : ε → ε') :
    Reaches (ExceptT.adapt f p) c (r.1.mapError f, r.2) := by
  unfold Reaches at *
  rw [ExceptT.run_adapt, StateT.run_map]
  exact congrArg (Option.map _) hp

theorem reaches_ofExcept (r : Except ε α) (c : Cursor) :
    Reaches (MonadExcept.ofExcept r) c (r, c) := by
  cases r <;> rfl

theorem Reaches.peek_bind {k : Option Char → Limited ε β} {r : Except ε β × Cursor}
    (h : Reaches (k c.peek) c r) : Reaches (peek >>= k) c r :=
  Reaches.bind (p := peek) rfl h

theorem Reaches.pop_bind {k : Option Char → Limited ε β} {r : Except ε β × Cursor}
    (h : Reaches (k c.peek) c.pop.2 r) : Reaches (pop >>= k) c r := by
  rw [← Cursor.pop_fst] at h
  exact Reaches.bind (p := pop) rfl h

/-- A run needs one turn for each character, and one more to find its end. -/
theorem reaches_takeWhile (test : Char → Bool) (hn : c.size < n) :
    Reaches (takeWhile test n : Limited ε (List Char)) c
      (.ok (c.takeWhile test).1, (c.takeWhile test).2) := by
  induction n generalizing c with
  | zero => exact absurd hn (Nat.not_lt_zero _)
  | succ n ih =>
    rw [takeWhile]
    refine .peek_bind ?_
    rcases hx : c.peek with _ | x
    · rw [Cursor.takeWhile_of_peek_none hx]
      exact reaches_pure [] c
    · by_cases ht : test x = true
      · have hlt := Cursor.size_pop_lt hx
        rw [Cursor.takeWhile_of_pos hx ht]
        simp only [if_pos ht]
        exact .pop_bind (.bind (ih (by omega)) (reaches_pure _ _))
      · rw [Cursor.takeWhile_of_neg hx ht]
        simp only [if_neg ht]
        exact reaches_pure [] c

theorem reaches_take (k : ℕ) (c : Cursor) :
    Reaches (take k : Limited ε (List Char)) c (.ok (c.take k).1, (c.take k).2) := by
  induction k generalizing c with
  | zero => exact reaches_pure [] c
  | succ k ih =>
    rw [take]
    refine .pop_bind ?_
    rcases hx : c.peek with _ | x
    · rw [Cursor.take_of_peek_none hx]
      exact reaches_pure [] c.pop.2
    · rw [Cursor.take_of_peek hx]
      exact .bind (ih c.pop.2) (reaches_pure _ _)

theorem reaches_skipBlanks (hn : c.size < n) :
    Reaches (skipBlanks n : Limited ε Unit) c (.ok (), c.skipBlanks) :=
  .bind (reaches_takeWhile Text.isBlank hn) (reaches_pure () _)

theorem reaches_isNext (x : Char) (hn : c.size < n) :
    Reaches (isNext x n : Limited ε Bool) c (.ok (c.isNext x).1, (c.isNext x).2) := by
  rw [isNext]
  refine .bind (reaches_skipBlanks hn) (.peek_bind ?_)
  rw [Cursor.isNext]
  split
  · exact .pop_bind (reaches_pure true _)
  · exact reaches_pure false _

theorem reaches_name (hn : c.size < n) :
    Reaches (name n : Limited ε (Option String)) c (Step.name c).pair := by
  change Reaches (name n) c (.ok c.name.1, c.name.2)
  rw [name, Cursor.name]
  refine .peek_bind ?_
  split
  · exact .bind (reaches_takeWhile Cursor.isNameRest hn) (reaches_pure _ _)
  · exact reaches_pure none c

section Steps

variable {s : Step ε α c} {g : α → (d : Cursor) → d.size ≤ c.size → Step ε β d}

/-- Going on after a rule is going on after the step that it comes to. -/
theorem Reaches.andThen (hp : Reaches p c s.pair)
    (hf : ∀ a d hd, Reaches (f a) d (g a d hd).pair) : Reaches (p >>= f) c (s.andThen g).pair := by
  rcases s with ⟨_ | a, d, hd⟩
  · exact hp.bind_error
  · exact hp.bind (hf a d hd)

theorem reaches_afterBlanks {p : Limited ε α} {next : (d : Cursor) → d.size ≤ c.size → Step ε α d}
    (hn : c.size < n) (hp : ∀ d hd, Reaches p d (next d hd).pair) :
    Reaches (skipBlanks n >>= fun _ => p) c (Step.afterBlanks c next).pair :=
  .bind (reaches_skipBlanks hn) (hp _ _)

theorem reaches_onPeek {k : Option Char → Limited ε α} {ended : Step ε α c}
    {next : (x : Char) → (d : Cursor) → d.size < c.size → Step ε α c}
    (hended : Reaches (k none) c ended.pair)
    (hnext : ∀ x hlt, Reaches (k (some x)) c (next x c.pop.2 hlt).pair) :
    Reaches (peek >>= k) c (Step.onPeek c ended next).pair := by
  refine .peek_bind ?_
  rcases hx : c.peek with _ | x
  · rw [Step.pair_onPeek_none hx]
    exact hended
  · rw [Step.pair_onPeek_some hx rfl (Cursor.size_pop_lt hx)]
    exact hnext x _

variable {x : Char} {q : Limited ε α} {found : (d : Cursor) → d.size < c.size → Step ε α d}
  {missing : (d : Cursor) → d.size ≤ c.size → Step ε α d} {p : Limited ε α}

theorem reaches_onNext (hn : c.size < n) (hfound : ∀ d hd, Reaches p d (found d hd).pair)
    (hmissing : ∀ d hd, Reaches q d (missing d hd).pair) :
    Reaches (isNext x n >>= fun b => if b = true then p else q) c
      (Step.onNext x c found missing).pair := by
  refine .bind (reaches_isNext x hn) ?_
  rw [Step.onNext]
  split
  · exact hfound _ _
  · exact hmissing _ _

theorem reaches_require {e : ε} (hn : c.size < n) (hfound : ∀ d hd, Reaches p d (found d hd).pair) :
    Reaches (require x e n >>= fun _ => p) c (Step.require x c e found).pair := by
  have hnext := reaches_isNext (ε := ε) x hn
  rw [Step.require, Step.onNext]
  split
  · rename_i h
    rw [h] at hnext
    exact .bind (.bind hnext (reaches_pure () _)) (hfound _ _)
  · rename_i h
    rw [Bool.not_eq_true] at h
    rw [h] at hnext
    exact .bind_error (.bind hnext (reaches_throw e _))

end Steps

end Limited

end Reckoner
