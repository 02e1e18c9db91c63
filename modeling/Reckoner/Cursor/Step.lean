import Reckoner.Cursor.Name

/-!
# Steps

A rule of a grammar gives a result, or refuses its input, and leaves a cursor with no more to read
than there was. A step carries this bound with it, and the ways of going on after a step hand it to
whatever comes next, so a grammar whose rules call each other can end by the size of what remains.
-/

namespace Reckoner

/-- What a rule gives at `c`: its result, and the cursor it leaves. -/
structure Step (ε α : Type) (c : Cursor) where
  result : Except ε α
  rest : Cursor
  size_le : rest.size ≤ c.size

namespace Step

variable {ε α β : Type} {c d : Cursor}

/-- Result and remaining cursor. -/
def pair (s : Step ε α c) : Except ε α × Cursor :=
  (s.result, s.rest)

/-- Gives `a` and reads nothing. -/
def done (a : α) (c : Cursor) : Step ε α c :=
  ⟨.ok a, c, Nat.le_refl _⟩

/-- Refuses the input and reads nothing. -/
def fail (e : ε) (c : Cursor) : Step ε α c :=
  ⟨.error e, c, Nat.le_refl _⟩

/-- What has been read already, as a step. -/
def ofPair (r : Except ε α × Cursor) (h : r.2.size ≤ c.size) : Step ε α c :=
  ⟨r.1, r.2, h⟩

/-- The step as one from a cursor with at least as much to read. -/
def within (s : Step ε α c) (h : c.size ≤ d.size) : Step ε α d :=
  ⟨s.result, s.rest, Nat.le_trans s.size_le h⟩

/-- The step as one from a cursor with more to read. -/
def beyond (s : Step ε α c) (h : c.size < d.size) : Step ε α d :=
  s.within (Nat.le_of_lt h)

/-- Changes the result. -/
def map (f : α → β) (s : Step ε α c) : Step ε β c :=
  ⟨s.result.map f, s.rest, s.size_le⟩

/-- Goes on after a result. -/
def andThen (s : Step ε α c) (f : α → (d : Cursor) → d.size ≤ c.size → Step ε β d) :
    Step ε β c :=
  match s with
  | ⟨.ok a, d, h⟩ => (f a d h).within h
  | ⟨.error e, d, h⟩ => ⟨.error e, d, h⟩

/-- Moves past blanks first. -/
def afterBlanks (c : Cursor) (f : (d : Cursor) → d.size ≤ c.size → Step ε α d) : Step ε α c :=
  (f c.skipBlanks (Cursor.size_skipBlanks_le c)).within (Cursor.size_skipBlanks_le c)

/-- Looks at the current character. If there is one, the cursor past it is shorter. -/
def onPeek (c : Cursor) (ended : Step ε α c)
    (f : (x : Char) → (d : Cursor) → d.size < c.size → Step ε α c) : Step ε α c :=
  match h : c.peek with
  | none => ended
  | some x => f x c.pop.2 (Cursor.size_pop_lt h)

/-- Moves past blanks, and past `x` if it is there; goes on by whether it was. -/
def onNext (x : Char) (c : Cursor) (found : (d : Cursor) → d.size < c.size → Step ε α d)
    (missing : (d : Cursor) → d.size ≤ c.size → Step ε α d) : Step ε α c :=
  if h : (c.isNext x).1 then
    (found (c.isNext x).2 (Cursor.size_isNext_lt h)).beyond (Cursor.size_isNext_lt h)
  else (missing (c.isNext x).2 (Cursor.size_isNext_le x c)).within (Cursor.size_isNext_le x c)

/-- Moves past blanks and past `x`, which must be there. -/
def require (x : Char) (c : Cursor) (e : ε) (f : (d : Cursor) → d.size < c.size → Step ε α d) :
    Step ε α c :=
  onNext x c f fun d _ => fail e d

/-- Reads a name, if one starts here. -/
def name (c : Cursor) : Step ε (Option String) c :=
  ⟨.ok c.name.1, c.name.2, Cursor.size_name_le c⟩

@[simp] theorem pair_done (a : α) : (done a c : Step ε α c).pair = (.ok a, c) := rfl

@[simp] theorem pair_fail (e : ε) : (fail e c : Step ε α c).pair = (.error e, c) := rfl

@[simp] theorem pair_within (s : Step ε α c) (h : c.size ≤ d.size) :
    (s.within h).pair = s.pair := rfl

@[simp] theorem pair_beyond (s : Step ε α c) (h : c.size < d.size) :
    (s.beyond h).pair = s.pair := rfl

@[simp] theorem pair_map (f : α → β) (s : Step ε α c) :
    (s.map f).pair = (s.pair.1.map f, s.pair.2) := rfl

theorem pair_andThen_of_ok {s : Step ε α c} {a : α}
    {f : α → (d : Cursor) → d.size ≤ c.size → Step ε β d} (h : s.result = .ok a) :
    (s.andThen f).pair = (f a s.rest s.size_le).pair := by
  rcases s with ⟨_, d, hd⟩
  cases h
  rfl

theorem pair_andThen_of_error {s : Step ε α c} {e : ε}
    {f : α → (d : Cursor) → d.size ≤ c.size → Step ε β d} (h : s.result = .error e) :
    (s.andThen f).pair = (.error e, s.rest) := by
  rcases s with ⟨_, d, hd⟩
  cases h
  rfl

end Step

end Reckoner
