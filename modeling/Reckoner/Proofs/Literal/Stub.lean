import Reckoner.Proofs.Cursor.Outcomes
import Reckoner.Proofs.Cursor.Remaining
import Reckoner.Proofs.Literal.Word

/-!
# What the number rule hands back

The number rule hands back what it has taken if no digit is in it, which is at most a sign and a
point (`isStub`). The cursor is over the same text then, the front of which waits in its queue
(`Cursor.Over`). Looking for a character and taking a name or a number make no difference between
that and a list, and no name or number begins with what was handed back.
-/

namespace Reckoner

open Text Cursor

/-- A sign, a point, or a sign and a point. -/
def isStub (cs : List Char) : Bool :=
  cs ∈ [['+'], ['-'], ['.'], ['+', '.'], ['-', '.']]

theorem eq_of_isStub {cs : List Char} (h : isStub cs = true) :
    cs = ['+'] ∨ cs = ['-'] ∨ cs = ['.'] ∨ cs = ['+', '.'] ∨ cs = ['-', '.'] := by
  simpa [isStub] using h

theorem eq_cons_of_isStub {cs : List Char} (h : isStub cs = true) :
    ∃ x xs, cs = x :: xs ∧ (isSign x || inNumeral x) = true ∧ isBlank x = false ∧
      isNameStart x = false ∧ (xs = [] ∨ isStub xs = true) := by
  rcases eq_of_isStub h with rfl | rfl | rfl | rfl | rfl <;>
    exact ⟨_, _, rfl, rfl, rfl, rfl, by decide⟩

/-- A front with neither a digit nor two points is no more than a stub. -/
theorem isStub_numeralFront {cs : List Char} (hp : (numeralFront cs).count '.' ≤ 1)
    (hd : (numeralFront cs).any Char.isDigit = false) :
    numeralFront cs = [] ∨ isStub (numeralFront cs) = true := by
  -- Digits and points without a digit are points.
  have hpoints : ∀ front : List Char, (∀ x ∈ front, inNumeral x = true) → front.count '.' ≤ 1 →
      front.any Char.isDigit = false → front = [] ∨ front = ['.'] := by
    intro front hall hp hd
    have hrep : front = List.replicate front.length '.' := by
      refine List.eq_replicate_iff.2 ⟨rfl, fun x hx => ?_⟩
      have hdigit : x.isDigit = false := by
        rw [List.any_eq_false] at hd
        simpa using hd x hx
      simpa [inNumeral, hdigit] using hall x hx
    rw [hrep, List.count_replicate_self] at hp
    rcases Nat.le_one_iff_eq_zero_or_eq_one.1 hp with hl | hl
    · exact .inl (List.length_eq_zero_iff.1 hl)
    · exact .inr (by rw [hrep, hl]; rfl)
  cases cs with
  | nil => exact .inl rfl
  | cons x cs =>
    rw [numeralFront] at hp hd ⊢
    split at hp
    · rename_i hx
      rw [if_pos hx] at hd ⊢
      have hall : ∀ y ∈ cs.takeWhile inNumeral, inNumeral y = true :=
        fun _ hy => List.mem_takeWhile_imp hy
      obtain ⟨hdx, hdcs⟩ := Bool.or_eq_false_iff.1 (List.any_cons ▸ hd)
      have hpcs := Nat.le_trans (List.Sublist.count_le '.' (List.sublist_cons_self x _)) hp
      right
      by_cases hs : isSign x = true
      · simp only [isSign, Bool.or_eq_true, decide_eq_true_eq] at hs
        rcases hpoints _ hall hpcs hdcs with h | h <;> rcases hs with rfl | rfl <;> rw [h] <;> rfl
      · have hx' : inNumeral x = true := by simpa [hs] using hx
        rcases hpoints (x :: _) (List.forall_mem_cons.2 ⟨hx', hall⟩) hp hd with h | h
        · cases h
        · rw [h]
          rfl
    · rename_i hx
      rw [if_neg hx]
      exact .inl rfl

theorem not_startsNumeral_of_numeralFront {cs : List Char} (h : numeralFront cs = []) :
    ∀ x ∈ cs.head?, (isSign x || inNumeral x) = false := by
  cases cs with
  | nil => simp
  | cons x cs =>
    rw [numeralFront] at h
    split at h
    · cases h
    · rename_i hx
      simpa using hx

/-- What follows the longest front of a numeral cannot go on with it. -/
theorem inNumeral_numeralRest {cs : List Char} (h : numeralFront cs ≠ []) :
    ∀ x ∈ (numeralRest cs).head?, inNumeral x = false := by
  cases cs with
  | nil => exact absurd rfl h
  | cons x cs =>
    rw [numeralFront] at h
    rw [numeralRest]
    split at h
    · rename_i hx
      rw [if_pos hx]
      exact of_mem_head?_dropWhile
    · exact absurd rfl h

namespace Cursor

/-- The cursor is over `cs`, of which the number rule may have handed back the front. -/
inductive Over : Cursor → List Char → Prop
  | list (cs : List Char) : Over (ofList cs) cs
  | stub {stub rest : List Char} : isStub stub = true → (∀ x ∈ rest.head?, inNumeral x = false) →
    Over ((ofList rest).inject stub) (stub ++ rest)

variable {c d : Cursor} {cs : List Char} {x : Char}

theorem queue_inject (rest stub : List Char) : ((ofList rest).inject stub).queue = stub := by
  rw [inject, queue_ofList, List.nil_append]

theorem inject_nil (rest : List Char) : (ofList rest).inject [] = ofList rest := by
  rw [inject, List.append_nil]

theorem peek_inject (rest stub : List Char) (x : Char) :
    ((ofList rest).inject (x :: stub)).peek = some x := by
  rw [peek, queue_inject]
  rfl

theorem pop_inject (rest stub : List Char) (x : Char) :
    ((ofList rest).inject (x :: stub)).pop = (some x, (ofList rest).inject stub) := by
  simp [inject, pop, queue_ofList]

theorem skipBlanks_stub {stub : List Char} (h : isStub stub = true) (rest : List Char) :
    ((ofList rest).inject stub).skipBlanks = (ofList rest).inject stub := by
  obtain ⟨x, xs, rfl, -, hx, -⟩ := eq_cons_of_isStub h
  rw [skipBlanks, takeWhile, peek_inject]
  simp [hx]

theorem Over.peek (h : c.Over cs) : c.peek = cs.head? := by
  cases h with
  | list => exact peek_ofList cs
  | stub hs _ =>
    obtain ⟨x, xs, rfl, -⟩ := eq_cons_of_isStub hs
    exact peek_inject ..

theorem Over.pop (h : c.Over cs) : c.pop.2.Over cs.tail := by
  cases h with
  | list =>
    rw [pop_ofList]
    exact .list _
  | stub hs hrest =>
    obtain ⟨x, xs, rfl, -, -, -, rfl | hxs⟩ := eq_cons_of_isStub hs
    · rw [pop_inject, inject_nil]
      exact .list _
    · rw [pop_inject]
      exact .stub hxs hrest

theorem Over.remaining (h : c.Over cs) : c.remaining = cs := by
  cases h with
  | list => exact remaining_ofList cs
  | @stub stub rest _ _ =>
    have := remaining_ofList rest
    rw [Cursor.remaining, queue_ofList, List.nil_append] at this
    rw [Cursor.remaining, queue_inject, List.append_assoc]
    exact congrArg (stub ++ ·) this

theorem Over.skipBlanks (h : c.Over cs) : c.skipBlanks.Over (cs.dropWhile isBlank) := by
  cases h with
  | list =>
    rw [skipBlanks_ofList]
    exact .list _
  | stub hs hrest =>
    rw [skipBlanks_stub hs]
    obtain ⟨x, xs, rfl, -, hx, -⟩ := eq_cons_of_isStub hs
    rw [List.cons_append, dropWhile_isBlank_cons hx]
    exact .stub hs hrest

/-- Where nothing comes after blanks, there are only blanks. -/
theorem Over.blanks_of_peek (h : c.Over cs) (hp : c.skipBlanks.peek = none) : Blanks cs := by
  rw [h.skipBlanks.peek, List.head?_eq_none_iff, List.dropWhile_eq_nil_iff] at hp
  exact hp

/-- A name does not begin with what was handed back. -/
theorem name_stub {stub : List Char} (h : isStub stub = true) (rest : List Char) :
    ((ofList rest).inject stub).name = (none, (ofList rest).inject stub) := by
  obtain ⟨x, xs, rfl, -, -, hx, -⟩ := eq_cons_of_isStub h
  rw [name, peek_inject, Option.any_some, hx]
  rfl

theorem Over.exists_word (h : c.Over cs) {n : String} (hn : c.name = (some n, d)) :
    ∃ w : Word, ∃ post, cs = w.chars ++ post ∧ d = ofList post ∧ n = w.text := by
  cases h with
  | list => exact Grammar.exists_word_of_name hn
  | stub hs hrest =>
    rw [name_stub hs] at hn
    cases (Prod.mk.inj hn).1

end Cursor

namespace Literal

variable {c d : Cursor} {cs : List Char}

theorem scanPlain_inject_cons (taken rest stub : List Char) (x : Char) :
    scanPlain taken ((ofList rest).inject (x :: stub)) =
      if continues taken x then scanPlain (taken ++ [x]) ((ofList rest).inject stub)
      else if x = '.' then (.error .multipleDecimalPoints, (ofList rest).inject (x :: stub))
      else settle taken ((ofList rest).inject (x :: stub)) := by
  rw [scanPlain, peek_inject]
  simp only [pop_inject]

theorem scanPlain_end {taken rest : List Char} (ht : taken ≠ [])
    (h : ∀ x ∈ rest.head?, inNumeral x = false) :
    scanPlain taken (ofList rest) = settle taken (ofList rest) := by
  cases rest with
  | nil => exact scanPlain_ofList_nil taken
  | cons x rest =>
    have hx := h x rfl
    simp only [inNumeral, Bool.or_eq_false_iff, decide_eq_false_iff_not] at hx
    rw [scanPlain_ofList_cons, continues_of_ne_nil ht]
    simp [hx.1, hx.2]

/-- What was handed back is taken and handed back again. -/
theorem readPlain_stub {stub rest : List Char} (hs : isStub stub = true)
    (h : ∀ x ∈ rest.head?, inNumeral x = false) :
    readPlain ((ofList rest).inject stub) = (.ok none, (ofList rest).inject stub) := by
  have hscan : scanPlain [] ((ofList rest).inject stub) = settle stub (ofList rest) := by
    rcases eq_of_isStub hs with rfl | rfl | rfl | rfl | rfl <;>
      simp [scanPlain_inject_cons, continues, inject_nil, scanPlain_end _ h]
  have hdigit : stub.any Char.isDigit = false := by
    rcases eq_of_isStub hs with rfl | rfl | rfl | rfl | rfl <;> rfl
  rw [readPlain, skipBlanks_stub hs, hscan, settle, hdigit]
  rfl

/-- A sign that no digit or point follows is taken and handed back. -/
theorem readPlain_sign {x : Char} {rest : List Char} (hc : c.skipBlanks = ofList (x :: rest))
    (hx : isSign x = true) (h : ∀ y ∈ rest.head?, inNumeral y = false) :
    readPlain c = (.ok none, (ofList rest).inject [x]) := by
  have hd : x.isDigit = false := by
    simp only [isSign, Bool.or_eq_true, decide_eq_true_eq] at hx
    rcases hx with rfl | rfl <;> rfl
  rw [readPlain, hc, scanPlain_ofList_cons, if_pos (by rw [continues_nil, hx, Bool.true_or]),
    List.nil_append, scanPlain_end (by simp) h, settle]
  simp [hd]

/-- Where the rule finds no number, none can start after the blanks, or a stub that stands there was
handed back. -/
theorem cases_of_readPlain_none (h : readPlain (ofList cs) = (.ok none, d)) :
    (d = ofList (cs.dropWhile isBlank) ∧
      ∀ x ∈ (cs.dropWhile isBlank).head?, (isSign x || inNumeral x) = false)
    ∨ ∃ stub rest, cs.dropWhile isBlank = stub ++ rest ∧ isStub stub = true ∧
      (∀ x ∈ rest.head?, inNumeral x = false) ∧ d = (ofList rest).inject stub := by
  rw [readPlain, skipBlanks_ofList] at h
  have hcs := numeralFront_append_numeralRest (cs.dropWhile isBlank)
  rcases scanPlain_nil_ofList (cs.dropWhile isBlank) with ⟨hp, hs⟩ | ⟨-, hs⟩
  · rw [hs] at h
    rcases settle_numeralFront hp with ⟨n, -, hset⟩ | ⟨hd, hset⟩
    · rw [hset] at h
      cases (Prod.mk.inj h).1
    · rw [hset] at h
      obtain ⟨-, rfl⟩ := Prod.mk.inj h
      rcases isStub_numeralFront hp hd with hf | hf
      · rw [hf, List.nil_append] at hcs
        rw [hf, hcs, inject_nil]
        exact .inl ⟨rfl, fun x hx => not_startsNumeral_of_numeralFront hf x hx⟩
      · have hne : numeralFront (cs.dropWhile isBlank) ≠ [] := by
          intro h0
          rw [h0] at hf
          cases hf
        exact .inr ⟨_, _, hcs.symm, hf, inNumeral_numeralRest hne, rfl⟩
  · rw [h] at hs
    cases hs

/-- Where the rule finds no number, the cursor is over what comes after the blanks. -/
theorem over_of_readPlain_none (h : readPlain (ofList cs) = (.ok none, d)) :
    d.Over (cs.dropWhile isBlank) := by
  rcases cases_of_readPlain_none h with ⟨rfl, -⟩ | ⟨stub, rest, hcs, hs, hrest, rfl⟩
  · exact .list _
  · rw [hcs]
    exact .stub hs hrest

end Literal

namespace Cursor

variable {c d : Cursor} {cs : List Char}

/-- A number is read over a list as over what was handed back. -/
theorem Over.exists_numeral (h : c.Over cs) {k : Option Float}
    (hk : Literal.readPlain c = (.ok k, d)) :
    ∃ gap, ∃ n : Option Numeral, ∃ post, cs = gap ++ (n.elim [] Numeral.chars ++ post) ∧ Blanks gap ∧
      d.Over post ∧ k = n.map Numeral.value := by
  cases h with
  | list =>
    cases k with
    | some v =>
      obtain ⟨gap, n, post, rfl, hg, rfl, rfl⟩ := Literal.exists_numeral_of_readPlain hk
      exact ⟨gap, some n, post, List.append_assoc .., hg, .list post, rfl⟩
    | none =>
      exact ⟨_, none, _, List.takeWhile_append_dropWhile.symm, blanks_takeWhile cs,
        Literal.over_of_readPlain_none hk, rfl⟩
  | stub hs hrest =>
    rw [Literal.readPlain_stub hs hrest] at hk
    cases hk
    exact ⟨[], none, _, rfl, blanks_nil, .stub hs hrest, rfl⟩

section Steps

variable {ε α : Type} {x : Char} {p : Except ε α × Cursor}

/-- Moving past blanks parts them from the rest. -/
theorem Over.exists_of_afterBlanks (h : c.Over cs) {f : (d : Cursor) → d.size ≤ c.size → Step ε α d}
    (hp : (Step.afterBlanks c f).pair = p) :
    ∃ gap post d, cs = gap ++ post ∧ Blanks gap ∧ d.Over post ∧ ∃ hd, (f d hd).pair = p :=
  ⟨_, _, _, List.takeWhile_append_dropWhile.symm, blanks_takeWhile cs, h.skipBlanks,
    size_skipBlanks_le c, hp⟩

/-- Looking for a character finds it after blanks or stops past them. -/
theorem Over.cases_of_onNext (h : c.Over cs) {found : (d : Cursor) → d.size < c.size → Step ε α d}
    {missing : (d : Cursor) → d.size ≤ c.size → Step ε α d}
    (hp : (Step.onNext x c found missing).pair = p) :
    (∃ gap post d, cs = gap ++ x :: post ∧ Blanks gap ∧ d.Over post ∧ ∃ hd, (found d hd).pair = p)
    ∨ ∃ gap post d, cs = gap ++ post ∧ Blanks gap ∧ d.Over post ∧ ∃ hd, (missing d hd).pair = p := by
  have hcs : cs = cs.takeWhile isBlank ++ cs.dropWhile isBlank :=
    List.takeWhile_append_dropWhile.symm
  have hover := h.skipBlanks
  by_cases hx : (cs.dropWhile isBlank).head? = some x
  · obtain ⟨post, hpost⟩ := List.head?_eq_some_iff.1 hx
    have hn : c.isNext x = (true, c.skipBlanks.pop.2) := by
      rw [isNext, hover.peek, if_pos hx]
    have hlt := size_isNext_lt (x := x) (c := c) (by rw [hn])
    rw [hn] at hlt
    have hpop := hover.pop
    rw [hpost] at hcs hpop
    exact .inl ⟨_, post, _, hcs, blanks_takeWhile cs, hpop, hlt,
      (Step.pair_onNext_true hn hlt).symm.trans hp⟩
  · have hn : c.isNext x = (false, c.skipBlanks) := by
      rw [isNext, hover.peek, if_neg hx]
    exact .inr ⟨_, _, _, hcs, blanks_takeWhile cs, hover, size_skipBlanks_le c,
      (Step.pair_onNext_false hn (size_skipBlanks_le c)).symm.trans hp⟩

/-- A character that is required and was not refused stands after blanks. -/
theorem Over.exists_of_require (h : c.Over cs) {found : (d : Cursor) → d.size < c.size → Step ε α d}
    {err : ε} {a : α} {e : Cursor} (hp : (Step.require x c err found).pair = (.ok a, e)) :
    ∃ gap post d, cs = gap ++ x :: post ∧ Blanks gap ∧ d.Over post ∧
      ∃ hd, (found d hd).pair = (.ok a, e) := by
  rcases h.cases_of_onNext hp with hfound | ⟨_, _, _, _, _, _, _, hfail⟩
  · exact hfound
  · cases (Prod.mk.inj hfail).1

end Steps

end Cursor

end Reckoner
