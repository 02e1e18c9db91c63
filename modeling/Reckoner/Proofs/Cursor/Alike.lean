import Reckoner.Proofs.Cursor.Outcomes
import Reckoner.Proofs.Cursor.Pending
import Reckoner.Proofs.Literal.Quotation
import Reckoner.Proofs.Literal.Numeral

/-!
# One text in two cursors

What is handed back is put behind what waits in the queue, so one text can be read as two if it is
split in two ways between queue and source. It cannot if, at each place where the grammar may read a
number, the signs and points that stand there come with a digit or reach to the end of the queue
(`Clear`); the characters that such places come after are all that the grammar adds to this. Two cursors
over one text that are clear, or that have equal queues, are `Alike`. They stay so with each character
read (`Alike.pop`), and each way of going on after a step keeps that two readings give the same result
and leave the same text (`Agrees.andThen`, `Agrees.onNext`).
-/

namespace Reckoner

open Text Cursor

/-- Where a character stands. -/
inductive Place where
  /-- Outside of quotes, where a number may be read or not. -/
  | outside (number : Bool)
  /-- Behind the opening quote, and behind a backslash that escapes the character or not. -/
  | quoted (quote : Char) (escaped : Bool)
  deriving DecidableEq, Repr

/-- The place behind a character. A number may be read behind those that `opens` tells. -/
def Place.next (opens : Char → Bool) : Place → Char → Place
  | .outside number, x =>
    if isBlank x then .outside number
    else if isQuote x then .quoted x false
    else .outside (opens x)
  | .quoted quote escaped, x =>
    if !escaped && x = quote then .outside false else .quoted quote (!escaped && x = '\\')

/-- The front of a numeral, of which `taken` has been read before, is without a digit and ends before
the queue does. -/
def Pending.Loose (taken : List Char) (p : Pending) : Prop :=
  let front := numeralFront (taken ++ p.toList)
  front ≠ [] ∧ front.any Char.isDigit = false ∧ front.length - taken.length < p.queue.length

instance (taken : List Char) (p : Pending) : Decidable (p.Loose taken) :=
  inferInstanceAs (Decidable (_ ∧ _ ∧ _))

/-- Nothing loose stands in the queue where a number may be read. -/
def Clear (opens : Char → Bool) : Place → List Char → List Char → Prop
  | _, [], _ => True
  | place, x :: queue, rest =>
    (place = .outside true → ¬ Pending.Loose [] ⟨x :: queue, rest⟩) ∧
      Clear opens (place.next opens x) queue rest

instance Clear.decidable (opens : Char → Bool) :
    (place : Place) → (queue rest : List Char) → Decidable (Clear opens place queue rest)
  | _, [], _ => .isTrue trivial
  | place, x :: queue, rest =>
    have := Clear.decidable opens (place.next opens x) queue rest
    inferInstanceAs (Decidable (_ ∧ _))

namespace Place

variable {opens : Char → Bool} {b : Bool} {x : Char} {cs : List Char}

theorem next_outside (hx : (isBlank x || isQuote x) = false) :
    (outside b).next opens x = .outside (opens x) := by
  rw [Bool.or_eq_false_iff] at hx
  rw [next, hx.1, hx.2]
  rfl

theorem next_of_isBlank (hx : isBlank x = true) : (outside b).next opens x = .outside b := by
  rw [next, if_pos hx]

theorem next_of_isQuote (hx : isQuote x = true) : (outside b).next opens x = .quoted x false := by
  rw [next, if_neg (by simp [isBlank_of_isQuote hx]), if_pos hx]

/-- Without a quote among them, characters lead outside. -/
theorem exists_foldl (opens : Char → Bool) (h : ∀ x ∈ cs, isQuote x = false) (b : Bool) :
    ∃ b', cs.foldl (next opens) (.outside b) = .outside b' := by
  induction cs generalizing b with
  | nil => exact ⟨b, rfl⟩
  | cons x cs ih =>
    obtain ⟨hx, hcs⟩ := List.forall_mem_cons.1 h
    rw [List.foldl_cons, next, hx]
    split
    · exact ih hcs b
    · exact ih hcs (opens x)

theorem foldl_blanks (h : Blanks cs) : cs.foldl (next opens) (.outside b) = .outside b := by
  induction cs with
  | nil => rfl
  | cons x cs ih =>
    obtain ⟨hx, hcs⟩ := List.forall_mem_cons.1 h
    rw [List.foldl_cons, next_of_isBlank hx, ih hcs]

end Place

theorem isQuote_of_isNameRest {x : Char} (h : isNameRest x = true) : isQuote x = false := by
  by_contra hq
  simp only [isQuote, Bool.not_eq_false, Bool.or_eq_true, decide_eq_true_eq] at hq
  rcases hq with rfl | rfl <;> exact absurd h (by decide)

namespace Clear

variable {opens : Char → Bool} {b : Bool} {queue rest : List Char}

/-- Where no number can be read there is less to ask for. -/
theorem calm (h : Clear opens (.outside b) queue rest) : Clear opens (.outside false) queue rest := by
  induction queue generalizing b with
  | nil => exact h
  | cons x queue ih =>
    refine ⟨fun hp => (by cases hp), ?_⟩
    have htail := h.2
    by_cases hx : (isBlank x || isQuote x) = false
    · rw [Place.next_outside hx] at htail ⊢
      exact htail
    · by_cases hblank : isBlank x = true
      · rw [Place.next_of_isBlank hblank] at htail ⊢
        exact ih htail
      · have hquote : isQuote x = true := by simpa [hblank] using hx
        rw [Place.next_of_isQuote hquote] at htail ⊢
        exact htail

/-- If no character leads to a place where a number may be read, then from elsewhere none is met. -/
theorem never {place : Place} (hp : place ≠ .outside true) :
    Clear (fun _ => false) place queue rest := by
  induction queue generalizing place with
  | nil => trivial
  | cons x queue ih =>
    refine ⟨fun h => absurd h hp, ih ?_⟩
    cases place with
    | outside b =>
      rw [Place.next]
      split
      · exact hp
      · split <;> simp
    | quoted quote escaped =>
      rw [Place.next]
      split <;> simp

end Clear

/-- The queues are equal, or nothing loose stands in either where a number may be read. -/
def Interchangeable (opens : Char → Bool) (place : Place) (c d : Cursor) : Prop :=
  c.queue = d.queue ∨ Clear opens place c.queue c.unread ∧ Clear opens place d.queue d.unread

instance (opens : Char → Bool) (place : Place) (c d : Cursor) :
    Decidable (Interchangeable opens place c d) :=
  inferInstanceAs (Decidable (_ ∨ _))

/-- Two cursors over one text that may stand for each other. -/
structure Alike (opens : Char → Bool) (place : Place) (c d : Cursor) : Prop where
  left : c.Primed
  right : d.Primed
  remaining_eq : c.remaining = d.remaining
  split : Interchangeable opens place c d

/-- Two readings give the same result and leave the same text. -/
structure Matches {ρ : Type} (p q : ρ × Cursor) : Prop where
  result_eq : p.1 = q.1
  remaining_eq : p.2.remaining = q.2.remaining

/-- Two readings match, and leave cursors that are alike if they give a value. -/
structure Agrees {ε α : Type} (opens : Char → Bool) (p q : Except ε α × Cursor) : Prop
    extends Matches p q where
  alike : ∀ a, p.1 = .ok a → Alike opens (.outside false) p.2 q.2

namespace Alike

variable {opens : Char → Bool} {place : Place} {b : Bool} {c d : Cursor} {x : Char}

theorem peek_eq (h : Alike opens place c d) : c.peek = d.peek := by
  rw [h.left.peek_eq, h.right.peek_eq, Pending.peek, Pending.peek, toList_pending, toList_pending,
    h.remaining_eq]

theorem calm (h : Alike opens (.outside b) c d) : Alike opens (.outside false) c d :=
  ⟨h.left, h.right, h.remaining_eq, h.split.imp_right fun ⟨hc, hd⟩ => ⟨hc.calm, hd.calm⟩⟩

theorem clear_pop (hc : c.Primed) (hx : c.peek = some x) (h : Clear opens place c.queue c.unread) :
    Clear opens (place.next opens x) c.pop.2.queue c.pop.2.unread := by
  have hqueue := hc.queue_pop
  rcases c with ⟨_ | ⟨y, queue⟩, ahead, source⟩
  · rw [hqueue]
    trivial
  · obtain rfl : y = x := Option.some.inj hx
    exact h.2

/-- A character read leaves cursors that are alike behind it. -/
theorem pop (h : Alike opens place c d) (hx : c.peek = some x) :
    Alike opens (place.next opens x) c.pop.2 d.pop.2 := by
  have hy : d.peek = some x := h.peek_eq ▸ hx
  refine ⟨h.left.pop, h.right.pop, ?_, h.split.imp (fun hq => ?_) fun ⟨hc, hd⟩ =>
    ⟨clear_pop h.left hx hc, clear_pop h.right hy hd⟩⟩
  · have := h.remaining_eq
    rw [remaining_of_peek hx, remaining_of_peek hy] at this
    exact (List.cons.inj this).2
  · rw [h.left.queue_pop, h.right.queue_pop, hq]

/-- At the end nothing changes. -/
theorem pop_none (h : Alike opens place c d) (hx : c.peek = none) :
    Alike opens place c.pop.2 d.pop.2 := by
  have hempty : ∀ {e : Cursor}, e.Primed → e.peek = none → e.pop.2.queue = [] := by
    intro e he hp
    rw [he.peek_eq, Pending.peek, List.head?_eq_none_iff] at hp
    rw [he.queue_pop, show e.queue = [] from (List.append_eq_nil_iff.1 hp).1, List.drop_nil]
  have hy : d.peek = none := h.peek_eq ▸ hx
  refine ⟨h.left.pop, h.right.pop, ?_, .inl ?_⟩
  · rw [remaining_of_peek_none hx, remaining_of_peek_none hy, h.remaining_eq]
  · rw [hempty h.left hx, hempty h.right hy]

/-- Runs are the same, and lead from place to place. -/
theorem takeWhile (h : Alike opens place c d) (test : Char → Bool) :
    (c.takeWhile test).1 = (d.takeWhile test).1 ∧
      Alike opens ((c.takeWhile test).1.foldl (Place.next opens) place)
        (c.takeWhile test).2 (d.takeWhile test).2 := by
  fun_induction Cursor.takeWhile test c generalizing d place with
  | case1 c hp =>
    rw [takeWhile_of_peek_none (h.peek_eq ▸ hp)]
    exact ⟨rfl, h⟩
  | case2 c x hp ht xs rest heq ih =>
    obtain ⟨hfst, hrest⟩ := ih (h.pop hp)
    rw [heq] at hfst hrest
    rw [takeWhile_of_pos (h.peek_eq ▸ hp) ht]
    exact ⟨congrArg (x :: ·) hfst, hrest⟩
  | case3 c x hp ht =>
    rw [takeWhile_of_neg (h.peek_eq ▸ hp) ht]
    exact ⟨rfl, h⟩

theorem take (h : Alike opens place c d) (n : Nat) :
    (c.take n).1 = (d.take n).1 ∧
      Alike opens ((c.take n).1.foldl (Place.next opens) place) (c.take n).2 (d.take n).2 := by
  induction n generalizing c d place with
  | zero => exact ⟨rfl, h⟩
  | succ n ih =>
    cases hx : c.peek with
    | none =>
      rw [take_of_peek_none hx, take_of_peek_none (h.peek_eq ▸ hx)]
      exact ⟨rfl, h.pop_none hx⟩
    | some x =>
      obtain ⟨hfst, hrest⟩ := ih (h.pop hx)
      rw [take_of_peek hx, take_of_peek (h.peek_eq ▸ hx)]
      exact ⟨congrArg (x :: ·) hfst, hrest⟩

/-- What is handed back to equal queues leaves them equal. -/
theorem inject (h : Alike opens place c d) (hq : c.queue = d.queue) (cs : List Char) :
    Alike opens place (c.inject cs) (d.inject cs) := by
  have hunread : c.unread = d.unread := by
    have := h.remaining_eq
    rw [← toList_pending, ← toList_pending, Pending.toList, Pending.toList] at this
    rw [pending, pending, hq] at this
    exact List.append_cancel_left this
  have hqueue : (c.inject cs).queue = (d.inject cs).queue := congrArg (· ++ cs) hq
  refine ⟨h.left.inject cs, h.right.inject cs, ?_, .inl hqueue⟩
  rw [← toList_pending, ← toList_pending, pending_inject, pending_inject, pending, pending, hq, hunread]

theorem skipBlanks (h : Alike opens (.outside b) c d) :
    Alike opens (.outside b) c.skipBlanks d.skipBlanks := by
  have hrun := (h.takeWhile isBlank).2
  rwa [Place.foldl_blanks] at hrun
  rw [(h.left.takeWhile_eq isBlank).1]
  exact blanks_takeWhile _

/-- A name is the same, and no number may be read behind it. -/
theorem name (h : Alike opens (.outside b) c d) :
    c.name.1 = d.name.1 ∧ Alike opens (.outside false) c.name.2 d.name.2 := by
  obtain ⟨hfst, hrest⟩ := h.takeWhile isNameRest
  have hall : ∀ x ∈ (c.takeWhile isNameRest).1, isQuote x = false := by
    rw [(h.left.takeWhile_eq isNameRest).1]
    intro x hx
    exact isQuote_of_isNameRest (List.mem_takeWhile_imp hx)
  obtain ⟨b', hplace⟩ := Place.exists_foldl opens hall b
  rw [hplace] at hrest
  rw [Cursor.name, Cursor.name, ← h.peek_eq]
  split
  · exact ⟨congrArg (fun cs => some (String.ofList cs)) hfst, hrest.calm⟩
  · exact ⟨rfl, h.calm⟩

theorem isNext (h : Alike opens (.outside b) c d) (hx : (isBlank x || isQuote x) = false) :
    (c.isNext x).1 = (d.isNext x).1 ∧
      Alike opens (.outside (if (c.isNext x).1 then opens x else b)) (c.isNext x).2 (d.isNext x).2 := by
  have hs := h.skipBlanks
  simp only [Cursor.isNext, ← hs.peek_eq]
  split
  · rename_i hp
    have hpop := hs.pop hp
    rw [Place.next_outside hx] at hpop
    exact ⟨rfl, hpop⟩
  · exact ⟨rfl, hs⟩

end Alike

namespace Agrees

variable {ε α β : Type} {opens : Char → Bool} {b : Bool} {c d : Cursor}

theorem ok (h : Alike opens (.outside b) c d) (a : α) :
    Agrees opens ((.ok a, c) : Except ε α × Cursor) (.ok a, d) :=
  ⟨⟨rfl, h.remaining_eq⟩, fun _ _ => h.calm⟩

theorem error {place : Place} (h : Alike opens place c d) (e : ε) :
    Agrees opens ((.error e, c) : Except ε α × Cursor) (.error e, d) :=
  ⟨⟨rfl, h.remaining_eq⟩, fun _ ha => by cases ha⟩

/-- Equal results stay so under a change that keeps errors. -/
theorem mapResult {p q : Except ε α × Cursor} (h : Agrees opens p q) (f : α → β) :
    Agrees opens (p.1.map f, p.2) (q.1.map f, q.2) := by
  refine ⟨⟨congrArg (Except.map f) h.result_eq, h.remaining_eq⟩, fun a ha => ?_⟩
  rcases hp : p.1 with e | a'
  · rw [hp] at ha
    cases ha
  · exact h.alike a' hp

variable {s : Step ε α c} {t : Step ε α d}

theorem map (h : Agrees opens s.pair t.pair) (f : α → β) :
    Agrees opens (s.map f).pair (t.map f).pair :=
  h.mapResult f

/-- Going on after a step goes on with equal results over cursors that are alike. -/
theorem andThen {f : α → (e : Cursor) → e.size ≤ c.size → Step ε β e}
    {g : α → (e : Cursor) → e.size ≤ d.size → Step ε β e} (h : Agrees opens s.pair t.pair)
    (hfg : ∀ a c' d' hc hd, Alike opens (.outside false) c' d' →
      Agrees opens (f a c' hc).pair (g a d' hd).pair) :
    Agrees opens (s.andThen f).pair (t.andThen g).pair := by
  rcases s with ⟨e | a, c', hc⟩
  · rcases t with ⟨e' | a', d', hd⟩
    · obtain rfl : e = e' := Except.error.inj h.result_eq
      exact ⟨⟨rfl, h.remaining_eq⟩, fun _ ha => by cases ha⟩
    · cases h.result_eq
  · rcases t with ⟨e' | a', d', hd⟩
    · cases h.result_eq
    · obtain rfl : a = a' := Except.ok.inj h.result_eq
      exact hfg a c' d' hc hd (h.alike a rfl)

theorem afterBlanks {f : (e : Cursor) → e.size ≤ c.size → Step ε α e}
    {g : (e : Cursor) → e.size ≤ d.size → Step ε α e} (h : Alike opens (.outside b) c d)
    (hfg : ∀ c' d' hc hd, Alike opens (.outside b) c' d' →
      Agrees opens (f c' hc).pair (g d' hd).pair) :
    Agrees opens (Step.afterBlanks c f).pair (Step.afterBlanks d g).pair :=
  hfg _ _ (size_skipBlanks_le c) (size_skipBlanks_le d) h.skipBlanks

theorem onPeek {place : Place} {ended : Step ε α c} {ended' : Step ε α d}
    {f : (x : Char) → (e : Cursor) → e.size < c.size → Step ε α c}
    {g : (x : Char) → (e : Cursor) → e.size < d.size → Step ε α d} (h : Alike opens place c d)
    (hended : Agrees opens ended.pair ended'.pair)
    (hfg : ∀ x c' d' hc hd, Alike opens (place.next opens x) c' d' →
      Agrees opens (f x c' hc).pair (g x d' hd).pair) :
    Agrees opens (Step.onPeek c ended f).pair (Step.onPeek d ended' g).pair := by
  cases hx : c.peek with
  | none =>
    rw [Step.pair_onPeek_none hx, Step.pair_onPeek_none (h.peek_eq ▸ hx)]
    exact hended
  | some x =>
    have hy : d.peek = some x := h.peek_eq ▸ hx
    rw [Step.pair_onPeek_some hx rfl (size_pop_lt hx), Step.pair_onPeek_some hy rfl (size_pop_lt hy)]
    exact hfg x _ _ _ _ (h.pop hx)

theorem onNext {x : Char} (hx : (isBlank x || isQuote x) = false)
    {f : (e : Cursor) → e.size < c.size → Step ε α e}
    {f' : (e : Cursor) → e.size ≤ c.size → Step ε α e}
    {g : (e : Cursor) → e.size < d.size → Step ε α e}
    {g' : (e : Cursor) → e.size ≤ d.size → Step ε α e} (h : Alike opens (.outside b) c d)
    (hfound : ∀ c' d' hc hd, Alike opens (.outside (opens x)) c' d' →
      Agrees opens (f c' hc).pair (g d' hd).pair)
    (hmissing : ∀ c' d' hc hd, Alike opens (.outside b) c' d' →
      Agrees opens (f' c' hc).pair (g' d' hd).pair) :
    Agrees opens (Step.onNext x c f f').pair (Step.onNext x d g g').pair := by
  obtain ⟨hfst, halike⟩ := h.isNext hx
  rcases hc : c.isNext x with ⟨_ | _, c'⟩ <;> rcases hd : d.isNext x with ⟨_ | _, d'⟩ <;>
    rw [hc, hd] at hfst halike
  · have hc' := size_isNext_le x c
    have hd' := size_isNext_le x d
    rw [hc] at hc'
    rw [hd] at hd'
    rw [Step.pair_onNext_false hc hc', Step.pair_onNext_false hd hd']
    exact hmissing _ _ _ _ halike
  · cases hfst
  · cases hfst
  · have hc' := size_isNext_lt (x := x) (c := c) (by rw [hc])
    have hd' := size_isNext_lt (x := x) (c := d) (by rw [hd])
    rw [hc] at hc'
    rw [hd] at hd'
    rw [Step.pair_onNext_true hc hc', Step.pair_onNext_true hd hd']
    exact hfound _ _ _ _ halike

theorem require {x : Char} (hx : (isBlank x || isQuote x) = false) {e : ε}
    {f : (e : Cursor) → e.size < c.size → Step ε α e}
    {g : (e : Cursor) → e.size < d.size → Step ε α e} (h : Alike opens (.outside b) c d)
    (hfound : ∀ c' d' hc hd, Alike opens (.outside (opens x)) c' d' →
      Agrees opens (f c' hc).pair (g d' hd).pair) :
    Agrees opens (Step.require x c e f).pair (Step.require x d e g).pair :=
  onNext hx h hfound fun _ _ _ _ h => error h e

theorem name (h : Alike opens (.outside b) c d) :
    Agrees opens (Step.name c : Step ε (Option String) c).pair (Step.name d).pair :=
  ⟨⟨congrArg Except.ok h.name.1, h.name.2.remaining_eq⟩, fun _ _ => h.name.2⟩

end Agrees

end Reckoner
