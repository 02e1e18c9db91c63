import Reckoner.Proofs.Cursor.OverList

/-!
# What steps come to

Three readings of a step. Forwards, a step whose parts are known gives a known result and leaves a
cursor with a known property (`Step.Gives`), and each way of going on hands this to what comes next.
Backwards, a step that gave a result went through steps that gave theirs (`Step.exists_of_andThen`,
`Step.cases_of_onNext`). In general, whatever values a step may give, they and the cursors it leaves
have a property in common (`Step.Ensures`).
-/

namespace Reckoner

open Text

namespace Step

variable {ε α β : Type} {c d : Cursor}

/-- The step gives `r`, and where that is a value it leaves a cursor as told. -/
def Gives (s : Step ε α c) (r : Except ε α) (P : Cursor → Prop) : Prop :=
  s.result = r ∧ ∀ a, r = .ok a → P s.rest

theorem gives_done {P : Cursor → Prop} (a : α) (h : P c) :
    (done a c : Step ε α c).Gives (.ok a) P :=
  ⟨rfl, fun _ _ => h⟩

theorem gives_fail {P : Cursor → Prop} (e : ε) : (fail e c : Step ε α c).Gives (.error e) P :=
  ⟨rfl, fun _ h => by cases h⟩

theorem gives_of_pair {P : Cursor → Prop} {s : Step ε α c} {r : Except ε α} (h : s.pair = (r, d))
    (hd : P d) : s.Gives r P := by
  obtain ⟨hr, hs⟩ := Prod.mk.inj h
  exact ⟨hr, fun _ _ => (show s.rest = d from hs) ▸ hd⟩

theorem Gives.of_pair_eq {P : Cursor → Prop} {s : Step ε α c} {t : Step ε α d} {r : Except ε α}
    (h : t.Gives r P) (hp : s.pair = t.pair) : s.Gives r P := by
  obtain ⟨hr, hs⟩ := Prod.mk.inj hp
  refine ⟨hr.trans h.1, fun a ha => ?_⟩
  rw [show s.rest = t.rest from hs]
  exact h.2 a ha

theorem Gives.mono {P Q : Cursor → Prop} {s : Step ε α c} {r : Except ε α} (h : s.Gives r P)
    (hPQ : ∀ d, P d → Q d) : s.Gives r Q :=
  ⟨h.1, fun a ha => hPQ _ (h.2 a ha)⟩

theorem Gives.beyond {P : Cursor → Prop} {s : Step ε α c} {r : Except ε α} (h : s.Gives r P)
    (hlt : c.size < d.size) : (s.beyond hlt).Gives r P :=
  h.of_pair_eq rfl

theorem Gives.map {P : Cursor → Prop} {s : Step ε α c} {r : Except ε α} (h : s.Gives r P)
    (f : α → β) : (s.map f).Gives (r.map f) P := by
  refine ⟨congrArg (Except.map f) h.1, fun b hb => ?_⟩
  cases r with
  | error e => cases hb
  | ok a => exact h.2 a rfl

/-- Going on after a step goes on with its result, or ends with its error. -/
theorem Gives.andThen {P Q : Cursor → Prop} {s : Step ε α c} {r : Except ε α}
    {f : α → (d : Cursor) → d.size ≤ c.size → Step ε β d} {k : α → Except ε β} (h : s.Gives r P)
    (hf : ∀ a d hd, r = .ok a → P d → (f a d hd).Gives (k a) Q) :
    (s.andThen f).Gives (r >>= k) Q := by
  cases r with
  | error e =>
    have := pair_andThen_of_error (f := f) h.1
    exact ⟨(Prod.mk.inj this).1, fun _ hb => by cases hb⟩
  | ok a =>
    exact (hf a s.rest s.size_le rfl (h.2 a rfl)).of_pair_eq (pair_andThen_of_ok h.1)

theorem Gives.andThen_ok {P Q : Cursor → Prop} {s : Step ε α c} {a : α} {r : Except ε β}
    {f : α → (d : Cursor) → d.size ≤ c.size → Step ε β d} (h : s.Gives (.ok a) P)
    (hf : ∀ d hd, P d → (f a d hd).Gives r Q) : (s.andThen f).Gives r Q :=
  (hf s.rest s.size_le (h.2 a rfl)).of_pair_eq (pair_andThen_of_ok h.1)

theorem gives_name {o : Option String} (h : c.name = (o, d)) :
    (name c : Step ε (Option String) c).Gives (.ok o) (· = d) := by
  obtain ⟨rfl, rfl⟩ := Prod.mk.inj h
  exact ⟨rfl, fun _ _ => rfl⟩

theorem pair_afterBlanks (f : (d : Cursor) → d.size ≤ c.size → Step ε α d) {e : Cursor}
    (h : c.skipBlanks = e) (he : e.size ≤ c.size) : (afterBlanks c f).pair = (f e he).pair := by
  subst h
  rfl

theorem pair_onPeek_none {ended : Step ε α c}
    {f : (x : Char) → (d : Cursor) → d.size < c.size → Step ε α c}
    (h : c.peek = none) : (onPeek c ended f).pair = ended.pair := by
  rw [onPeek]
  split
  · rfl
  · rename_i x hx
    rw [h] at hx
    cases hx

theorem pair_onPeek_some {ended : Step ε α c}
    {f : (x : Char) → (d : Cursor) → d.size < c.size → Step ε α c}
    {x : Char} {e : Cursor} (h : c.peek = some x) (he : c.pop.2 = e) (hlt : e.size < c.size) :
    (onPeek c ended f).pair = (f x e hlt).pair := by
  subst he
  rw [onPeek]
  split
  · rename_i hx
    rw [h] at hx
    cases hx
  · rename_i y hy
    rw [h] at hy
    cases hy
    rfl

variable {found : (d : Cursor) → d.size < c.size → Step ε α d}
  {missing : (d : Cursor) → d.size ≤ c.size → Step ε α d} {x : Char}

theorem pair_onNext_true {e : Cursor} (h : c.isNext x = (true, e)) (he : e.size < c.size) :
    (onNext x c found missing).pair = (found e he).pair := by
  have h₁ : (c.isNext x).1 = true := by rw [h]
  have h₂ : (c.isNext x).2 = e := by rw [h]
  subst h₂
  rw [onNext, dif_pos h₁]
  rfl

theorem pair_onNext_false {e : Cursor} (h : c.isNext x = (false, e)) (he : e.size ≤ c.size) :
    (onNext x c found missing).pair = (missing e he).pair := by
  have h₁ : (c.isNext x).1 = false := by rw [h]
  have h₂ : (c.isNext x).2 = e := by rw [h]
  subst h₂
  rw [onNext, dif_neg (by simp [h₁])]
  rfl

theorem gives_onNext_true {P : Cursor → Prop} {r : Except ε α} {e : Cursor}
    (h : c.isNext x = (true, e)) (hf : ∀ he, (found e he).Gives r P) :
    (onNext x c found missing).Gives r P := by
  have he : e.size < c.size := by
    have := Cursor.size_isNext_lt (x := x) (c := c) (by rw [h])
    rwa [h] at this
  exact (hf he).of_pair_eq (pair_onNext_true h he)

theorem gives_onNext_false {P : Cursor → Prop} {r : Except ε α} {e : Cursor}
    (h : c.isNext x = (false, e)) (hm : ∀ he, (missing e he).Gives r P) :
    (onNext x c found missing).Gives r P := by
  have he : e.size ≤ c.size := by
    have := Cursor.size_isNext_le x c
    rwa [h] at this
  exact (hm he).of_pair_eq (pair_onNext_false h he)

theorem gives_require {P : Cursor → Prop} {r : Except ε α} {err : ε} {e : Cursor}
    (h : c.isNext x = (true, e)) (hf : ∀ he, (found e he).Gives r P) :
    (require x c err found).Gives r P :=
  gives_onNext_true h hf

theorem gives_afterBlanks {P : Cursor → Prop} {r : Except ε α}
    {f : (d : Cursor) → d.size ≤ c.size → Step ε α d} {e : Cursor} (h : c.skipBlanks = e)
    (hf : ∀ he, (f e he).Gives r P) : (afterBlanks c f).Gives r P := by
  have he : e.size ≤ c.size := h ▸ Cursor.size_skipBlanks_le c
  exact (hf he).of_pair_eq (pair_afterBlanks f h he)

/-- A step that went on after another and gave a value: the other gave one too. -/
theorem exists_of_andThen {s : Step ε α c} {f : α → (d : Cursor) → d.size ≤ c.size → Step ε β d}
    {b : β} {e : Cursor} (h : (s.andThen f).pair = (.ok b, e)) :
    ∃ a d, s.pair = (.ok a, d) ∧ ∃ hd, (f a d hd).pair = (.ok b, e) := by
  rcases s with ⟨r | a, d, hd⟩
  · cases (Prod.mk.inj h).1
  · exact ⟨a, d, rfl, hd, h⟩

theorem exists_of_map {s : Step ε α c} {f : α → β} {b : β} {e : Cursor}
    (h : (s.map f).pair = (.ok b, e)) : ∃ a, s.pair = (.ok a, e) ∧ f a = b := by
  rcases s with ⟨r | a, d, hd⟩
  · cases (Prod.mk.inj h).1
  · obtain ⟨h₁, rfl⟩ := Prod.mk.inj h
    exact ⟨a, rfl, Except.ok.inj h₁⟩

end Step

namespace Step

variable {ε α : Type} {x : Char} {cs : List Char}

/-- Over a list, moving past blanks parts them from the rest. -/
theorem exists_of_afterBlanks {f : (d : Cursor) → d.size ≤ (Cursor.ofList cs).size → Step ε α d}
    {p : Except ε α × Cursor} (h : (afterBlanks (.ofList cs) f).pair = p) :
    ∃ gap post, cs = gap ++ post ∧ Blanks gap ∧ ∃ hd, (f (.ofList post) hd).pair = p := by
  have hle := Cursor.size_skipBlanks_le (.ofList cs)
  rw [Cursor.skipBlanks_ofList] at hle
  exact ⟨_, _, List.takeWhile_append_dropWhile.symm, blanks_takeWhile cs, hle,
    (pair_afterBlanks f (Cursor.skipBlanks_ofList cs) hle).symm.trans h⟩

/-- Over a list, looking at the next character tells whether there is one. -/
theorem cases_of_onPeek {ended : Step ε α (.ofList cs)}
    {f : Char → (d : Cursor) → d.size < (Cursor.ofList cs).size → Step ε α (.ofList cs)}
    {p : Except ε α × Cursor} (h : (onPeek (.ofList cs) ended f).pair = p) :
    cs = [] ∧ ended.pair = p ∨
      ∃ x post, cs = x :: post ∧ ∃ hd, (f x (.ofList post) hd).pair = p := by
  cases cs with
  | nil => exact .inl ⟨rfl, (pair_onPeek_none rfl).symm.trans h⟩
  | cons x post =>
    have hlt : (Cursor.ofList post).size < (Cursor.ofList (x :: post)).size := by simp
    have hpeek : (Cursor.ofList (x :: post)).peek = some x := rfl
    exact .inr ⟨x, post, rfl, hlt, (pair_onPeek_some hpeek rfl hlt).symm.trans h⟩

/-- Over a list, looking for a character finds it after blanks or stops past them. -/
theorem cases_of_onNext {found : (d : Cursor) → d.size < (Cursor.ofList cs).size → Step ε α d}
    {missing : (d : Cursor) → d.size ≤ (Cursor.ofList cs).size → Step ε α d}
    {p : Except ε α × Cursor} (h : (onNext x (.ofList cs) found missing).pair = p) :
    (∃ gap post, cs = gap ++ x :: post ∧ Blanks gap ∧ ∃ hd, (found (.ofList post) hd).pair = p)
    ∨ ∃ gap post, cs = gap ++ post ∧ Blanks gap ∧ post.head? ≠ some x ∧
      ∃ hd, (missing (.ofList post) hd).pair = p := by
  have hcs : cs = cs.takeWhile isBlank ++ cs.dropWhile isBlank :=
    List.takeWhile_append_dropWhile.symm
  have hn := (Cursor.faces_ofList cs).isNext x
  by_cases hx : (cs.dropWhile isBlank).head? = some x
  · obtain ⟨post, hpost⟩ := List.head?_eq_some_iff.1 hx
    rw [if_pos hx, hpost, List.tail_cons] at hn
    rw [hpost] at hcs
    have hlt : (Cursor.ofList post).size < (Cursor.ofList cs).size := by
      have := Cursor.size_isNext_lt (x := x) (c := .ofList cs) (by rw [hn])
      rwa [hn] at this
    exact .inl ⟨_, post, hcs, blanks_takeWhile cs, hlt, (pair_onNext_true hn hlt).symm.trans h⟩
  · rw [if_neg hx] at hn
    have hle : (Cursor.ofList (cs.dropWhile isBlank)).size ≤ (Cursor.ofList cs).size := by
      have := Cursor.size_isNext_le x (.ofList cs)
      rwa [hn] at this
    exact .inr ⟨_, _, hcs, blanks_takeWhile cs, hx, hle, (pair_onNext_false hn hle).symm.trans h⟩

/-- Over a list, a character that is required and was not refused stands after blanks. -/
theorem exists_of_require {found : (d : Cursor) → d.size < (Cursor.ofList cs).size → Step ε α d}
    {err : ε} {a : α} {e : Cursor} (h : (require x (.ofList cs) err found).pair = (.ok a, e)) :
    ∃ gap post, cs = gap ++ x :: post ∧ Blanks gap ∧
      ∃ hd, (found (.ofList post) hd).pair = (.ok a, e) := by
  rcases cases_of_onNext h with hfound | ⟨_, _, _, _, _, _, hp⟩
  · exact hfound
  · cases (Prod.mk.inj hp).1

end Step

namespace Step

variable {ε α β : Type} {c d : Cursor}

/-- Any value that the step gives, and the cursor it leaves then, are as told. -/
def Ensures (s : Step ε α c) (Q : α → Cursor → Prop) : Prop :=
  ∀ a, s.result = .ok a → Q a s.rest

theorem Ensures.of_pair {Q : α → Cursor → Prop} {s : Step ε α c} {a : α} (h : s.Ensures Q)
    (hp : s.pair = (.ok a, d)) : Q a d := by
  obtain ⟨hr, rfl⟩ := Prod.mk.inj hp
  exact h a hr

theorem Ensures.of_pair_eq {Q : α → Cursor → Prop} {s : Step ε α c} {t : Step ε α d} (h : t.Ensures Q)
    (hp : s.pair = t.pair) : s.Ensures Q :=
  fun _ ha => h.of_pair (hp.symm.trans (Prod.ext ha rfl))

/-- A step that is known to give something leaves the cursor that it is known to leave. -/
theorem Gives.ensures {P : Cursor → Prop} {s : Step ε α c} {r : Except ε α} (h : s.Gives r P) :
    s.Ensures fun _ d => P d :=
  fun a ha => h.2 a (h.1.symm.trans ha)

theorem ensures_done {Q : α → Cursor → Prop} {a : α} (h : Q a c) :
    (done a c : Step ε α c).Ensures Q := by
  intro b hb
  cases hb
  exact h

theorem ensures_fail {Q : α → Cursor → Prop} (e : ε) : (fail e c : Step ε α c).Ensures Q := by
  intro b hb
  cases hb

theorem Ensures.beyond {Q : α → Cursor → Prop} {s : Step ε α c} (h : s.Ensures Q)
    (hlt : c.size < d.size) : (s.beyond hlt).Ensures Q :=
  h

theorem Ensures.mono {Q R : α → Cursor → Prop} {s : Step ε α c} (h : s.Ensures Q)
    (hQR : ∀ a d, Q a d → R a d) : s.Ensures R :=
  fun a ha => hQR _ _ (h a ha)

theorem Ensures.map {Q : β → Cursor → Prop} {s : Step ε α c} {f : α → β}
    (h : s.Ensures fun a => Q (f a)) : (s.map f).Ensures Q := by
  rcases s with ⟨r | a, d, hd⟩
  · intro b hb
    cases hb
  · intro b hb
    cases hb
    exact h a rfl

theorem Ensures.andThen {P : α → Cursor → Prop} {Q : β → Cursor → Prop} {s : Step ε α c}
    {f : α → (d : Cursor) → d.size ≤ c.size → Step ε β d} (h : s.Ensures P)
    (hf : ∀ a d hd, P a d → (f a d hd).Ensures Q) : (s.andThen f).Ensures Q := by
  rcases s with ⟨r | a, d, hd⟩
  · intro b hb
    cases hb
  · exact hf a d hd (h a rfl)

theorem ensures_onPeek {Q : α → Cursor → Prop} {ended : Step ε α c}
    {f : (x : Char) → (d : Cursor) → d.size < c.size → Step ε α c} (hended : ended.Ensures Q)
    (hf : ∀ x hlt, c.peek = some x → (f x c.pop.2 hlt).Ensures Q) :
    (onPeek c ended f).Ensures Q := by
  rw [onPeek]
  split
  · exact hended
  · exact hf _ _ ‹_›

theorem ensures_onNext {Q : α → Cursor → Prop} {x : Char}
    {found : (d : Cursor) → d.size < c.size → Step ε α d}
    {missing : (d : Cursor) → d.size ≤ c.size → Step ε α d}
    (hfound : ∀ hlt, (found (c.isNext x).2 hlt).Ensures Q)
    (hmissing : ∀ hle, (missing (c.isNext x).2 hle).Ensures Q) :
    (onNext x c found missing).Ensures Q := by
  rw [onNext]
  split
  · exact hfound _
  · exact hmissing _

section Next

variable {Q : α → Cursor → Prop} {x : Char} {found : (d : Cursor) → d.size < c.size → Step ε α d}
  {missing : (d : Cursor) → d.size ≤ c.size → Step ε α d} {e : Cursor}

theorem ensures_onNext_true (h : c.isNext x = (true, e)) (hf : ∀ he, (found e he).Ensures Q) :
    (onNext x c found missing).Ensures Q := by
  have he : e.size < c.size := by
    have := Cursor.size_isNext_lt (x := x) (c := c) (by rw [h])
    rwa [h] at this
  exact (hf he).of_pair_eq (pair_onNext_true h he)

theorem ensures_onNext_false (h : c.isNext x = (false, e)) (hm : ∀ he, (missing e he).Ensures Q) :
    (onNext x c found missing).Ensures Q := by
  have he : e.size ≤ c.size := by
    have := Cursor.size_isNext_le x c
    rwa [h] at this
  exact (hm he).of_pair_eq (pair_onNext_false h he)

end Next

theorem ensures_require {Q : α → Cursor → Prop} {x : Char} {e : ε}
    {found : (d : Cursor) → d.size < c.size → Step ε α d}
    (hfound : ∀ hlt, (found (c.isNext x).2 hlt).Ensures Q) : (require x c e found).Ensures Q :=
  ensures_onNext hfound fun _ => ensures_fail e

end Step

end Reckoner
