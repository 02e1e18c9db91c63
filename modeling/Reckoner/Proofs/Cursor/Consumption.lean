import Reckoner.Proofs.Cursor.Outcomes
import Reckoner.Proofs.Cursor.Remaining
import Reckoner.Proofs.Literal.Word

/-!
# What a reading uses up

A reading leaves no more to read than it found, whether it gives a value or an error, and less with a
value that was read (`Consumes`). Reading on keeps both, and what was used up once is used up
(`Consumes.of_lt`): so each way of going on after a step hands on how much remains where it goes on
(`Consumes.andThen`, `Consumes.onNext`).
-/

namespace Reckoner

open Cursor

namespace Cursor

variable {c : Cursor} {x : Char}

theorem length_pop_lt (h : c.peek = some x) : c.pop.2.remaining.length < c.remaining.length := by
  rw [remaining_of_peek h]
  exact Nat.lt_succ_self _

theorem length_isNext_lt (h : (c.isNext x).1 = true) :
    (c.isNext x).2.remaining.length < c.remaining.length := by
  have hskip := c.skipBlanks_suffix.length_le
  unfold isNext at *
  dsimp only at *
  split at h
  · rename_i hx
    rw [if_pos hx]
    exact Nat.lt_of_lt_of_le (length_pop_lt hx) hskip
  · cases h

theorem length_takeWhile (test : Char → Bool) (c : Cursor) :
    (c.takeWhile test).1.length + (c.takeWhile test).2.remaining.length = c.remaining.length := by
  rw [← takeWhile_append_remaining test c, List.length_append]

theorem length_take (n : ℕ) (c : Cursor) :
    (c.take n).1.length + (c.take n).2.remaining.length = c.remaining.length := by
  rw [← take_append_remaining n c, List.length_append]

theorem length_name_le (c : Cursor) : c.name.2.remaining.length ≤ c.remaining.length := by
  have := length_takeWhile isNameRest c
  rw [name]
  split
  · dsimp only
    omega
  · exact Nat.le_refl _

/-- A name has a character at least. -/
theorem length_name_lt (h : c.name.1.isSome = true) :
    c.name.2.remaining.length < c.remaining.length := by
  have := length_takeWhile isNameRest c
  rw [name] at *
  split at h
  · rename_i hstart
    rw [if_pos hstart]
    rcases hx : c.peek with _ | x
    · rw [hx] at hstart
      cases hstart
    · rw [hx, Option.any_some] at hstart
      rw [takeWhile_of_pos hx (isNameRest_of_isNameStart hstart)] at *
      simp only [List.length_cons] at *
      omega
  · cases h

end Cursor

variable {ε α β : Type}

/-- The reading leaves no more than remains at `c`, and less with a value of the kind. -/
structure Consumes (c : Cursor) (kind : α → Bool) (p : Except ε α × Cursor) : Prop where
  length_le : p.2.remaining.length ≤ c.remaining.length
  length_lt : ∀ a, p.1 = .ok a → kind a = true → p.2.remaining.length < c.remaining.length

namespace Consumes

variable {o c d : Cursor} {kind : α → Bool} {a : α} {p : Except ε α × Cursor}

theorem ok (hle : d.remaining.length ≤ c.remaining.length)
    (hlt : kind a = true → d.remaining.length < c.remaining.length) :
    Consumes c kind ((.ok a, d) : Except ε α × Cursor) :=
  ⟨hle, fun _ ha hk => hlt (Except.ok.inj ha ▸ hk)⟩

theorem error (hle : d.remaining.length ≤ c.remaining.length) (e : ε) :
    Consumes c kind ((.error e, d) : Except ε α × Cursor) :=
  ⟨hle, fun _ h => by cases h⟩

/-- No value was read. -/
theorem none (hle : d.remaining.length ≤ c.remaining.length) :
    Consumes c Option.isSome ((.ok .none, d) : Except ε (Option α) × Cursor) :=
  ok hle fun h => by cases h

theorem done (h : d.remaining.length < c.remaining.length) (a : α) :
    Consumes c kind (Step.done a d : Step ε α d).pair :=
  ok (Nat.le_of_lt h) fun _ => h

theorem fail (h : d.remaining.length ≤ c.remaining.length) (e : ε) :
    Consumes c kind (Step.fail e d : Step ε α d).pair :=
  error h e

theorem of_le (h : Consumes d kind p) (hle : d.remaining.length ≤ c.remaining.length) :
    Consumes c kind p :=
  ⟨Nat.le_trans h.length_le hle, fun a ha hk => Nat.lt_of_lt_of_le (h.length_lt a ha hk) hle⟩

/-- Where something was read before, it does not matter what the reading adds. -/
theorem of_lt {any : α → Bool} (h : Consumes d any p) (hlt : d.remaining.length < c.remaining.length) :
    Consumes c kind p :=
  have hle := Nat.lt_of_le_of_lt h.length_le hlt
  ⟨Nat.le_of_lt hle, fun _ _ _ => hle⟩

theorem mapResult {kind : β → Bool} {f : α → β} (h : Consumes c (fun a => kind (f a)) p) :
    Consumes c kind (p.1.map f, p.2) := by
  rcases p with ⟨_ | a, d⟩
  · exact error h.length_le _
  · exact ok h.length_le (h.length_lt a rfl)

theorem mapError {ε' : Type} (h : Consumes c kind p) (f : ε → ε') :
    Consumes c kind (p.1.mapError f, p.2) := by
  rcases p with ⟨_ | a, d⟩
  · exact error h.length_le _
  · exact ok h.length_le (h.length_lt a rfl)

theorem mapSome {p : Except ε (Option α) × Cursor} {f : α → β} (h : Consumes c Option.isSome p) :
    Consumes c Option.isSome (p.1.map (Option.map f), p.2) :=
  mapResult (by simpa only [Option.isSome_map] using h)

theorem map {s : Step ε α c} {kind : β → Bool} {f : α → β}
    (h : Consumes o (fun a => kind (f a)) s.pair) : Consumes o kind (s.map f).pair :=
  mapResult h

theorem andThen {s : Step ε α c} {next : α → (d : Cursor) → d.size ≤ c.size → Step ε β d}
    {kind' : β → Bool} (hle : c.remaining.length ≤ o.remaining.length) (hs : Consumes c kind s.pair)
    (hnext : ∀ a d hd, d.remaining.length ≤ c.remaining.length →
      (kind a = true → d.remaining.length < c.remaining.length) →
      Consumes o kind' (next a d hd).pair) : Consumes o kind' (s.andThen next).pair := by
  rcases s with ⟨_ | a, d, hd⟩
  · exact error (Nat.le_trans hs.length_le hle) _
  · exact hnext a d hd hs.length_le (hs.length_lt a rfl)

theorem afterBlanks {next : (d : Cursor) → d.size ≤ c.size → Step ε α d}
    (hnext : ∀ d hd, d.remaining.length ≤ c.remaining.length → Consumes o kind (next d hd).pair) :
    Consumes o kind (Step.afterBlanks c next).pair :=
  hnext _ _ c.skipBlanks_suffix.length_le

theorem onPeek {ended : Step ε α c} {next : (x : Char) → (d : Cursor) → d.size < c.size → Step ε α c}
    (hended : Consumes o kind ended.pair)
    (hnext : ∀ x d hd, d.remaining.length < c.remaining.length → Consumes o kind (next x d hd).pair) :
    Consumes o kind (Step.onPeek c ended next).pair := by
  rcases hx : c.peek with _ | x
  · rw [Step.pair_onPeek_none hx]
    exact hended
  · rw [Step.pair_onPeek_some hx rfl (size_pop_lt hx)]
    exact hnext x _ _ (length_pop_lt hx)

variable {x : Char} {found : (d : Cursor) → d.size < c.size → Step ε α d}
  {missing : (d : Cursor) → d.size ≤ c.size → Step ε α d}

theorem onNext
    (hfound : ∀ d hd, d.remaining.length < c.remaining.length → Consumes o kind (found d hd).pair)
    (hmissing : ∀ d hd, d.remaining.length ≤ c.remaining.length →
      Consumes o kind (missing d hd).pair) :
    Consumes o kind (Step.onNext x c found missing).pair := by
  rw [Step.onNext]
  split
  · exact hfound _ _ (length_isNext_lt ‹_›)
  · exact hmissing _ _ (isNext_suffix x c).length_le

theorem require {e : ε} (hle : c.remaining.length ≤ o.remaining.length)
    (hfound : ∀ d hd, d.remaining.length < c.remaining.length → Consumes o kind (found d hd).pair) :
    Consumes o kind (Step.require x c e found).pair :=
  onNext hfound fun _ _ hd => fail (Nat.le_trans hd hle) e

end Consumes

theorem consumes_name (c : Cursor) :
    Consumes c Option.isSome (Step.name c : Step ε (Option String) c).pair :=
  .ok c.length_name_le length_name_lt

end Reckoner
