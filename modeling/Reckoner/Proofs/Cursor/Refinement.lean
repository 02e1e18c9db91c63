import Reckoner.Proofs.Cursor.Pending

/-!
# Rows of calls

Whatever calls are made on a cursor, each answers as it does on the two lists that are to be read
(`run_refines`). The same calls on a cursor that reads from a source whose replies are noted (`Noting`)
show when the source is asked: as long as it is held it has given characters only, and it is let go at
the call in which it first gives a stop, which is the last that it is asked for. Calls see no more of
what is read from than its characters (`Cursor.answer_view`), and they only read from it
(`Cursor.source_answer`).
-/

namespace Reckoner

open Text

namespace Source

variable {s t : Source}

theorem of_ask_char {x : Char} (h : s.ask = (.char x, t)) :
    s.toList = x :: t.toList ∧ s.ending = t.ending := by
  rcases s with ⟨_ | ⟨_ | how, replies⟩⟩ <;> cases h
  exact ⟨rfl, rfl⟩

theorem of_ask_stop {how : Ending} (h : s.ask = (.stop how, t)) :
    s.toList = [] ∧ s.ending = how := by
  rcases s with ⟨_ | ⟨_ | _, replies⟩⟩ <;> cases h <;> exact ⟨rfl, rfl⟩

end Source

namespace Cursor

/-- A call on a cursor. -/
inductive Call where
  | peek
  | pop
  | inject (cs : List Char)
  | isNext (x : Char)
  | skipBlanks
  | isAtEnd
  deriving DecidableEq, Repr

/-- What a call answers. -/
inductive Answer where
  | char (x : Option Char)
  | truth (b : Bool)
  | nothing
  deriving DecidableEq, Repr

/-- The answers to a row of calls, and the state after it. -/
def run {σ : Type} (answer : σ → Call → Answer × σ) (s : σ) : List Call → List Answer × σ
  | [] => ([], s)
  | call :: calls =>
    let (a, s) := answer s call
    let (as, s) := run answer s calls
    (a :: as, s)

/-- States that answer each call alike and stay related answer each row of calls alike. -/
theorem run_congr {σ τ : Type} {f : σ → Call → Answer × σ} {g : τ → Call → Answer × τ}
    {R : σ → τ → Prop} (hstep : ∀ s t call, R s t →
      (f s call).1 = (g t call).1 ∧ R (f s call).2 (g t call).2)
    (calls : List Call) {s : σ} {t : τ} (h : R s t) :
    (run f s calls).1 = (run g t calls).1 ∧ R (run f s calls).2 (run g t calls).2 := by
  induction calls generalizing s t with
  | nil => exact ⟨rfl, h⟩
  | cons call calls ih =>
    obtain ⟨ha, hr⟩ := hstep s t call h
    obtain ⟨has, hrs⟩ := ih hr
    exact ⟨List.cons_eq_cons.2 ⟨ha, has⟩, hrs⟩

def answer {σ : Type} [Supply σ] (c : Cursor σ) : Call → Answer × Cursor σ
  | .peek => (.char c.peek, c)
  | .pop => (.char c.pop.1, c.pop.2)
  | .inject cs => (.nothing, c.inject cs)
  | .isNext x => (.truth (c.isNext x).1, (c.isNext x).2)
  | .skipBlanks => (.nothing, c.skipBlanks)
  | .isAtEnd => (.truth c.isAtEnd, c)

end Cursor

open Cursor

def Pending.answer (p : Pending) : Call → Answer × Pending
  | .peek => (.char p.peek, p)
  | .pop => (.char p.pop.1, p.pop.2)
  | .inject cs => (.nothing, p.inject cs)
  | .isNext x => (.truth (p.isNext x).1, (p.isNext x).2)
  | .skipBlanks => (.nothing, p.skipBlanks)
  | .isAtEnd => (.truth p.isAtEnd, p)

namespace Cursor

/-- A cursor state that some source and some row of calls lead to. -/
def Reachable (c : Cursor) : Prop :=
  ∃ s calls, (run answer (ofSource s) calls).2 = c

section Reached

variable {c : Cursor}

theorem Primed.answer_eq (h : c.Primed) (call : Call) :
    (c.answer call).1 = (c.pending.answer call).1 ∧
      (c.answer call).2.Primed ∧ (c.answer call).2.pending = (c.pending.answer call).2 := by
  cases call with
  | peek => exact ⟨congrArg Answer.char h.peek_eq, h, rfl⟩
  | pop =>
    refine ⟨congrArg Answer.char ?_, h.pop, h.pending_pop⟩
    rw [pop_fst, h.peek_eq, Pending.pop]
  | inject cs => exact ⟨rfl, h.inject cs, pending_inject c cs⟩
  | isNext x => exact ⟨congrArg Answer.truth (h.isNext_eq x).1, h.isNext x, (h.isNext_eq x).2⟩
  | skipBlanks => exact ⟨rfl, h.skipBlanks, h.pending_skipBlanks⟩
  | isAtEnd => exact ⟨congrArg Answer.truth h.isAtEnd_eq, h, rfl⟩

/-- A run of the cursor is one of the two lists. -/
theorem Primed.run_eq (h : c.Primed) (calls : List Call) :
    (run answer c calls).1 = (run Pending.answer c.pending calls).1 ∧
      (run answer c calls).2.Primed ∧
      (run answer c calls).2.pending = (run Pending.answer c.pending calls).2 := by
  refine run_congr (R := fun (c : Cursor) p => c.Primed ∧ c.pending = p) ?_ calls ⟨h, rfl⟩
  rintro c p call ⟨h, rfl⟩
  exact h.answer_eq call

theorem Reachable.primed (h : c.Reachable) : c.Primed := by
  obtain ⟨s, calls, rfl⟩ := h
  exact ((primed_ofSource s).run_eq calls).2.1

/-- A primed cursor is one whose source has been opened and to which its queue was handed back. -/
theorem Primed.reachable (h : c.Primed) : c.Reachable := by
  rcases c with ⟨queue, _ | x, _ | s⟩
  · exact ⟨⟨[]⟩, [.inject queue], rfl⟩
  · cases h
  · cases h
  · exact ⟨⟨.char x :: s.replies⟩, [.inject queue], rfl⟩

theorem reachable_iff : c.Reachable ↔ c.Primed :=
  ⟨Reachable.primed, Primed.reachable⟩

theorem reachable_ofList (cs : List Char) : (ofList cs).Reachable :=
  ⟨Source.ofList cs, [], rfl⟩

theorem Reachable.inject (h : c.Reachable) (cs : List Char) : (c.inject cs).Reachable :=
  (h.primed.inject cs).reachable

theorem Primed.isSome_source (h : c.Primed) : c.source.isSome = !c.pending.rest.isEmpty := by
  rcases c with ⟨queue, _ | x, _ | s⟩ <;> first | rfl | cases h

end Reached

section View

variable {σ τ : Type} [Supply σ] [Supply τ] {f : σ → τ} {P : σ → Prop} {c : Cursor σ}

/-- The cursor with another view of what it reads from. -/
def view (f : σ → τ) (c : Cursor σ) : Cursor τ :=
  ⟨c.queue, c.ahead, f c.source⟩

/-- The view of what is read from gives the same characters. -/
def Faithful (f : σ → τ) : Prop :=
  ∀ s, Supply.read (f s) = ((Supply.read s).1, f (Supply.read s).2)

theorem refill_view (hf : Faithful f) (queue : List Char) (source : σ) :
    refill queue (f source) = (refill queue source).view f := by
  simp only [refill, hf source, view]

theorem pop_view (hf : Faithful f) (c : Cursor σ) :
    (c.view f).pop = (c.pop.1, c.pop.2.view f) := by
  rcases c with ⟨_ | ⟨x, queue⟩, ahead, source⟩
  · exact congrArg (Prod.mk ahead) (refill_view hf [] source)
  · rfl

theorem takeWhile_view (hf : Faithful f) (test : Char → Bool) (c : Cursor σ) :
    (c.view f).takeWhile test = ((c.takeWhile test).1, (c.takeWhile test).2.view f) := by
  fun_induction takeWhile test c with
  | case1 c h => exact takeWhile_of_peek_none h
  | case2 c x h ht xs rest heq ih =>
    have hx : (c.view f).peek = some x := h
    rw [takeWhile_of_pos hx ht, pop_view hf, ih, heq]
  | case3 c x h ht => exact takeWhile_of_neg h ht

theorem isNext_view (hf : Faithful f) (x : Char) (c : Cursor σ) :
    (c.view f).isNext x = ((c.isNext x).1, (c.isNext x).2.view f) := by
  have hskip : (c.view f).skipBlanks = c.skipBlanks.view f :=
    congrArg Prod.snd (takeWhile_view hf isBlank c)
  have hpeek : (c.skipBlanks.view f).peek = c.skipBlanks.peek := rfl
  simp only [isNext, hskip, hpeek, pop_view hf]
  split <;> rfl

/-- Calls answer alike on each faithful view, and keep to it. -/
theorem answer_view (hf : Faithful f) (c : Cursor σ) (call : Call) :
    (c.view f).answer call = ((c.answer call).1, (c.answer call).2.view f) := by
  cases call with
  | peek => rfl
  | pop => simp only [answer, pop_view hf]
  | inject cs => rfl
  | isNext x => simp only [answer, isNext_view hf]
  | skipBlanks => simp only [answer, skipBlanks, takeWhile_view hf]
  | isAtEnd => rfl

theorem source_pop (hP : ∀ s, P s → P (Supply.read s).2) (h : P c.source) : P c.pop.2.source := by
  rcases c with ⟨_ | ⟨x, queue⟩, ahead, source⟩
  · exact hP source h
  · exact h

theorem source_takeWhile (hP : ∀ s, P s → P (Supply.read s).2) (test : Char → Bool)
    (h : P c.source) : P (c.takeWhile test).2.source := by
  fun_induction takeWhile test c with
  | case1 => exact h
  | case2 c x _ _ xs rest heq ih =>
    rw [heq] at ih
    exact ih (source_pop hP h)
  | case3 => exact h

/-- What every reading keeps true of what is read from, every call does. -/
theorem source_answer (hP : ∀ s, P s → P (Supply.read s).2) (h : P c.source) (call : Call) :
    P (c.answer call).2.source := by
  have hskip : P c.skipBlanks.source := source_takeWhile hP isBlank h
  cases call with
  | peek => exact h
  | pop => exact source_pop hP h
  | inject cs => exact h
  | isNext x =>
    simp only [answer, isNext]
    split
    · exact source_pop hP hskip
    · exact hskip
  | skipBlanks => exact hskip
  | isAtEnd => exact h

end View

end Cursor

/-- What is held of a source, and the replies that it has given so far. -/
structure Noting where
  held : Option Source
  given : List Reply

namespace Noting

/-- Notes the replies and is otherwise read as what is held. -/
instance : Supply Noting where
  read n :=
    let (replies, x, held) := Source.request n.held
    (x, ⟨held, n.given ++ replies⟩)
  size n := Supply.size n.held
  size_read n := Supply.size_read n.held

theorem faithful_held : Faithful held :=
  fun _ => rfl

/-- What has been noted is the front of what the source gives, without a stop as long as the source
is held, and up to the first stop once it has been let go. -/
structure Noted (s : Source) (n : Noting) : Prop where
  held : ∀ t ∈ n.held, ∃ front : List Char, n.given = front.map .char ∧
    s.toList = front ++ t.toList ∧ s.ending = t.ending
  released : n.held = none → n.given = s.toList.map .char ++ [.stop s.ending]

variable {s : Source} {n : Noting}

theorem noted_start (s : Source) : Noted s ⟨some s, []⟩ :=
  ⟨fun _ ht => Option.some.inj ht ▸ ⟨[], rfl, rfl, rfl⟩, fun h => nomatch h⟩

theorem Noted.read (h : Noted s n) : Noted s (Supply.read n).2 := by
  rcases n with ⟨_ | t, given⟩
  · refine ⟨fun u hu => (nomatch hu), fun _ => ?_⟩
    exact (List.append_nil given).trans (h.released rfl)
  · obtain ⟨front, rfl, hs, he⟩ := h.held t rfl
    simp only [Supply.read, Source.request]
    rcases hask : t.ask with ⟨x | how, rest⟩
    · obtain ⟨hlist, hend⟩ := Source.of_ask_char hask
      refine ⟨fun u hu => ?_, fun h => nomatch h⟩
      cases hu
      refine ⟨front ++ [x], by simp, ?_, he.trans hend⟩
      rw [hs, hlist, List.append_assoc, List.singleton_append]
    · obtain ⟨hlist, hend⟩ := Source.of_ask_stop hask
      refine ⟨fun u hu => (nomatch hu), fun _ => ?_⟩
      rw [hs, hlist, he, hend, List.append_nil]

end Noting

namespace Cursor

/-- A cursor at the start of a source whose replies are noted. -/
def noting (s : Source) : Cursor Noting :=
  refill [] ⟨some s, []⟩

/-- The calls answer as without notes, and the source's replies are noted. -/
theorem run_noting (s : Source) (calls : List Call) :
    (run answer (noting s) calls).1 = (run answer (ofSource s) calls).1 ∧
      (run answer (noting s) calls).2.view Noting.held = (run answer (ofSource s) calls).2 ∧
      Noting.Noted s (run answer (noting s) calls).2.source := by
  refine run_congr (R := fun (w : Cursor Noting) c => w.view Noting.held = c ∧
    Noting.Noted s w.source) ?_ calls ⟨rfl, (Noting.noted_start s).read⟩
  rintro w c call ⟨rfl, h⟩
  rw [answer_view Noting.faithful_held]
  exact ⟨rfl, rfl, source_answer (fun _ hn => hn.read) h call⟩

/-- On any source and for any row of calls, the answers are those of a queue and a list of the
characters up to the first stop; the source is held just as long as there is a lookahead, which is as
long as the list is not empty; and as long as it is held it has given characters only, and once it
has been let go all its characters and one stop after them. -/
theorem run_refines (s : Source) (calls : List Call) :
    let c := (run answer (ofSource s) calls).2
    let p := (run Pending.answer ⟨[], s.toList⟩ calls).2
    let w := (run answer (noting s) calls).2
    (run answer (ofSource s) calls).1 = (run Pending.answer ⟨[], s.toList⟩ calls).1 ∧
    c.source.isSome = c.ahead.isSome ∧ c.source.isSome = !p.rest.isEmpty ∧
    (run answer (noting s) calls).1 = (run answer (ofSource s) calls).1 ∧
    w.view Noting.held = c ∧
    (c.source.isSome → ∃ front : List Char, front <+: s.toList ∧
      w.source.given = front.map .char) ∧
    (c.source = none → w.source.given = s.toList.map .char ++ [.stop s.ending]) := by
  intro c p w
  obtain ⟨hanswers, hprimed, hpending⟩ := (primed_ofSource s).run_eq calls
  rw [pending_ofSource] at hanswers hpending
  obtain ⟨hsame, hview, hnoted⟩ := run_noting s calls
  have hheld : w.source.held = c.source := congrArg Cursor.source hview
  refine ⟨hanswers, hprimed, ?_, hsame, hview, fun h => ?_, fun h => hnoted.released (hheld.trans h)⟩
  · rw [hprimed.isSome_source, hpending]
  · obtain ⟨t, ht⟩ := Option.isSome_iff_exists.1 h
    obtain ⟨front, hgiven, hlist, -⟩ := hnoted.held t (hheld.trans ht)
    exact ⟨front, ⟨t.toList, hlist.symm⟩, hgiven⟩

end Cursor

end Reckoner
