import Mathlib.Data.List.DropRight
import Reckoner.Proofs.Json.Writing

/-!
# What a refused piece leaves

Where a piece is refused, the operations in front of it were all done and it changed nothing itself
(`Json.Writer.exists_of_run_refused`), so the writer stays as many levels deeper as brackets are open
there. It is back at its depth just if the piece stands in front of the value's entries or behind them,
and a later value is written as it would have been just if no lines are used, or the writer is back at
its depth, or that value has no entries (`Json.depth_of_write_refused`).
-/

namespace Reckoner

namespace Json

namespace Writer

section Keeps

variable {α : Type} {f : Writer → α} {a b : Action} {w : Writer}

/-- The action leaves this part of the writer as it is, whether it is refused or not. -/
def Keeps (f : Writer → α) (a : Action) : Prop :=
  ∀ w, f (a w).2 = f w

theorem andThen_eq (a b : Action) (w : Writer) :
    andThen a b w = if (a w).1 then b (a w).2 else (false, (a w).2) := by
  rw [andThen]
  rcases a w with ⟨_ | _, w'⟩ <;> rfl

theorem Keeps.andThen (ha : Keeps f a) (hb : Keeps f b) : Keeps f (andThen a b) := by
  intro w
  rw [andThen_eq]
  split
  · rw [hb, ha]
  · exact ha w

theorem keeps_pieces (hf : ∀ cs, Keeps f (piece cs)) : (ps : List (List Char)) → Keeps f (pieces ps)
  | [] => fun _ => rfl
  | p :: ps => (hf p).andThen (keeps_pieces hf ps)

theorem keeps_newLine (hf : ∀ cs, Keeps f (piece cs)) : Keeps f newLine := by
  intro w
  rw [newLine]
  split
  · exact keeps_pieces hf _ w
  · rfl

theorem keeps_indent_run : (ops : List Op) → Keeps indent (run ops)
  | [] => fun _ => rfl
  | op :: ops => by
    have hpiece : ∀ cs, Keeps indent (piece cs) := fun _ _ => rfl
    refine Keeps.andThen ?_ (keeps_indent_run ops)
    cases op with
    | piece cs => exact hpiece cs
    | separator => exact fun _ => rfl
    | newLine => exact keeps_newLine hpiece
    | deepen | rise => exact fun _ => rfl

end Keeps

section Refused

variable {w u : Writer} {ops : List Op}

/-- An operation that is refused does not move to another depth. -/
theorem depth_of_act_refused {op : Op} (h : op.act w = (false, u)) : u.depth = w.depth := by
  have hpiece : ∀ cs, Keeps depth (piece cs) := fun _ _ => rfl
  have hu : u = (op.act w).2 := by rw [h]
  rw [hu]
  cases op with
  | piece cs => exact hpiece cs w
  | separator => rfl
  | newLine => exact keeps_newLine hpiece w
  | deepen | rise => cases h

/-- A row of operations that fails has one that is refused behind others that were done. -/
theorem exists_of_run_refused (h : run ops w = (false, u)) : ∃ before op after v,
    ops = before ++ op :: after ∧ run before w = (true, v) ∧ op.act v = (false, u) := by
  induction ops generalizing w with
  | nil => cases h
  | cons op ops ih =>
    rw [run, andThen_eq] at h
    rcases hop : op.act w with ⟨_ | _, w'⟩ <;> rw [hop] at h
    · cases h
      exact ⟨[], op, ops, w, rfl, rfl, hop⟩
    · obtain ⟨before, op', after, v, rfl, hbefore, hrefused⟩ := ih h
      refine ⟨op :: before, op', after, v, rfl, ?_, hrefused⟩
      rw [run, andThen_eq, hop]
      exact hbefore

theorem climb_add {depth k : Nat} (h : climb depth ops = some k) (n : Nat) :
    climb (n + depth) ops = some (n + k) := by
  fun_induction climb depth ops with
  | case1 => rw [climb, Option.some.inj h]
  | case2 depth ops ih => exact ih h
  | case3 => cases h
  | case4 depth ops ih => exact ih h
  | case5 depth op ops hdeepen hground hrise ih =>
    cases op with
    | piece | separator | newLine => exact ih h
    | deepen => exact absurd rfl hdeepen
    | rise =>
      cases depth with
      | zero => exact absurd rfl (hground rfl)
      | succ d => exact absurd rfl (hrise d rfl)

/-- Where operations never rise above their beginning, one that is refused leaves the writer as many
levels deeper as those in front of it climb. -/
theorem exists_climb_of_run_refused (hclimb : (climb 0 ops).isSome) (h : run ops w = (false, u)) :
    ∃ before op after v k, ops = before ++ op :: after ∧ run before w = (true, v) ∧
      op.act v = (false, u) ∧ climb 0 before = some k ∧ u.depth = w.depth + k := by
  obtain ⟨before, op, after, v, rfl, hbefore, hrefused⟩ := exists_of_run_refused h
  obtain ⟨n, hn⟩ := Option.isSome_iff_exists.1 hclimb
  rw [climb_append, Option.bind_eq_some_iff] at hn
  obtain ⟨k, hk, -⟩ := hn
  refine ⟨before, op, after, v, k, rfl, hbefore, hrefused, hk, ?_⟩
  rw [depth_of_act_refused hrefused, depth_run hbefore]
  exact foldl_level_of_climb (climb_add hk w.depth)

theorem depth_le_of_run_refused (hclimb : (climb 0 ops).isSome) (h : run ops w = (false, u)) :
    w.depth ≤ u.depth := by
  obtain ⟨_, _, _, _, k, -, -, -, -, hdepth⟩ := exists_climb_of_run_refused hclimb h
  omega

end Refused

/-- Operations do the same at two depths if no lines are used, or none of them starts one. -/
theorem run_agree {ops : List Op} {a b : Writer} (h : a.indent = false ∨ .newLine ∉ ops)
    (hsink : a.sink = b.sink) (hindent : a.indent = b.indent) :
    (run ops a).1 = (run ops b).1 ∧ (run ops a).2.sink = (run ops b).2.sink := by
  induction ops generalizing a b with
  | nil => exact ⟨rfl, hsink⟩
  | cons op ops ih =>
    have hact : (op.act a).1 = (op.act b).1 ∧ (op.act a).2.sink = (op.act b).2.sink := by
      cases op with
      | piece cs => simp [Op.act, piece, hsink]
      | separator => simp [Op.act, separator, piece, hsink, hindent]
      | newLine =>
        have hflat : a.indent = false := h.resolve_right (by simp)
        simp [Op.act, newLine, ← hindent, hflat, hsink]
      | deepen | rise => exact ⟨rfl, hsink⟩
    have hkeeps : ∀ w : Writer, (op.act w).2.indent = w.indent := by
      intro w
      have := keeps_indent_run [op] w
      rwa [run_singleton] at this
    rw [run, andThen_eq, andThen_eq, ← hact.1]
    split
    · refine ih (h.imp (fun ha => ?_) fun hn => ?_) hact.2 ?_
      · rw [hkeeps, ha]
      · exact fun hmem => hn (List.mem_cons_of_mem op hmem)
      · rw [hkeeps, hkeeps, hindent]
    · exact ⟨rfl, hact.2⟩

section Bracketed

variable {w u : Writer} {ops : List Op}

theorem run_of_fits (h : w.sink.Fits (text w.indent w.depth ops)) :
    run ops w = (true, { w with
      sink := w.sink.put (text w.indent w.depth ops), depth := ops.foldl Op.level w.depth }) := by
  cases sends_run ops w with
  | taken htaken _ => exact htaken
  | refused _ _ _ hfits => exact absurd h hfits

theorem fits_of_run {v : Writer} (h : run ops w = (true, v)) (hne : text w.indent w.depth ops ≠ []) :
    w.sink.Fits (text w.indent w.depth ops) := by
  cases sends_run ops w with
  | taken _ hfits => exact hfits.resolve_left hne
  | refused _ hfalse _ _ =>
    rw [h] at hfalse
    cases hfalse

/-- Where a bracket and what follows it one level deeper is refused, the writer is back at its depth just
if there is no room for the bracket. -/
theorem depth_of_opening_refused {left : Char} (hclimb : (climb 0 ops).isSome)
    (h : run (.piece [left] :: .deepen :: ops) w = (false, u)) :
    u.depth = w.depth ↔ ¬ w.sink.Fits [left] := by
  rw [run, andThen_eq, Op.act, piece] at h
  by_cases hleft : w.sink.Fits [left]
  · rw [Sink.take_of_fits hleft] at h
    have hle : w.depth + 1 ≤ u.depth := depth_le_of_run_refused hclimb h
    exact iff_of_false (Nat.ne_of_gt hle) (not_not_intro hleft)
  · rw [Sink.take_of_not_fits hleft] at h
    exact iff_of_true (by rw [← (Prod.mk.inj h).2]) hleft

theorem depth_of_closing_refused {right : Char}
    (h : run [.rise, .newLine, .piece [right]] w = (false, u)) : u.depth = w.depth - 1 := by
  have hkeeps : Keeps depth (run [.newLine, .piece [right]]) :=
    (keeps_newLine fun _ _ => rfl).andThen (Keeps.andThen (fun _ => rfl) fun _ => rfl)
  have hrun : run [.newLine, .piece [right]] { w with depth := w.depth - 1 } = (false, u) := h
  have hdepth := hkeeps { w with depth := w.depth - 1 }
  rwa [hrun] at hdepth

/-- Of what stands between brackets, a refused piece leaves the writer deeper just if it comes behind
the opening bracket and before the end of the body. -/
theorem depth_of_bracketed_refused {left right : Char} {body : List Op}
    (hbody : ∀ depth, climb depth body = some depth)
    (h : run (.piece [left] :: .deepen :: (body ++ [.rise, .newLine, .piece [right]])) w = (false, u)) :
    u.depth = w.depth ↔
      (w.sink.Fits [left] → w.sink.Fits (left :: text w.indent (w.depth + 1) body)) := by
  have hsplit : .piece [left] :: .deepen :: (body ++ [.rise, .newLine, .piece [right]]) =
      (.piece [left] :: .deepen :: body) ++ [Op.rise, .newLine, .piece [right]] := rfl
  have htext : text w.indent w.depth (.piece [left] :: .deepen :: body) =
      left :: text w.indent (w.depth + 1) body := rfl
  rw [hsplit, run_append, andThen_eq] at h
  -- With room for the body, only what comes behind it can have been refused.
  by_cases hfits : w.sink.Fits (left :: text w.indent (w.depth + 1) body)
  · have hlevel : (Op.piece [left] :: .deepen :: body).foldl Op.level w.depth = w.depth + 1 :=
      foldl_level_of_climb (hbody (w.depth + 1))
    rw [run_of_fits (htext ▸ hfits), if_pos rfl, hlevel] at h
    exact iff_of_true (depth_of_closing_refused h) fun _ => hfits
  · rcases hrun : run (.piece [left] :: .deepen :: body) w with ⟨_ | _, v⟩
    · obtain rfl : v = u := by
        rw [hrun] at h
        exact (Prod.mk.inj h).2
      rw [depth_of_opening_refused (by rw [hbody]; rfl) hrun]
      exact ⟨fun hleft hfit => absurd hfit hleft, fun himp hleft => hfits (himp hleft)⟩
    · exact absurd (htext ▸ fits_of_run hrun (by simp [text, Op.chars])) hfits

end Bracketed

/-- How deep a line stands is told by its text. -/
theorem depth_eq_of_lineBreak {a b : List Char} {m n : Nat}
    (h : a ++ lineBreak true m = b ++ lineBreak true n) : m = n := by
  have htabs : ∀ (cs : List Char) (k : Nat),
      ((cs ++ lineBreak true k).rtakeWhile (· = '\t')).length = k := by
    intro cs k
    induction k with
    | zero => simp [lineBreak]
    | succ k ih =>
      have hbreak : cs ++ lineBreak true (k + 1) = cs ++ lineBreak true k ++ ['\t'] := by
        simp [lineBreak, List.replicate_succ']
      rw [hbreak, List.rtakeWhile_concat_pos _ _ _ (by simp), List.length_append, ih,
        List.length_singleton]
  rw [← htabs a m, h, htabs b n]

end Writer

open Writer

/-- The bracket that opens a value with entries. -/
def opening : Json → List Char
  | object (_ :: _) => ['\x7b']
  | array (_ :: _) => ['[']
  | _ => []

/-- The text of a value's entries, without the brackets. -/
def entryChars (indent : Bool) (depth : Nat) : Json → List Char
  | object (m :: ms) => memberChars indent (depth + 1) (m :: ms)
  | array (v :: vs) => itemChars indent (depth + 1) (v :: vs)
  | _ => []

/-- A value without entries is written at one depth. -/
theorem exists_pieces_of_opening {v : Json} (h : v.opening = []) :
    ∃ ps : List (List Char), v.ops = ps.map .piece := by
  cases v with
  | object ms =>
    cases ms with
    | nil => exact ⟨[['\x7b', '\x7d']], by rw [ops]; rfl⟩
    | cons m ms => cases h
  | array vs =>
    cases vs with
    | nil => exact ⟨[['[', ']']], by rw [ops]; rfl⟩
    | cons v vs => cases h
  | number n => exact ⟨numberPieces n, by rw [ops]⟩
  | boolean b => exact ⟨[(toString b).toList], by rw [ops]; rfl⟩
  | string s => exact ⟨[['"'], s.toList, ['"']], by rw [ops, quotedOps]⟩
  | null => exact ⟨["null".toList], by rw [ops]; rfl⟩

/-- The last line of a value with entries starts at the value's depth. -/
theorem exists_chars_of_opening {v : Json} (h : v.opening ≠ []) :
    ∃ close : Char, ∀ depth, ∃ front, v.chars true depth = front ++ lineBreak true depth ++ [close] := by
  cases v with
  | object ms =>
    cases ms with
    | nil => exact absurd rfl h
    | cons m ms => exact ⟨'\x7d', fun depth => ⟨_, by rw [chars]⟩⟩
  | array vs =>
    cases vs with
    | nil => exact absurd rfl h
    | cons v vs => exact ⟨']', fun depth => ⟨_, by rw [chars]⟩⟩
  | number _ | boolean _ | string _ | null => exact absurd rfl h

section Refused

variable {v : Json} {w u : Writer}

theorem depth_of_write_flat (hv : v.opening = []) (h : write v w = (false, u)) : u.depth = w.depth := by
  obtain ⟨ps, hps⟩ := exists_pieces_of_opening hv
  have hkeeps : Keeps depth (pieces ps) := keeps_pieces (fun _ _ => rfl) ps
  rw [write_eq_run, hps, run_pieces] at h
  have hdepth := hkeeps w
  rwa [h] at hdepth

theorem depth_eq_iff_of_write_refused (h : write v w = (false, u)) : u.depth = w.depth ↔
    (w.sink.Fits v.opening → w.sink.Fits (v.opening ++ v.entryChars w.indent w.depth)) := by
  cases v with
  | object ms =>
    cases ms with
    | nil => exact iff_of_true (depth_of_write_flat rfl h) fun hfits => hfits
    | cons m ms =>
      rw [write_eq_run, ops] at h
      have hbracketed := depth_of_bracketed_refused (climb_memberOps (m :: ms)) h
      rw [text_memberOps] at hbracketed
      exact hbracketed
  | array vs =>
    cases vs with
    | nil => exact iff_of_true (depth_of_write_flat rfl h) fun hfits => hfits
    | cons v vs =>
      rw [write_eq_run, ops] at h
      have hbracketed := depth_of_bracketed_refused (climb_itemOps (v :: vs)) h
      rw [text_itemOps] at hbracketed
      exact hbracketed
  | number _ | boolean _ | string _ | null =>
    exact iff_of_true (depth_of_write_flat rfl h) fun hfits => hfits

/-- Two writers into one sink: both take the same of the value, and hold the same then. -/
def WritesAlike (v : Json) (u w : Writer) : Prop :=
  ∀ s : Sink, (write v { u with sink := s }).1 = (write v { w with sink := s }).1 ∧
    (write v { u with sink := s }).2.sink = (write v { w with sink := s }).2.sink

theorem sink_write_unbounded (v : Json) (w : Writer) :
    (write v { w with sink := ⟨[], none⟩ }).2.sink = ⟨v.chars w.indent w.depth, none⟩ := by
  cases sends_write v { w with sink := ⟨[], none⟩ } with
  | taken htaken _ =>
    rw [htaken]
    rfl
  | refused _ _ _ hfits => exact absurd (fun _ hroom => nomatch hroom) hfits

theorem writesAlike_iff (hindent : u.indent = w.indent) :
    WritesAlike v u w ↔ w.indent = false ∨ u.depth = w.depth ∨ v.opening = [] := by
  constructor
  · intro halike
    by_contra hnot
    rw [not_or, not_or, Bool.not_eq_false] at hnot
    obtain ⟨hlines, hdepth, hopening⟩ := hnot
    have hsink := (halike ⟨[], none⟩).2
    rw [sink_write_unbounded, sink_write_unbounded, hindent, hlines] at hsink
    obtain ⟨close, hchars⟩ := exists_chars_of_opening hopening
    obtain ⟨a, ha⟩ := hchars u.depth
    obtain ⟨b, hb⟩ := hchars w.depth
    rw [ha, hb] at hsink
    exact hdepth (depth_eq_of_lineBreak (List.append_cancel_right (Sink.mk.inj hsink).1))
  · intro h s
    rw [write_eq_run]
    rcases h with hlines | hdepth | hopening
    · exact run_agree (.inl (hindent.trans hlines)) rfl hindent
    · have heq : ({ u with sink := s } : Writer) = { w with sink := s } := by rw [hindent, hdepth]
      rw [heq]
      exact ⟨rfl, rfl⟩
    · obtain ⟨ps, hps⟩ := exists_pieces_of_opening hopening
      exact run_agree (.inr (by simp [hps])) rfl hindent

/-- When a piece of a value is refused, what comes in front of it was done, and the writer stays as many
levels deeper as brackets are open there. So it is back at its depth exactly if the sink has no room for
the opening bracket, or has room for all entries as well. A later value is written as if nothing had been
refused exactly if no lines are used, or the writer is back at its depth, or that value has no
entries. -/
theorem depth_of_write_refused (h : write v w = (false, u)) :
    (∃ before op after w' k, v.ops = before ++ op :: after ∧ run before w = (true, w') ∧
      op.act w' = (false, u) ∧ climb 0 before = some k ∧ u.depth = w.depth + k) ∧
    (u.depth = w.depth ↔
      (w.sink.Fits v.opening → w.sink.Fits (v.opening ++ v.entryChars w.indent w.depth))) ∧
    ∀ later, WritesAlike later u w ↔ w.indent = false ∨ u.depth = w.depth ∨ later.opening = [] := by
  have hrun := h
  rw [write_eq_run] at hrun
  have hindent : u.indent = w.indent := by
    have hkeeps := keeps_indent_run v.ops w
    rwa [hrun] at hkeeps
  have hclimb : (climb 0 v.ops).isSome := by
    rw [climb_ops]
    rfl
  exact ⟨exists_climb_of_run_refused hclimb hrun, depth_eq_iff_of_write_refused h, fun _ =>
    writesAlike_iff hindent⟩

/-- A closing bracket that is refused leaves the writer at its depth. -/
theorem depth_of_write_refused_close :
    let w : Writer := ⟨⟨[], some 8⟩, true, 0⟩
    ∃ u, write (array [null]) w = (false, u) ∧ u.depth = 0 ∧ ∀ later, WritesAlike later u w := by
  intro w
  refine ⟨_, rfl, rfl, fun later => ?_⟩
  exact ((depth_of_write_refused (v := array [null]) (w := w) rfl).2.2 later).2 (.inr (.inl rfl))

/-- Refused inside an array, the writer stays one level deeper and writes the next array from there. -/
theorem depth_of_write_refused_inside :
    let v := array [boolean false]
    let w : Writer := ⟨⟨[], some 7⟩, true, 0⟩
    ∃ u, write v w = (false, u) ∧ u.depth ≠ w.depth ∧
      (write v { u with sink := ⟨[], none⟩ }).2.sink ≠ (write v { w with sink := ⟨[], none⟩ }).2.sink := by
  intro v w
  refine ⟨⟨⟨['[', '\n', '\t'], some 7⟩, true, 1⟩, rfl, by decide, fun hsink => ?_⟩
  rw [sink_write_unbounded, sink_write_unbounded] at hsink
  exact absurd (congrArg List.length (Sink.mk.inj hsink).1) (by decide)

end Refused
end Json
end Reckoner
