import Reckoner.Json.Writer
import Reckoner.Proofs.Decimal.ReadBack
import Reckoner.Proofs.Json.Contents

/-!
# What a writer sends

Writing a value is a row of operations, each of which sends some characters or moves to another depth
(`Json.write_eq_run`). A row of operations sends its characters up to the first piece that the sink
refuses (`Json.Writer.sends_run`). The characters of a value's operations are its text
(`Json.text_ops`), and no operation rises above the depth where the value began (`Json.climb_ops`).
So a value that does not fit is cut short, and one that fits is written in full
(`Json.write_sends_front`).
-/

namespace Reckoner

theorem byteCount_append (a b : List Char) : byteCount (a ++ b) = byteCount a + byteCount b := by
  induction a with
  | nil => rw [List.nil_append, byteCount, Nat.zero_add]
  | cons c a ih => rw [List.cons_append, byteCount, byteCount, ih, Nat.add_assoc]

namespace Sink

variable {s : Sink} {cs ds : List Char}

/-- There is room for the characters behind what the sink holds. -/
def Fits (s : Sink) (cs : List Char) : Prop :=
  ∀ room ∈ s.room, byteCount (s.text ++ cs) ≤ room

/-- The sink with the characters behind what it holds. -/
def put (s : Sink) (cs : List Char) : Sink :=
  { s with text := s.text ++ cs }

theorem put_nil (s : Sink) : s.put [] = s := by
  rw [put, List.append_nil]

theorem put_put (s : Sink) (cs ds : List Char) : (s.put cs).put ds = s.put (cs ++ ds) := by
  rw [put, put, put, List.append_assoc]

theorem fits_put : (s.put cs).Fits ds ↔ s.Fits (cs ++ ds) := by
  rw [Fits, Fits, put, List.append_assoc]

theorem Fits.of_append (h : s.Fits (cs ++ ds)) : s.Fits cs := by
  intro room hroom
  have := h room hroom
  rw [← List.append_assoc, byteCount_append] at this
  omega

theorem take_of_fits (h : s.Fits cs) : s.take cs = (true, s.put cs) := by
  rw [take, if_pos, put]
  rw [Option.all_eq_true]
  intro room hroom
  rw [decide_eq_true_eq, ← byteCount_append]
  exact h room hroom

theorem take_of_not_fits (h : ¬ s.Fits cs) : s.take cs = (false, s) := by
  rw [take, if_neg]
  intro hall
  rw [Option.all_eq_true] at hall
  refine h fun room hroom => ?_
  rw [byteCount_append]
  simpa using hall room hroom

end Sink

namespace Json

namespace Writer

section Sends

variable {a b : Action} {w : Writer} {cs ds : List Char} {m n : Nat}

/-- The action sends the characters and comes to the depth, unless the sink has no room for them. Then
it sends a front of them. -/
inductive Sends (a : Action) (w : Writer) (cs : List Char) (n : Nat) : Prop
  | taken : a w = (true, { w with sink := w.sink.put cs, depth := n }) → cs = [] ∨ w.sink.Fits cs →
    Sends a w cs n
  | refused {pre : List Char} : pre <+: cs → (a w).1 = false → (a w).2.sink = w.sink.put pre →
    ¬ w.sink.Fits cs → Sends a w cs n

theorem sends_done (w : Writer) : Sends done w [] w.depth :=
  .taken (by rw [Sink.put_nil]; rfl) (.inl rfl)

theorem sends_piece (cs : List Char) (w : Writer) : Sends (piece cs) w cs w.depth := by
  by_cases h : w.sink.Fits cs
  · exact .taken (by rw [piece, Sink.take_of_fits h]) (.inr h)
  · have hw : piece cs w = (false, w) := by rw [piece, Sink.take_of_not_fits h]
    exact .refused (List.nil_prefix) (by rw [hw]) (by rw [hw, Sink.put_nil]) h

/-- What is refused later is refused behind what was taken before. -/
theorem Sends.andThen (ha : Sends a w cs m)
    (hb : Sends b { w with sink := w.sink.put cs, depth := m } ds n) :
    Sends (andThen a b) w (cs ++ ds) n := by
  cases ha with
  | @refused pre hpre hfalse hsink hfits =>
    have hw : Writer.andThen a b w = (false, (a w).2) := by
      rw [Writer.andThen]
      split
      · rename_i heq
        rw [heq] at hfalse
        cases hfalse
      · rename_i heq
        rw [heq]
    refine .refused (hpre.trans (List.prefix_append cs ds)) (by rw [hw]) (by rw [hw, hsink]) ?_
    exact fun h => hfits h.of_append
  | taken htaken hfits =>
    have hw : Writer.andThen a b w = b { w with sink := w.sink.put cs, depth := m } := by
      rw [Writer.andThen, htaken]
    cases hb with
    | @refused pre hpre hfalse hsink hfits' =>
      rw [Sink.fits_put] at hfits'
      rw [Sink.put_put] at hsink
      refine .refused ((List.prefix_append_right_inj cs).2 hpre) (by rw [hw, hfalse]) ?_ hfits'
      rw [hw, hsink]
    | taken htaken' hfits' =>
      rw [Sink.put_put] at htaken'
      refine .taken (hw.trans htaken') ?_
      rw [Sink.fits_put] at hfits'
      rcases hfits' with rfl | hfits'
      · rwa [List.append_nil]
      · exact .inr hfits'

theorem sends_pieces : (ps : List (List Char)) → (w : Writer) → Sends (pieces ps) w ps.flatten w.depth
  | [], w => sends_done w
  | p :: ps, w => (sends_piece p w).andThen (sends_pieces ps _)

end Sends

/-- What a writer does at a time. -/
inductive Op where
  | piece (cs : List Char)
  | separator
  | newLine
  | deepen
  | rise

namespace Op

/-- The operation as an action. -/
def act : Op → Action
  | piece cs => Writer.piece cs
  | separator => Writer.separator
  | newLine => Writer.newLine
  | deepen => Writer.deepen
  | rise => Writer.rise

/-- The characters that the operation sends at a depth. -/
def chars (indent : Bool) (depth : Nat) : Op → List Char
  | piece cs => cs
  | separator => colon indent
  | newLine => lineBreak indent depth
  | deepen | rise => []

/-- The depth that the operation comes to. -/
def level (depth : Nat) : Op → Nat
  | deepen => depth + 1
  | rise => depth - 1
  | piece _ | separator | newLine => depth

end Op

/-- Does the operations in order, up to the first piece that is refused. -/
def run : List Op → Action
  | [] => done
  | op :: ops => andThen op.act (run ops)

/-- The characters that the operations send, from a depth on. -/
def text (indent : Bool) : Nat → List Op → List Char
  | _, [] => []
  | depth, op :: ops => op.chars indent depth ++ text indent (op.level depth) ops

/-- The depth that the operations come to, if none of them rises from the ground. -/
def climb : Nat → List Op → Option Nat
  | depth, [] => some depth
  | depth, .deepen :: ops => climb (depth + 1) ops
  | 0, .rise :: _ => none
  | depth + 1, .rise :: ops => climb depth ops
  | depth, _ :: ops => climb depth ops

theorem andThen_assoc (a b c : Action) : andThen (andThen a b) c = andThen a (andThen b c) := by
  funext w
  rw [andThen, andThen, andThen]
  rcases a w with ⟨_ | _, w⟩ <;> rfl

theorem andThen_done (a : Action) : andThen a done = a := by
  funext w
  rw [andThen]
  rcases a w with ⟨_ | _, w⟩ <;> rfl

theorem run_append (xs ys : List Op) : run (xs ++ ys) = andThen (run xs) (run ys) := by
  induction xs with
  | nil => rfl
  | cons op xs ih => rw [List.cons_append, run, ih, run, andThen_assoc]

theorem run_singleton (op : Op) : run [op] = op.act :=
  andThen_done op.act

theorem run_pieces (ps : List (List Char)) : run (ps.map .piece) = pieces ps := by
  induction ps with
  | nil => rfl
  | cons p ps ih =>
    rw [List.map_cons, run, ih]
    rfl

theorem text_append (indent : Bool) (depth : Nat) (xs ys : List Op) :
    text indent depth (xs ++ ys) =
      text indent depth xs ++ text indent (xs.foldl Op.level depth) ys := by
  induction xs generalizing depth with
  | nil => rfl
  | cons op xs ih => rw [List.cons_append, text, ih, text, List.foldl_cons, List.append_assoc]

theorem text_pieces (indent : Bool) (depth : Nat) (ps : List (List Char)) :
    text indent depth (ps.map .piece) = ps.flatten := by
  induction ps with
  | nil => rfl
  | cons p ps ih => rw [List.map_cons, text, Op.level, ih, Op.chars, List.flatten_cons]

theorem climb_append (depth : Nat) (xs ys : List Op) :
    climb depth (xs ++ ys) = (climb depth xs).bind fun d => climb d ys := by
  fun_induction climb depth xs with
  | case1 => rfl
  | case2 depth ops ih => rw [List.cons_append, climb, ih]
  | case3 => rfl
  | case4 depth ops ih => rw [List.cons_append, climb, ih]
  | case5 depth op ops hdeepen hground hrise ih => cases op <;> simp_all [climb]

theorem climb_pieces (depth : Nat) (ps : List (List Char)) :
    climb depth (ps.map .piece) = some depth := by
  induction ps with
  | nil => rfl
  | cons p ps ih => rw [List.map_cons, climb, ih] <;> simp

theorem foldl_level_of_climb {depth n : Nat} {ops : List Op} (h : climb depth ops = some n) :
    ops.foldl Op.level depth = n := by
  fun_induction climb depth ops with
  | case1 => exact Option.some.inj h
  | case2 depth ops ih => exact ih h
  | case3 => cases h
  | case4 depth ops ih => exact ih h
  | case5 depth op ops hdeepen hground hrise ih =>
    rw [List.foldl_cons]
    cases op with
    | piece | separator | newLine => exact ih h
    | deepen => exact absurd rfl hdeepen
    | rise =>
      cases depth with
      | zero => exact absurd rfl (hground rfl)
      | succ d => exact absurd rfl (hrise d rfl)

section Run

variable {a b : Action} {w : Writer} {cs : List Char} {n : Nat}

theorem Sends.congr (h : Sends b w cs n) (hab : a w = b w) : Sends a w cs n := by
  cases h with
  | taken htaken hfits => exact .taken (hab.trans htaken) hfits
  | refused hpre hfalse hsink hfits => exact .refused hpre (hab ▸ hfalse) (hab ▸ hsink) hfits

theorem sends_newLine (w : Writer) : Sends newLine w (lineBreak w.indent w.depth) w.depth := by
  by_cases h : w.indent = true
  · have hpieces := sends_pieces (['\n'] :: List.replicate w.depth ['\t']) w
    rw [List.flatten_cons, List.flatten_replicate_singleton] at hpieces
    rw [lineBreak, if_pos h]
    exact hpieces.congr (by rw [newLine, if_pos h])
  · rw [lineBreak, if_neg h]
    exact (sends_done w).congr (by rw [newLine, if_neg h]; rfl)

theorem sends_act (op : Op) (w : Writer) :
    Sends op.act w (op.chars w.indent w.depth) (op.level w.depth) := by
  cases op with
  | piece cs => exact sends_piece cs w
  | separator => exact (sends_piece (colon w.indent) w).congr rfl
  | newLine => exact sends_newLine w
  | deepen => exact .taken (by rw [Op.chars, Sink.put_nil]; rfl) (.inl rfl)
  | rise => exact .taken (by rw [Op.chars, Sink.put_nil]; rfl) (.inl rfl)

/-- Operations send their characters, up to the first piece for which there is no room. -/
theorem sends_run : (ops : List Op) → (w : Writer) →
    Sends (run ops) w (text w.indent w.depth ops) (ops.foldl Op.level w.depth)
  | [], w => sends_done w
  | op :: ops, w => (sends_act op w).andThen (sends_run ops _)

theorem depth_run {ops : List Op} {u : Writer} (h : run ops w = (true, u)) :
    u.depth = ops.foldl Op.level w.depth := by
  cases sends_run ops w with
  | taken htaken _ =>
    rw [htaken] at h
    rw [← (Prod.mk.inj h).2]
  | refused _ hfalse _ _ =>
    rw [h] at hfalse
    cases hfalse

end Run

/-- Where operations never rise from the ground, each rise comes at a depth. -/
theorem depth_pos_of_climb {before after : List Op} {w u : Writer} {n : Nat}
    (h : climb w.depth (before ++ .rise :: after) = some n) (hu : run before w = (true, u)) :
    0 < u.depth := by
  rw [climb_append, Option.bind_eq_some_iff] at h
  obtain ⟨d, hbefore, hafter⟩ := h
  rw [depth_run hu, foldl_level_of_climb hbefore]
  cases d with
  | zero => cases hafter
  | succ d => exact d.succ_pos

/-- A string between quotes. -/
def quotedOps (s : String) : List Op :=
  [['"'], s.toList, ['"']].map .piece

/-- The pieces of a number. -/
def numberPieces (n : Float) : List (List Char) :=
  if n.isFinite then (Decimal.ofRank (hasMinus n) (rankOfFloat n)).pieces else ["null".toList]

/-- A comma, unless nothing follows. -/
def commaOps (last : Bool) : List Op :=
  (if last then [] else [[',']]).map .piece

theorem flatten_numberPieces (n : Float) : (numberPieces n).flatten = numberChars n := by
  rw [numberPieces, numberChars]
  split
  · rw [Decimal.flatten_pieces, Decimal.toList_text ‹_›]
  · exact List.append_nil _

theorem pieces_numberPieces (n : Float) : pieces (numberPieces n) = number n := by
  rw [numberPieces, number]
  split
  · rfl
  · exact andThen_done _

theorem run_commaOps (last : Bool) : run (commaOps last) = if last then done else piece [','] := by
  cases last
  · exact run_singleton _
  · rfl

end Writer

open Writer

mutual

/-- What a writer does to write the value. -/
def ops : Json → List Op
  | object [] => [.piece ['\x7b', '\x7d']]
  | object (m :: ms) =>
    .piece ['\x7b'] :: .deepen :: (memberOps (m :: ms) ++ [.rise, .newLine, .piece ['\x7d']])
  | array [] => [.piece ['[', ']']]
  | array (v :: vs) =>
    .piece ['['] :: .deepen :: (itemOps (v :: vs) ++ [.rise, .newLine, .piece [']']])
  | number n => (numberPieces n).map .piece
  | boolean b => [.piece (toString b).toList]
  | string s => quotedOps s
  | null => [.piece "null".toList]

/-- What a writer does to write members. -/
def memberOps : List (String × Json) → List Op
  | [] => []
  | (k, v) :: rest =>
    .newLine :: (quotedOps k ++ .separator :: (v.ops ++ (commaOps rest.isEmpty ++ memberOps rest)))

/-- What a writer does to write items. -/
def itemOps : List Json → List Op
  | [] => []
  | v :: rest => .newLine :: (v.ops ++ (commaOps rest.isEmpty ++ itemOps rest))

end

mutual

/-- Writing a value is doing its operations. -/
theorem write_eq_run : (v : Json) → write v = run v.ops
  | object [] => by rw [write, ops, run_singleton, Op.act]
  | object (m :: ms) => by
    simp only [write, ops, run, run_append, writeMembers_eq_run (m :: ms), Op.act, andThen_assoc,
      andThen_done]
  | array [] => by rw [write, ops, run_singleton, Op.act]
  | array (v :: vs) => by
    simp only [write, ops, run, run_append, writeItems_eq_run (v :: vs), Op.act, andThen_assoc,
      andThen_done]
  | number n => by rw [write, ops, run_pieces, pieces_numberPieces]
  | boolean b => by rw [write, ops, run_singleton, Op.act]
  | string s => by rw [write, ops, quotedOps, run_pieces, Writer.quoted]
  | null => by rw [write, ops, run_singleton, Op.act]

theorem writeMembers_eq_run : (ms : List (String × Json)) → writeMembers ms = run (memberOps ms)
  | [] => by rw [writeMembers, memberOps, run]
  | (k, v) :: rest => by
    simp only [writeMembers, memberOps, run, run_append, quotedOps, run_pieces, run_commaOps,
      write_eq_run v, writeMembers_eq_run rest, Op.act, andThen_assoc, Writer.quoted]

theorem writeItems_eq_run : (vs : List Json) → writeItems vs = run (itemOps vs)
  | [] => by rw [writeItems, itemOps, run]
  | v :: rest => by
    simp only [writeItems, itemOps, run, run_append, run_commaOps, write_eq_run v,
      writeItems_eq_run rest, Op.act, andThen_assoc]

end

mutual

/-- Every rise comes back from where the value went deeper. -/
theorem climb_ops : (v : Json) → (depth : Nat) → climb depth v.ops = some depth
  | object [], _ => by simp [ops, climb]
  | object (m :: ms), depth => by
    simp [ops, climb, climb_append, climb_memberOps (m :: ms) (depth + 1)]
  | array [], _ => by simp [ops, climb]
  | array (v :: vs), depth => by
    simp [ops, climb, climb_append, climb_itemOps (v :: vs) (depth + 1)]
  | number n, depth => by rw [ops, climb_pieces]
  | boolean b, _ => by simp [ops, climb]
  | string s, depth => by rw [ops, quotedOps, climb_pieces]
  | null, _ => by simp [ops, climb]

theorem climb_memberOps : (ms : List (String × Json)) → (depth : Nat) →
    climb depth (memberOps ms) = some depth
  | [], _ => by rw [memberOps, climb]
  | (k, v) :: rest, depth => by
    simp [memberOps, climb, climb_append, quotedOps, commaOps, climb_pieces, climb_ops v,
      climb_memberOps rest depth, -List.map_cons]

theorem climb_itemOps : (vs : List Json) → (depth : Nat) → climb depth (itemOps vs) = some depth
  | [], _ => by rw [itemOps, climb]
  | v :: rest, depth => by
    simp [itemOps, climb, climb_append, commaOps, climb_pieces, climb_ops v, climb_itemOps rest depth]

end

theorem foldl_level_ops (v : Json) (depth : Nat) : v.ops.foldl Op.level depth = depth :=
  foldl_level_of_climb (climb_ops v depth)

theorem text_quotedOps (indent : Bool) (depth : Nat) (s : String) :
    text indent depth (quotedOps s) = quoted s := by
  rw [quotedOps, text_pieces]
  simp [quoted]

theorem text_commaOps (indent : Bool) (depth : Nat) (last : Bool) :
    text indent depth (commaOps last) = if last then [] else [','] := by
  rw [commaOps, text_pieces]
  cases last <;> rfl

mutual

/-- What a value's operations send is its text. -/
theorem text_ops (indent : Bool) : (v : Json) → (depth : Nat) →
    text indent depth v.ops = v.chars indent depth
  | object [], _ => by rw [ops, chars]; rfl
  | object (m :: ms), depth => by
    have hlevel := foldl_level_of_climb (climb_memberOps (m :: ms) (depth + 1))
    simp [ops, chars, text, Op.chars, Op.level, text_append, hlevel,
      text_memberOps indent (m :: ms) (depth + 1)]
  | array [], _ => by rw [ops, chars]; rfl
  | array (v :: vs), depth => by
    have hlevel := foldl_level_of_climb (climb_itemOps (v :: vs) (depth + 1))
    simp [ops, chars, text, Op.chars, Op.level, text_append, hlevel,
      text_itemOps indent (v :: vs) (depth + 1)]
  | number n, depth => by rw [ops, chars, text_pieces, flatten_numberPieces]
  | boolean b, _ => by simp [ops, chars, text, Op.chars]
  | string s, depth => by rw [ops, chars, text_quotedOps]
  | null, _ => by simp [ops, chars, text, Op.chars]

theorem text_memberOps (indent : Bool) : (ms : List (String × Json)) → (depth : Nat) →
    text indent depth (memberOps ms) = memberChars indent depth ms
  | [], _ => by rw [memberOps, memberChars, text]
  | (k, v) :: rest, depth => by
    have hkey : (quotedOps k).foldl Op.level depth = depth :=
      foldl_level_of_climb (climb_pieces depth _)
    have hcomma : (commaOps rest.isEmpty).foldl Op.level depth = depth :=
      foldl_level_of_climb (climb_pieces depth _)
    simp only [memberOps, memberChars, text, text_append, Op.chars, Op.level, hkey, hcomma,
      foldl_level_ops, text_quotedOps, text_commaOps, text_ops indent v, text_memberOps indent rest,
      List.append_assoc]

theorem text_itemOps (indent : Bool) : (vs : List Json) → (depth : Nat) →
    text indent depth (itemOps vs) = itemChars indent depth vs
  | [], _ => by rw [itemOps, itemChars, text]
  | v :: rest, depth => by
    have hcomma : (commaOps rest.isEmpty).foldl Op.level depth = depth :=
      foldl_level_of_climb (climb_pieces depth _)
    simp only [itemOps, itemChars, text, text_append, Op.chars, Op.level, hcomma,
      foldl_level_ops, text_commaOps, text_ops indent v, text_itemOps indent rest, List.append_assoc]

end

/-- Writing a value sends its text and comes back to the same depth. -/
theorem sends_write (v : Json) (w : Writer) :
    Sends (write v) w (v.chars w.indent w.depth) w.depth := by
  have h := sends_run v.ops w
  rw [text_ops, foldl_level_ops] at h
  exact h.congr (by rw [write_eq_run])

theorem numberChars_ne_nil (n : Float) : numberChars n ≠ [] := by
  rw [numberChars]
  split
  · obtain ⟨t, _, _, ht, -⟩ := exists_numeral_of_text ‹_›
    exact ht ▸ t.chars_ne_nil
  · decide

theorem chars_ne_nil (v : Json) (indent : Bool) (depth : Nat) : v.chars indent depth ≠ [] := by
  cases v with
  | object ms => cases ms <;> simp [chars]
  | array vs => cases vs <;> simp [chars]
  | number n => exact numberChars_ne_nil n
  | boolean b => cases b <;> (rw [chars]; decide)
  | string s => simp [chars, quoted]
  | null => simp [chars]

/-- What the sink takes of a value is a front of its text, members in the order of their keys. All of
it is taken exactly when there is room for it, and then the writer is back at its depth. No step of the
writing rises from the ground. -/
theorem write_sends_front (v : Json) (hv : v.Proper) (w : Writer) :
    (∃ pre, pre <+: v.sorted.chars w.indent w.depth ∧ (write v w).2.sink = w.sink.put pre) ∧
    ((write v w).1 = true ↔ w.sink.Fits (v.sorted.chars w.indent w.depth)) ∧
    ((write v w).1 = true →
      (write v w).2 = { w with sink := w.sink.put (v.sorted.chars w.indent w.depth) }) ∧
    write v = run v.ops ∧
    ∀ before after u, v.ops = before ++ .rise :: after → run before w = (true, u) → 0 < u.depth := by
  rw [sorted_of_proper v hv]
  have hrises : ∀ before after u, v.ops = before ++ .rise :: after →
      run before w = (true, u) → 0 < u.depth := by
    intro before after u hops hu
    have hclimb := climb_ops v w.depth
    rw [hops] at hclimb
    exact depth_pos_of_climb hclimb hu
  cases sends_write v w with
  | taken htaken hfits =>
    have hfits := hfits.resolve_left (chars_ne_nil v _ _)
    rw [htaken]
    exact ⟨⟨_, List.prefix_rfl, rfl⟩, iff_of_true rfl hfits, fun _ => rfl, write_eq_run v, hrises⟩
  | refused hpre hfalse hsink hfits =>
    have hne : (write v w).1 ≠ true := hfalse ▸ Bool.false_ne_true
    exact ⟨⟨_, hpre, hsink⟩, iff_of_false hne hfits, fun h => absurd h hne, write_eq_run v, hrises⟩

theorem write_sends_front_nested :
    (object [("a", array [null, null])]).Proper ∧
    (write (object [("a", array [null, null])]) ⟨⟨['>'], some 18⟩, false, 3⟩).1 = true ∧
    (write (object [("a", array [null, null])]) ⟨⟨['>'], some 17⟩, false, 3⟩).1 = false := by
  have hproper : (object [("a", array [null, null])]).Proper := by
    simp [Proper, ProperMembers, ProperItems, Members.Ascending]
  refine ⟨hproper, ?_, ?_⟩
  · refine (write_sends_front _ hproper ⟨⟨['>'], some 18⟩, false, 3⟩).2.1.2 ?_
    intro room hroom
    cases hroom
    decide
  · rw [← Bool.not_eq_true]
    refine fun h => absurd ((write_sends_front _ hproper ⟨⟨['>'], some 17⟩, false, 3⟩).2.1.1 h) ?_
    exact fun hfits => absurd (hfits 17 rfl) (by decide)

end Json

end Reckoner
