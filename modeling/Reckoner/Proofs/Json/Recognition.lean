import Reckoner.Proofs.Cursor.Outcomes
import Reckoner.Proofs.Json.Reading

/-!
# Recognizing spellings

Each rule of the reader that gives a value has passed the lexemes of a spelling of it, unless the
number rule handed back a sign. Nothing in a document can go on with a sign, so the brackets that
close the document were passed in any case, and a text that is accepted is a spelling of what is read
from it (`exists_document_of_parse`).
-/

namespace Reckoner

open Text Cursor Grammar

namespace Cursor.Stuck

variable {c d : Cursor} {x : Char}

theorem isNext (h : c.Stuck) (hx : isSign x = false) : c.isNext x = (false, c) := by
  obtain ⟨y, hpeek, hy⟩ := h
  have hblank : isBlank y = false := isBlank_of_startsNumeral (by rw [hy, Bool.true_or])
  have hskip : c.skipBlanks = c := by
    rw [skipBlanks, takeWhile, hpeek]
    simp [hblank]
  have hne : ¬ some y = some x := by
    rintro h
    cases h
    rw [hy] at hx
    cases hx
  rw [Cursor.isNext, hskip, hpeek, if_neg hne]

variable {ε α : Type} {found : (d : Cursor) → d.size < c.size → Step ε α d}

theorem of_onNext {missing : (d : Cursor) → d.size ≤ c.size → Step ε α d} {p : Except ε α × Cursor}
    (h : c.Stuck) (hx : isSign x = false) (hp : (Step.onNext x c found missing).pair = p) :
    ∃ hd, (missing c hd).pair = p :=
  ⟨Nat.le_refl _, (Step.pair_onNext_false (h.isNext hx) (Nat.le_refl _)).symm.trans hp⟩

theorem not_require {err : ε} {a : α} (h : c.Stuck) (hx : isSign x = false) :
    (Step.require x c err found).pair ≠ (.ok a, d) := by
  intro hp
  obtain ⟨_, hfail⟩ := h.of_onNext hx hp
  cases (Prod.mk.inj hfail).1

theorem of_onPeek {ended : Step ε α c} {f : Char → (d : Cursor) → d.size < c.size → Step ε α c}
    {p : Except ε α × Cursor} (h : c.Stuck) (hp : (Step.onPeek c ended f).pair = p) :
    ∃ x, isSign x = true ∧ ∃ hd, (f x c.pop.2 hd).pair = p := by
  obtain ⟨x, hpeek, hx⟩ := h
  have hlt := size_pop_lt hpeek
  exact ⟨x, hx, hlt, (Step.pair_onPeek_some hpeek rfl hlt).symm.trans hp⟩

end Cursor.Stuck

namespace Json

theorem passed_behind {gap : List Char} (hg : Blanks gap) (lost : Option Lost) (l post : List Char) :
    Passed [behind lost l] (gap ++ (lost.elim [] (·.chars) ++ (l ++ post))) post := by
  rw [← List.append_assoc (lost.elim [] _)]
  exact (passed_nil hg _).append (passed_lexeme (behind lost l) post)

theorem passed_lost {gap : List Char} (hg : Blanks gap) (lost : Option Lost) (post : List Char) :
    Passed (ItemSpelling.nil lost).lexemes (gap ++ (lost.elim [] (·.chars) ++ post)) post := by
  cases lost with
  | none => exact passed_nil hg post
  | some t => exact (passed_nil hg _).append (passed_lexeme t.chars post)

theorem of_readNull {cs : List Char} {v : Json} {d : Cursor} (h : (readNull (ofList cs)).pair = (.ok v, d)) :
    v = null ∧ ∃ post, cs = ['n', 'u', 'l', 'l'] ++ post ∧ d = ofList post := by
  simp only [readNull, Step.pair, take_ofList] at h
  split at h
  · rename_i hword
    have hcs := List.take_append_drop 4 cs
    rw [hword] at hcs
    cases h
    exact ⟨rfl, _, hcs.symm, rfl⟩
  · cases (Prod.mk.inj h).1

mutual

theorem cases_of_readValue {cs : List Char} {r : Option Json} {d : Cursor}
    (h : (readValue (ofList cs)).pair = (.ok r, d)) :
    d.Stuck
    ∨ (∃ s : Spelling, ∃ post, Passed s.lexemes cs post ∧ d = ofList post ∧ r = some s.value)
    ∨ ∃ lost : Option Lost, ∃ post, Passed (ItemSpelling.nil lost).lexemes cs post ∧ d = ofList post ∧
      r = none := by
  rw [readValue] at h
  obtain ⟨literal, c₁, hl, _, h⟩ := Step.exists_of_andThen h
  have hl : Literal.readValue (ofList cs) = (.ok literal, c₁) := hl
  rcases Literal.cases_of_readValue hl with
    hstuck | ⟨l, post, hp, rfl, rfl⟩ | ⟨gap, lost, post, hcs, hg, rfl, rfl⟩
  · left
    cases literal with
    | some l =>
      cases h
      exact hstuck
    | none =>
      obtain ⟨x, hx, _, h⟩ := hstuck.of_onPeek h
      have hne : x ≠ '\x7b' ∧ x ≠ '[' ∧ x ≠ 'n' := by
        refine ⟨?_, ?_, ?_⟩ <;> rintro rfl <;> cases hx
      rw [if_neg hne.1, if_neg hne.2.1, if_neg hne.2.2] at h
      cases h
      exact hstuck
  · cases h
    exact .inr (.inl ⟨.literal l, post, hp, rfl, rfl⟩)
  · rcases Step.cases_of_onPeek h with ⟨rfl, h⟩ | ⟨x, rest, rfl, _, h⟩
    · cases h
      exact .inr (.inr ⟨lost, [], hcs ▸ passed_lost hg lost [], rfl, rfl⟩)
    split at h
    · rename_i hx
      subst hx
      rw [Step.pair_beyond] at h
      obtain ⟨v, hv, rfl⟩ := Step.exists_of_map h
      obtain ⟨b, post, hopen, hrest, rfl, rfl⟩ := exists_of_readObject hv
      refine .inr (.inl ⟨.document lost b, post, ?_, rfl, rfl⟩)
      rw [hcs, Spelling.lexemes, hopen]
      exact (passed_behind hg lost ['\x7b'] rest).append hrest
    split at h
    · rename_i hx
      subst hx
      rw [Step.pair_beyond] at h
      obtain ⟨v, hv, rfl⟩ := Step.exists_of_map h
      obtain ⟨b, post, hopen, hrest, rfl, rfl⟩ := exists_of_readArray hv
      refine .inr (.inl ⟨.document lost b, post, ?_, rfl, rfl⟩)
      rw [hcs, Spelling.lexemes, hopen]
      exact (passed_behind hg lost ['['] rest).append hrest
    split at h
    · obtain ⟨v, hv, rfl⟩ := Step.exists_of_map h
      obtain ⟨rfl, post, hnull, rfl⟩ := of_readNull hv
      refine .inr (.inl ⟨.null lost, post, ?_, rfl, rfl⟩)
      rw [hcs, hnull]
      exact passed_behind hg lost _ post
    · cases h
      exact .inr (.inr ⟨lost, _, hcs ▸ passed_lost hg lost _, rfl, rfl⟩)
termination_by (cs.length, 0)
decreasing_by
  all_goals
    refine .left _ _ ?_
    simp only [hcs, List.length_append, List.length_cons]
    omega

theorem exists_of_readObject {cs : List Char} {v : Json} {d : Cursor}
    (h : (readObject (ofList cs)).pair = (.ok v, d)) :
    ∃ b : Document, ∃ post, b.opening = '\x7b' ∧ Passed b.rest cs post ∧ d = ofList post ∧
      v = b.value := by
  rw [readObject] at h
  rcases Step.cases_of_onNext h with ⟨gap, post, rfl, hg, _, h⟩ | ⟨gap, post, hcs, hg, -, _, h⟩
  · cases h
    exact ⟨.emptyObject, post, rfl, passed_char hg _ post, rfl, rfl⟩
  · obtain ⟨ms, hms, rfl⟩ := Step.exists_of_map h
    obtain ⟨s, rest, hs, rfl, rfl⟩ := exists_of_readMembers hms
    exact ⟨.object s, rest, rfl, hcs ▸ (passed_nil hg post).append hs, rfl, rfl⟩
termination_by (cs.length, 1)
decreasing_by
  refine .right' _ ?_ (by decide)
  simp only [hcs, List.length_append]
  omega

theorem exists_of_readMembers {cs : List Char} {members ms : Members Json} {d : Cursor}
    (h : (readMembers members (ofList cs)).pair = (.ok ms, d)) :
    ∃ s : MemberSpelling, ∃ post, Passed (s.lexemes ++ [['\x7d']]) cs post ∧ d = ofList post ∧
      ms = s.onto members := by
  rw [readMembers] at h
  obtain ⟨key, c₁, hkey, _, h⟩ := Step.exists_of_andThen h
  have hkey : Literal.readString (ofList cs) = (.ok key, c₁) := hkey
  rcases Literal.cases_of_readString hkey with ⟨q, rest₁, hq, rfl, rfl⟩ | ⟨rfl, -⟩
  · obtain ⟨gap₂, rest₂, rfl, hg₂, _, h⟩ := Step.exists_of_require h
    obtain ⟨value, c₃, hv, _, h⟩ := Step.exists_of_andThen h
    have hlt := hq.length_le
    rcases cases_of_readValue hv with
      hstuck | ⟨s, rest₃, hs, rfl, rfl⟩ | ⟨lost, rest₃, hlost, rfl, rfl⟩
    · cases value with
      | none => cases (Prod.mk.inj h).1
      | some v =>
        obtain ⟨_, h⟩ := hstuck.of_onNext rfl h
        exact absurd h (hstuck.not_require rfl)
    · have hlt' := hs.length_le
      have hmember := hq.append ((passed_char hg₂ ':' rest₂).append hs)
      rcases Step.cases_of_onNext h with ⟨gap₄, rest₄, rfl, hg₄, _, h⟩ | ⟨gap₄, rest₄, rfl, hg₄, -, _, h⟩
      · obtain ⟨t, post, ht, rfl, rfl⟩ := exists_of_readMembers h
        refine ⟨.cons q s t, post, ?_, rfl, rfl⟩
        simpa [MemberSpelling.lexemes] using hmember.append ((passed_char hg₄ ',' rest₄).append ht)
      · obtain ⟨gap₅, post, rfl, hg₅, _, h⟩ := Step.exists_of_require h
        cases h
        refine ⟨.last q s, post, ?_, rfl, rfl⟩
        simpa [MemberSpelling.lexemes] using
          hmember.append ((passed_nil hg₄ _).append (passed_char hg₅ '\x7d' post))
    · cases (Prod.mk.inj h).1
  · cases (Prod.mk.inj h).1
termination_by (cs.length, 0)
decreasing_by
  all_goals
    refine .left _ _ ?_
    simp only [List.length_append, List.length_cons] at *
    omega

theorem exists_of_readArray {cs : List Char} {v : Json} {d : Cursor}
    (h : (readArray (ofList cs)).pair = (.ok v, d)) :
    ∃ b : Document, ∃ post, b.opening = '[' ∧ Passed b.rest cs post ∧ d = ofList post ∧
      v = b.value := by
  rw [readArray] at h
  obtain ⟨vs, c₁, hvs, _, h⟩ := Step.exists_of_andThen h
  rcases cases_of_readItems hvs with hstuck | ⟨s, rest, hs, rfl, rfl⟩
  · exact absurd h (hstuck.not_require rfl)
  · obtain ⟨gap, post, rfl, hg, _, h⟩ := Step.exists_of_require h
    cases h
    exact ⟨.array s, post, rfl, hs.append (passed_char hg ']' post), rfl, rfl⟩
termination_by (cs.length, 2)
decreasing_by exact .right' _ (Nat.le_refl _) (by decide)

theorem cases_of_readItems {cs : List Char} {vs : List Json} {d : Cursor}
    (h : (readItems (ofList cs)).pair = (.ok vs, d)) :
    d.Stuck ∨ ∃ s : ItemSpelling, ∃ post, Passed s.lexemes cs post ∧ d = ofList post ∧
      vs = s.values := by
  rw [readItems] at h
  obtain ⟨value, c₁, hv, _, h⟩ := Step.exists_of_andThen h
  rcases cases_of_readValue hv with
    hstuck | ⟨s, rest₁, hs, rfl, rfl⟩ | ⟨lost, rest₁, hlost, rfl, rfl⟩
  · cases value with
    | none =>
      cases h
      exact .inl hstuck
    | some v =>
      obtain ⟨_, h⟩ := hstuck.of_onNext rfl h
      cases h
      exact .inl hstuck
  · have hlt := hs.length_le
    rcases Step.cases_of_onNext h with ⟨gap, rest₂, rfl, hg, _, h⟩ | ⟨gap, rest₂, rfl, hg, -, _, h⟩
    · obtain ⟨vs, hvs, rfl⟩ := Step.exists_of_map h
      rcases cases_of_readItems hvs with hstuck | ⟨t, post, ht, rfl, rfl⟩
      · exact .inl hstuck
      · exact .inr ⟨.cons s t, post, hs.append ((passed_char hg ',' rest₂).append ht), rfl, rfl⟩
    · cases h
      refine .inr ⟨.last s, rest₂, ?_, rfl, rfl⟩
      simpa only [ItemSpelling.lexemes, List.append_nil] using hs.append (passed_nil hg rest₂)
  · cases h
    exact .inr ⟨.nil lost, rest₁, hlost, rfl, rfl⟩
termination_by (cs.length, 1)
decreasing_by
  · exact .right' _ (Nat.le_refl _) (by decide)
  · refine .left _ _ ?_
    simp only [List.length_append, List.length_cons] at *
    omega

end

theorem exists_document_of_readDocument {cs : List Char} {v : Json} {d : Cursor}
    (h : readDocument (ofList cs) = (.ok (some v), d)) :
    ∃ b : Document, ∃ post, Passed b.lexemes cs post ∧ d = ofList post ∧ v = b.value := by
  have hcs := List.takeWhile_append_dropWhile (p := isBlank) (l := cs)
  have hgap := blanks_takeWhile cs
  simp only [readDocument, skipBlanks_ofList, peek_ofList] at h
  cases hrest : cs.dropWhile isBlank with
  | nil =>
    rw [hrest] at h
    cases (Prod.mk.inj h).1
  | cons x rest =>
    have hpop : (ofList cs).skipBlanks.pop.2 = ofList rest := by
      rw [skipBlanks_ofList, hrest, pop_ofList, List.tail_cons]
    rw [hrest] at h hcs
    rw [← hcs]
    simp only [List.head?_cons] at h
    split at h
    · rename_i hx
      cases hx
      obtain ⟨w, hw, hv⟩ := Step.exists_of_map h
      rw [hpop] at hw
      cases hv
      obtain ⟨b, post, hopen, hp, rfl, rfl⟩ := exists_of_readObject hw
      refine ⟨b, post, ?_, rfl, rfl⟩
      rw [Document.lexemes, hopen]
      exact (passed_char hgap _ rest).append hp
    · rename_i hx
      cases hx
      obtain ⟨w, hw, hv⟩ := Step.exists_of_map h
      rw [hpop] at hw
      cases hv
      obtain ⟨b, post, hopen, hp, rfl, rfl⟩ := exists_of_readArray hw
      refine ⟨b, post, ?_, rfl, rfl⟩
      rw [Document.lexemes, hopen]
      exact (passed_char hgap _ rest).append hp
    · cases (Prod.mk.inj h).1

/-- A text that is accepted is a spelling of what is read from it. -/
theorem exists_document_of_parse {text : String} {v : Json} (h : parse text = .ok v) :
    ∃ b : Document, Spaced b.lexemes text.toList ∧ b.value = v := by
  rw [parse] at h
  split at h
  · cases h
  · cases h
  · rename_i w after hread
    obtain ⟨b, post, ⟨pre, hpre, hs⟩, rfl, rfl⟩ := exists_document_of_readDocument hread
    split at h
    · cases h
    · rename_i hpeek
      cases h
      refine ⟨b, ?_, rfl⟩
      rw [hpre]
      simpa only [List.append_nil] using hs.append (.nil ((Over.list post).blanks_of_peek hpeek))

/-- The accepted texts are just the spellings, and each is read as the value that it spells. -/
theorem parse_eq_ok_iff {text : String} {v : Json} :
    parse text = .ok v ↔ ∃ b : Document, Spaced b.lexemes text.toList ∧ b.value = v := by
  constructor
  · exact exists_document_of_parse
  · rintro ⟨b, hs, rfl⟩
    exact b.parse_eq hs

/-- A sound token does not end with a mark behind a single character, which is no sign. -/
theorem chars_ne_of_sound {t : Found} (ht : t.Sound) {x y : Char} (hx : isSign x = false)
    (hy : isMark y = true) : t.chars ≠ [x, y] := by
  intro h
  rcases t.cases_of_sound ht with ⟨n, hn, -⟩ | ⟨s, hs, e, he, -⟩
  · rw [hn, Scientific.chars] at h
    cases he : n.exponent with
    | none =>
      rw [he, Option.elim_none, List.append_nil] at h
      have hnumeral := n.mantissa.isSign_or_inNumeral y (by simp [h])
      rw [not_startsNumeral_of_isMark hy] at hnumeral
      cases hnumeral
    | some e =>
      have hlength := congrArg List.length h
      have hm := List.length_pos_iff.2 n.mantissa.chars_ne_nil
      have hp := List.length_pos_iff.2 e.power.chars_ne_nil
      simp only [he, Option.elim_some, List.length_append, List.length_cons, List.length_nil]
        at hlength
      omega
  · rw [he] at h
    rw [← (List.cons.inj h).1, hs] at hx
    cases hx

/-- A mark without an exponent is passed over, and no sound spelling has one. -/
theorem parse_stray_mark : ∃ v, parse "[1e]" = .ok v ∧
    ¬ ∃ b : Document, b.Sound ∧ Spaced b.lexemes "[1e]".toList ∧ b.value = v := by
  let t : Found := ⟨⟨['1'], [⟨'e', [], false, rfl, blanks_nil⟩], none, rfl⟩, rfl⟩
  let b : Document := .array (.last (.literal (.number t)))
  refine ⟨b.value, b.parse_eq (spaced_of_spells (by rfl)), ?_⟩
  rintro ⟨d, hsound, hs, -⟩
  have hplain : "[1e]".toList.any isBlank = false := by decide
  have hflat := hs.eq_flatten fun x hx => by simpa using List.any_eq_false.1 hplain x hx
  cases d with
  | emptyObject => cases hflat
  | object members => cases hflat
  | array items =>
    have hitems : ['1', 'e'] = items.lexemes.flatten := by
      have : ['1', 'e'] ++ [']'] = items.lexemes.flatten ++ [']'] := by
        simpa [Document.lexemes, Document.opening, Document.rest] using hflat
      exact List.append_cancel_right this
    cases items with
    | nil lost =>
      obtain rfl : lost = none := hsound
      cases hitems
    | cons item rest =>
      have hcomma : ',' ∈ (ItemSpelling.cons item rest).lexemes.flatten := by
        simp [ItemSpelling.lexemes]
      rw [← hitems] at hcomma
      exact absurd hcomma (by decide)
    | last item =>
      cases item with
      | document lost d =>
        obtain rfl : lost = none := hsound.1
        cases d <;> cases hitems
      | null lost =>
        obtain rfl : lost = none := hsound
        cases hitems
      | literal l =>
        have hchars : l.chars = ['1', 'e'] := by
          rw [hitems]
          exact (List.append_nil _).symm
        cases l with
        | string q =>
          have hquote := q.isQuote
          rw [show q.quote = '1' from (List.cons.inj hchars).1] at hquote
          cases hquote
        | number t => exact chars_ne_of_sound hsound rfl rfl hchars
        | boolean b => cases b <;> cases hchars

end Json

end Reckoner
