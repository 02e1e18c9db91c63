import Mathlib.Algebra.Order.BigOperators.Group.List
import Reckoner.Proofs.Cursor.Outcomes
import Reckoner.Proofs.Json.RoundTrip
import Reckoner.Proofs.Literal.Apostrophes

/-!
# What the reader accepts

Whatever the reader gives is proper, and its texts cost no more apostrophes than it took
(`Json.Afforded`). The text of a value holds just the apostrophes of the texts in it. So a value
that was read reads back as an equal one if and only if double quotes can close each of its texts
(`Json.parse_written_iff`).
-/

namespace Reckoner

open Text Literal

namespace Json

/-- The apostrophes that the texts of a value cost. -/
def cost (v : Json) : Nat :=
  (v.texts.map Literal.cost).sum

@[simp] theorem cost_emptyObject : (object []).cost = 0 := by
  simp [cost, texts, memberTexts]

@[simp] theorem cost_emptyArray : (array []).cost = 0 := by
  simp [cost, texts, itemTexts]

theorem cost_object_cons (k : String) (v : Json) (ms : Members Json) :
    (object ((k, v) :: ms)).cost = Literal.cost k + v.cost + (object ms).cost := by
  simp [cost, texts, memberTexts, Nat.add_assoc]

theorem cost_array_cons (v : Json) (vs : List Json) :
    (array (v :: vs)).cost = v.cost + (array vs).cost := by
  simp [cost, texts, itemTexts]

@[simp] theorem cost_ofLiteral (l : Literal) : (ofLiteral l).cost = literalCost l := by
  cases l <;> simp [cost, ofLiteral, texts, literalCost]

theorem proper_ofLiteral (l : Literal) : (ofLiteral l).Proper := by
  cases l <;> simp [ofLiteral, Proper]

/-- A member that is replaced is paid for no longer. -/
theorem cost_insert_le (k : String) (v : Json) (ms : Members Json) :
    (object (ms.insert k v)).cost ≤ Literal.cost k + v.cost + (object ms).cost := by
  induction ms with
  | nil => rw [Members.insert, cost_object_cons]
  | cons m ms ih =>
    obtain ⟨l, w⟩ := m
    rw [Members.insert]
    split
    · rw [cost_object_cons]
    · split
      · rw [cost_object_cons, cost_object_cons]
        omega
      · rw [cost_object_cons, cost_object_cons]
        omega

/-- The value is proper, and costs no more apostrophes than lie between the cursors. -/
structure Afforded (c : Cursor) (v : Json) (d : Cursor) : Prop where
  proper : v.Proper
  cost_le : v.cost + d.apostrophes ≤ c.apostrophes

theorem Afforded.of_le {c c' d : Cursor} {v : Json} (h : Afforded c v d)
    (hle : c.apostrophes ≤ c'.apostrophes) : Afforded c' v d :=
  ⟨h.proper, Nat.le_trans h.cost_le hle⟩

theorem Afforded.offered {c d : Cursor} {v : Json} (h : Afforded c v d) :
    d.apostrophes ≤ c.apostrophes ∧ ∀ w ∈ some v, Afforded c w d :=
  ⟨Nat.le_trans (Nat.le_add_left _ _) h.cost_le, fun _ hw => Option.some.inj hw ▸ h⟩

theorem readLiteral_ensures (c : Cursor) : (readLiteral c).Ensures fun o d =>
    d.apostrophes ≤ c.apostrophes ∧ ∀ l ∈ o, Afforded c (ofLiteral l) d := by
  intro o ho
  have h := cost_add_apostrophes_readValue (Prod.ext ho rfl : Literal.readValue c = (.ok o, _))
  refine ⟨Nat.le_trans (Nat.le_add_left _ _) h, fun l hl => ⟨proper_ofLiteral l, ?_⟩⟩
  rw [Option.mem_def.1 hl] at h
  rw [cost_ofLiteral]
  exact h

theorem readKey_ensures (c : Cursor) : (readKey c).Ensures fun o d =>
    d.apostrophes ≤ c.apostrophes ∧ ∀ k ∈ o, Literal.cost k + d.apostrophes ≤ c.apostrophes := by
  intro o ho
  have h := cost_add_apostrophes_readString (Prod.ext ho rfl : Literal.readString c = (.ok o, _))
  refine ⟨Nat.le_trans (Nat.le_add_left _ _) h, fun k hk => ?_⟩
  rw [Option.mem_def.1 hk] at h
  exact h

theorem readNull_ensures (c : Cursor) : (readNull c).Ensures (Afforded c) := by
  have htake := Cursor.apostrophes_take_le 4 c
  intro v hv
  simp only [readNull] at hv ⊢
  split at hv
  · cases hv
    exact ⟨by simp [Proper], by simpa [cost, texts] using htake⟩
  · cases hv

mutual

theorem readValue_ensures (c : Cursor) : (readValue c).Ensures fun o d =>
    d.apostrophes ≤ c.apostrophes ∧ ∀ v ∈ o, Afforded c v d := by
  rw [readValue]
  refine (readLiteral_ensures c).andThen fun o c₁ _h₁ ho => ?_
  cases o with
  | some l =>
    refine Step.ensures_done ⟨ho.1, fun v hv => ?_⟩
    obtain rfl := Option.some.inj hv
    exact ho.2 l rfl
  | none =>
    have hpop : c₁.pop.2.apostrophes ≤ c.apostrophes :=
      Nat.le_trans c₁.apostrophes_pop_le ho.1
    refine Step.ensures_onPeek (Step.ensures_done ⟨ho.1, by simp⟩) fun x _h₂ _ => ?_
    split
    · exact ((readObject_ensures _).mono fun v d h => (h.of_le hpop).offered).map.beyond _
    · split
      · exact ((readArray_ensures _).mono fun v d h => (h.of_le hpop).offered).map.beyond _
      · split
        · exact ((readNull_ensures c₁).mono fun v d h => (h.of_le ho.1).offered).map
        · exact Step.ensures_done ⟨ho.1, by simp⟩
  termination_by (c.size, 0)
  decreasing_by
    · exact .left _ _ (Nat.lt_of_lt_of_le _h₂ _h₁)
    · exact .left _ _ (Nat.lt_of_lt_of_le _h₂ _h₁)

theorem readObject_ensures (c : Cursor) : (readObject c).Ensures (Afforded c) := by
  have hempty : (object []).Proper := by simp [Proper, ProperMembers, Members.Ascending]
  have hnext := Cursor.apostrophes_isNext_le '\x7d' c
  rw [readObject]
  refine Step.ensures_onNext (fun _ => ?_) fun _h₁ => ?_
  · exact Step.ensures_done ⟨hempty, by simpa using hnext⟩
  · refine ((readMembers_ensures [] _ hempty).mono fun ms d h => ?_).map
    exact ⟨h.1, Nat.le_trans h.2 (by simpa using hnext)⟩
  termination_by (c.size, 1)
  decreasing_by exact .right' _ _h₁ (by decide)

theorem readMembers_ensures (members : Members Json) (c : Cursor) (hp : (object members).Proper) :
    (readMembers members c).Ensures fun ms d =>
      (object ms).Proper ∧
        (object ms).cost + d.apostrophes ≤ (object members).cost + c.apostrophes := by
  rw [readMembers]
  refine (readKey_ensures c).andThen fun key c₁ _h₁ hkey => ?_
  cases key with
  | none => exact Step.ensures_fail _
  | some key =>
    have hk := hkey.2 key rfl
    have hcolon := Cursor.apostrophes_isNext_le ':' c₁
    refine Step.ensures_require fun _h₂ => ?_
    refine (readValue_ensures _).andThen fun value c₃ _h₃ hvalue => ?_
    cases value with
    | none => exact Step.ensures_fail _
    | some v =>
      have hv := hvalue.2 v rfl
      have hins := proper_insert hp hv.proper key
      have hcost := cost_insert_le key v members
      have hcomma := Cursor.apostrophes_isNext_le ',' c₃
      have hv := hv.cost_le
      refine Step.ensures_onNext (fun _h₄ => ?_) fun _h₄ => ?_
      · refine (readMembers_ensures _ _ hins).mono fun ms d h => ⟨h.1, ?_⟩
        omega
      · have hbrace := Cursor.apostrophes_isNext_le '\x7d' (c₃.isNext ',').2
        refine Step.ensures_require fun _ => Step.ensures_done ⟨hins, ?_⟩
        omega
  termination_by (c.size, 0)
  decreasing_by
    · exact .left _ _ (Nat.lt_of_lt_of_le _h₂ _h₁)
    · have h := Nat.lt_of_lt_of_le _h₂ _h₁
      exact .left _ _ (Nat.lt_of_lt_of_le _h₄ (Nat.le_trans _h₃ (Nat.le_of_lt h)))

theorem readArray_ensures (c : Cursor) : (readArray c).Ensures (Afforded c) := by
  rw [readArray]
  refine (readItems_ensures c).andThen fun vs c₁ _ h => ?_
  have hclose := Cursor.apostrophes_isNext_le ']' c₁
  exact Step.ensures_require fun _ => Step.ensures_done
    ⟨h.proper, Nat.le_trans (Nat.add_le_add_left hclose _) h.cost_le⟩
  termination_by (c.size, 2)
  decreasing_by exact .right' _ (Nat.le_refl _) (by decide)

theorem readItems_ensures (c : Cursor) :
    (readItems c).Ensures fun vs d => Afforded c (array vs) d := by
  rw [readItems]
  refine (readValue_ensures c).andThen fun value c₁ _h₁ h => ?_
  cases value with
  | none => exact Step.ensures_done ⟨by simp [Proper, ProperItems], by simpa using h.1⟩
  | some v =>
    obtain ⟨hp, hv⟩ := h.2 v rfl
    have hcomma := Cursor.apostrophes_isNext_le ',' c₁
    refine Step.ensures_onNext (fun _h₂ => ?_) fun _ => ?_
    · refine ((readItems_ensures _).mono fun vs d hvs => ⟨⟨hp, hvs.proper⟩, ?_⟩).map
      have := hvs.cost_le
      rw [cost_array_cons]
      omega
    · refine Step.ensures_done ⟨⟨hp, trivial⟩, ?_⟩
      rw [cost_array_cons, cost_emptyArray]
      omega
  termination_by (c.size, 1)
  decreasing_by
    · exact .right' _ (Nat.le_refl _) (by decide)
    · exact .left _ _ (Nat.lt_of_lt_of_le _h₂ _h₁)

end

theorem isContainer_of_readObject (c : Cursor) :
    (readObject c).Ensures fun v _ => v.isContainer = true := by
  rw [readObject]
  exact Step.ensures_onNext (fun _ => Step.ensures_done rfl)
    fun _ => Step.Ensures.map fun _ _ => rfl

theorem isContainer_of_readArray (c : Cursor) :
    (readArray c).Ensures fun v _ => v.isContainer = true := by
  rw [readArray]
  exact (readItems_ensures c).andThen fun _ _ _ _ =>
    Step.ensures_require fun _ => Step.ensures_done rfl

theorem afforded_of_readDocument {c d : Cursor} {v : Json}
    (h : readDocument c = (.ok (some v), d)) : v.isContainer = true ∧ Afforded c v d := by
  have hpop : c.skipBlanks.pop.2.apostrophes ≤ c.apostrophes :=
    Nat.le_trans (Cursor.apostrophes_pop_le _) c.apostrophes_skipBlanks_le
  simp only [readDocument] at h
  split at h
  · obtain ⟨w, hw, hv⟩ := Step.exists_of_map h
    obtain rfl := Option.some.inj hv
    exact ⟨(isContainer_of_readObject _).of_pair hw,
      ((readObject_ensures _).of_pair hw).of_le hpop⟩
  · obtain ⟨w, hw, hv⟩ := Step.exists_of_map h
    obtain rfl := Option.some.inj hv
    exact ⟨(isContainer_of_readArray _).of_pair hw, ((readArray_ensures _).of_pair hw).of_le hpop⟩
  · cases (Prod.mk.inj h).1

/-- What was read from a text is an object or an array, is proper, and costs no more apostrophes
than the text has. -/
theorem proper_of_parse {text : String} {v : Json} (h : parse text = .ok v) :
    v.isContainer = true ∧ v.Proper ∧ v.cost ≤ text.toList.count '\'' := by
  rw [parse] at h
  split at h
  · cases h
  · cases h
  · rename_i w rest hread
    split at h
    · cases h
    · obtain rfl := Except.ok.inj h
      obtain ⟨hc, hp, hcost⟩ := afforded_of_readDocument hread
      have hall : (Cursor.ofString text).apostrophes = text.toList.count '\'' := by
        rw [Cursor.apostrophes, Cursor.ofString, Cursor.remaining_ofList]
      rw [hall] at hcost
      exact ⟨hc, hp, Nat.le_trans (Nat.le_add_right _ _) hcost⟩

section Apostrophes

theorem count_lineBreak (indent : Bool) (depth : Nat) :
    (lineBreak indent depth).count '\'' = 0 := by
  cases indent <;> simp [lineBreak, List.count_replicate]

theorem count_quoted (s : String) : (quoted s).count '\'' = s.toList.count '\'' := by
  simp [quoted]

theorem count_numberChars (n : Float) : (numberChars n).count '\'' = 0 := by
  by_cases h : n.isFinite = true
  · obtain ⟨m, _, _, htext, -⟩ := exists_numeral_of_text h
    rw [numberChars, if_pos h, htext]
    exact m.count_eq_zero rfl rfl
  · rw [numberChars, if_neg h]
    decide

mutual

/-- The text of a value has just the apostrophes of its texts. -/
theorem count_chars (indent : Bool) : (v : Json) → ∀ depth, (v.chars indent depth).count '\''
      = (v.texts.map fun s => s.toList.count '\'').sum
  | object [], depth => by simp [chars, texts, memberTexts]
  | object (m :: ms), depth => by
    have := count_memberChars indent (m :: ms) (depth + 1)
    rw [chars, texts, ← this]
    simp [count_lineBreak]
  | array [], depth => by simp [chars, texts, itemTexts]
  | array (v :: vs), depth => by
    have := count_itemChars indent (v :: vs) (depth + 1)
    rw [chars, texts, ← this]
    simp [count_lineBreak]
  | number n, depth => by simp [chars, texts, count_numberChars]
  | boolean b, depth => by
    rw [chars, texts]
    cases b <;> decide
  | string s, depth => by simp [chars, texts, count_quoted]
  | null, depth => by simp [chars, texts]

theorem count_memberChars (indent : Bool) : (ms : List (String × Json)) → ∀ depth,
    (memberChars indent depth ms).count '\''
      = ((memberTexts ms).map fun s => s.toList.count '\'').sum
  | [], depth => by simp [memberChars, memberTexts]
  | (k, v) :: ms, depth => by
    have hcolon : (colon indent).count '\'' = 0 := by cases indent <;> rfl
    have hcomma : (if ms.isEmpty then [] else [',']).count '\'' = 0 := by split <;> rfl
    rw [memberChars, memberTexts, List.map_cons, List.sum_cons, List.map_append, List.sum_append,
      ← count_chars indent v depth, ← count_memberChars indent ms depth]
    simp only [List.count_append, count_lineBreak, count_quoted, hcolon, hcomma]
    omega

theorem count_itemChars (indent : Bool) : (vs : List Json) → ∀ depth,
    (itemChars indent depth vs).count '\''
      = ((itemTexts vs).map fun s => s.toList.count '\'').sum
  | [], depth => by simp [itemChars, itemTexts]
  | v :: vs, depth => by
    have hcomma : (if vs.isEmpty then [] else [',']).count '\'' = 0 := by split <;> rfl
    rw [itemChars, itemTexts, List.map_append, List.sum_append, ← count_chars indent v depth,
      ← count_itemChars indent vs depth]
    simp only [List.count_append, count_lineBreak, hcomma]
    omega

end

end Apostrophes

/-- Where the costs come to no more than the apostrophes, double quotes can close every text. -/
theorem closed_of_sum_cost_le {ss : List String}
    (h : (ss.map Literal.cost).sum ≤ (ss.map fun s => s.toList.count '\'').sum) :
    ∀ s ∈ ss, closed '"' false s.toList = true := by
  by_contra hopen
  push Not at hopen
  obtain ⟨s, hs, hopen⟩ := hopen
  refine absurd h (Nat.not_le.2 (List.sum_lt_sum _ _ (fun _ _ => Nat.le_add_right _ _) ⟨s, hs, ?_⟩))
  rw [Literal.cost, if_neg hopen]
  exact Nat.lt_add_of_pos_right (by decide)

/-- If the text of a value reads back as an equal value, double quotes can close all its texts. -/
theorem closed_of_parse_chars {v w : Json} {indent : Bool} {depth : Nat}
    (h : parse (String.ofList (v.chars indent depth)) = .ok w) (heq : (w == v) = true) :
    ∀ s ∈ v.texts, closed '"' false s.toList = true := by
  -- The text that was read has no apostrophes but those of the texts in `v`, which are those in `w`.
  obtain ⟨-, -, hcost⟩ := proper_of_parse h
  rw [String.toList_ofList, count_chars, cost, texts_eq_of_equals heq] at hcost
  exact closed_of_sum_cost_le hcost

/-- A value that was read, with finite numbers, reads back as an equal value from both of its texts
if and only if double quotes can close each text in it. -/
theorem parse_written_iff {text : String} {v : Json} (h : parse text = .ok v)
    (hn : ∀ n ∈ v.numbers, n.isFinite = true) :
    ((∃ w, parse v.compact = .ok w ∧ (w == v) = true) ∧
      ∃ w, parse v.pretty = .ok w ∧ (w == v) = true) ↔
    ∀ s ∈ v.texts, closed '"' false s.toList = true := by
  obtain ⟨hc, hp, -⟩ := proper_of_parse h
  constructor
  · rintro ⟨⟨w, hw, heq⟩, -⟩
    exact closed_of_parse_chars hw heq
  · intro ht
    exact ⟨⟨v, parse_chars hc hp hn ht false, equals_self v hn⟩,
      v, parse_chars hc hp hn ht true, equals_self v hn⟩

theorem parse_written_iff_apostrophe :
    parse "['it',true]" = .ok (array [string "it", boolean true]) ∧
    (((∃ w, parse (array [string "it", boolean true]).compact = .ok w ∧
        (w == array [string "it", boolean true]) = true) ∧
      ∃ w, parse (array [string "it", boolean true]).pretty = .ok w ∧
        (w == array [string "it", boolean true]) = true) ↔
    ∀ s ∈ (array [string "it", boolean true]).texts, closed '"' false s.toList = true) := by
  let q : Quotation := ⟨'\'', ['i', 't'], rfl, rfl⟩
  let d : Derivation := .array (.cons (.string q) (.last (.boolean true)))
  have hs : Led d.lexemes "['it',true]".toList :=
    ((((led_singleton [']']).prepend (word true)).prepend [',']).prepend q.chars).prepend ['[']
  have h := parse_of_led (d := d) rfl hs
  exact ⟨h, parse_written_iff h (by simp [numbers, itemNumbers])⟩

/-- Between apostrophes a double quote needs no escape, and what is written then is refused. -/
theorem parse_written_double_quote : ∃ v, parse "['a\"b']" = .ok v ∧
    (∀ n ∈ v.numbers, n.isFinite = true) ∧
    (¬ ∃ w, parse v.compact = .ok w ∧ (w == v) = true) ∧
    ¬ ∃ w, parse v.pretty = .ok w ∧ (w == v) = true := by
  let q : Quotation := ⟨'\'', ['a', '"', 'b'], rfl, rfl⟩
  let d : Derivation := .array (.last (.string q))
  have hs : Led d.lexemes "['a\"b']".toList := ((led_singleton [']']).prepend q.chars).prepend ['[']
  have hopen : ¬ ∀ s ∈ d.value.texts, closed '"' false s.toList = true := by decide
  refine ⟨d.value, parse_of_led rfl hs, by decide, ?_, ?_⟩
  · rintro ⟨w, hw, heq⟩
    exact hopen (closed_of_parse_chars hw heq)
  · rintro ⟨w, hw, heq⟩
    exact hopen (closed_of_parse_chars hw heq)

end Json

end Reckoner
