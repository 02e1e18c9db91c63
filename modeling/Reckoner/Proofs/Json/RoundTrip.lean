import Reckoner.Json.Text
import Reckoner.Proofs.Decimal.ReadBack
import Reckoner.Proofs.Json.Contents
import Reckoner.Proofs.Json.Reading

/-!
# Reading what was written

The text of a value, compact or indented, spells a derivation of the value
(`Json.exists_derivation`), provided that its numbers are finite and each of its texts can stand
between double quotes. So an object or an array reads back as it was written
(`Json.parse_compact_pretty`).
-/

namespace Reckoner

open Text Literal

namespace Members

variable {α : Type}

theorem insert_of_lt {key : String} {value : α} {ms : Members α} (h : ∀ m ∈ ms, m.1 < key) :
    ms.insert key value = ms ++ [(key, value)] := by
  induction ms with
  | nil => rfl
  | cons m ms ih =>
    obtain ⟨hm, hms⟩ := List.forall_mem_cons.1 h
    have hne : key ≠ m.1 := by
      rintro rfl
      exact String.lt_irrefl _ hm
    rw [insert, if_neg (String.lt_asymm hm), if_neg hne, ih hms, List.cons_append]

/-- A member that comes after all others is stored at the end. -/
theorem insert_of_ascending {ms rest : Members α} {m : String × α}
    (h : Ascending (ms ++ m :: rest)) : ms.insert m.1 m.2 = ms ++ [m] :=
  insert_of_lt fun _ hn => (List.pairwise_append.1 h).2.2 _ hn m List.mem_cons_self

end Members

namespace Json

theorem blanks_lineBreak (indent : Bool) (depth : Nat) : Blanks (lineBreak indent depth) := by
  cases indent with
  | false => exact blanks_nil
  | true =>
    intro x hx
    rcases List.mem_cons.1 hx with rfl | hx
    · rfl
    · rw [List.eq_of_mem_replicate hx]
      rfl

/-- A text as it is written, where double quotes can close it. -/
def quotation (s : String) (h : closed '"' false s.toList = true) : Quotation :=
  ⟨'"', s.toList, rfl, h⟩

theorem text_quotation {s : String} (h : closed '"' false s.toList = true) :
    (quotation s h).text = s :=
  String.ofList_toList

/-- A finite number is written as one. -/
theorem exists_scientific {n : Float} (h : n.isFinite = true) :
    ∃ m : Scientific, m.value = n ∧ numberChars n = m.chars := by
  obtain ⟨m, x, rest, htext, hvalue, hm, hx⟩ := exists_numeral_of_text h
  have hannounced : m.chars.head?.any announcesNumber = true := by
    rw [hm]
    simp only [Bool.or_eq_true, decide_eq_true_eq] at hx
    rcases hx with hx | rfl
    · simp [announcesNumber, hx]
    · rfl
  refine ⟨⟨m, hannounced, none⟩, hvalue, ?_⟩
  rw [numberChars, if_pos h, htext]
  exact (List.append_nil _).symm

/-- A member on a line of its own spells key, colon and value. -/
theorem led_member {k : String} (hk : closed '"' false k.toList = true) {v : Json} {d : Derivation}
    {indent : Bool} {depth : Nat} (hv : Led d.lexemes (v.chars indent depth)) :
    Led ((quotation k hk).chars :: [':'] :: d.lexemes)
      (lineBreak indent depth ++ quoted k ++ colon indent ++ v.chars indent depth) := by
  have hgap : ∃ gap, colon indent = [':'] ++ gap ∧ Blanks gap := by
    cases indent with
    | false => exact ⟨[], rfl, blanks_nil⟩
    | true => exact ⟨[' '], rfl, by simp [Blanks]; rfl⟩
  obtain ⟨gap, hcolon, hgap⟩ := hgap
  rw [hcolon, List.append_assoc _ ([':'] ++ gap), List.append_assoc [':']]
  exact .cons (blanks_lineBreak indent depth)
    ((hv.blanks_append d.lexemes_ne_nil hgap).prepend [':'])

/-- Something on lines of its own and a bracket on the next spell what they are. -/
theorem led_bracketed {ls : List (List Char)} {cs : List Char} (left right : Char) {indent : Bool}
    {depth : Nat} (h : Led ls cs) :
    Led ([left] :: (ls ++ [[right]])) (left :: cs ++ lineBreak indent depth ++ [right]) := by
  have hright := (led_singleton [right]).blanks_append (List.cons_ne_nil _ _)
    (blanks_lineBreak indent depth)
  rw [List.append_assoc]
  exact (h.append hright).prepend [left]

mutual

/-- The text of a value spells a derivation of the value, at any depth. -/
theorem exists_derivation : (v : Json) → v.Proper → (∀ n ∈ v.numbers, n.isFinite = true) →
    (∀ s ∈ v.texts, closed '"' false s.toList = true) →
    ∃ d : Derivation, d.value = v ∧ ∀ indent depth, Led d.lexemes (v.chars indent depth)
  | object [], _, _, _ => ⟨.emptyObject, rfl, fun _ _ => by
      rw [chars]
      exact (led_singleton ['\x7d']).prepend ['\x7b']⟩
  | object (m :: ms), hp, hn, ht => by
    obtain ⟨d, hd, hs⟩ := exists_memberRow [] (m :: ms) (List.cons_ne_nil m ms) hp.1 hp.2 hn ht
    refine ⟨.object d, congrArg object hd, fun indent depth => ?_⟩
    rw [chars]
    exact led_bracketed _ _ (hs indent (depth + 1))
  | array [], _, _, _ => ⟨.array .nil, rfl, fun _ _ => by
      rw [chars]
      exact (led_singleton [']']).prepend ['[']⟩
  | array (v :: vs), hp, hn, ht => by
    obtain ⟨d, hd, hs⟩ := exists_itemRow (v :: vs) hp hn ht
    refine ⟨.array d, congrArg array hd, fun indent depth => ?_⟩
    rw [chars]
    exact led_bracketed _ _ (hs indent (depth + 1))
  | number n, _, hn, _ => by
    obtain ⟨m, hvalue, hm⟩ := exists_scientific (hn n (List.mem_singleton_self n))
    refine ⟨.number m, congrArg number hvalue, fun _ _ => ?_⟩
    rw [chars, hm]
    exact led_singleton _
  | boolean b, _, _, _ => ⟨.boolean b, rfl, fun _ _ => by cases b <;> exact led_singleton _⟩
  | string s, _, _, ht => by
    have hs := ht s (List.mem_singleton_self s)
    refine ⟨.string (quotation s hs), congrArg string (text_quotation hs), fun _ _ => ?_⟩
    exact led_singleton _
  | null, _, _, _ => ⟨.null, rfl, fun _ _ => led_singleton _⟩

theorem exists_memberRow (acc : Members Json) : (ms : Members Json) → ms ≠ [] →
    Members.Ascending (acc ++ ms) → ProperMembers ms → (∀ n ∈ memberNumbers ms, n.isFinite = true) →
    (∀ s ∈ memberTexts ms, closed '"' false s.toList = true) →
    ∃ d : MemberRow, d.onto acc = acc ++ ms ∧
      ∀ indent depth, Led d.lexemes (memberChars indent depth ms)
  -- As the keys ascend, each member is stored behind those in `acc`, which grows from left to right.
  | [], hne, _, _, _, _ => absurd rfl hne
  | [(k, v)], _, ha, hp, hn, ht => by
    obtain ⟨hk, ht⟩ := List.forall_mem_cons.1 ht
    obtain ⟨d, rfl, hs⟩ := exists_derivation v hp.1 (List.forall_mem_append.1 hn).1
      (List.forall_mem_append.1 ht).1
    refine ⟨.last (quotation k hk) d, ?_, fun indent depth => ?_⟩
    · rw [MemberRow.onto, text_quotation, Members.insert_of_ascending ha]
    · rw [MemberRow.lexemes, memberChars, memberChars]
      simpa using led_member hk (hs indent depth)
  | (k, v) :: m :: ms, _, ha, hp, hn, ht => by
    obtain ⟨hk, ht⟩ := List.forall_mem_cons.1 ht
    obtain ⟨hnv, hnms⟩ := List.forall_mem_append.1 hn
    obtain ⟨htv, htms⟩ := List.forall_mem_append.1 ht
    obtain ⟨d, rfl, hs⟩ := exists_derivation v hp.1 hnv htv
    have ha' : Members.Ascending (acc ++ [(k, d.value)] ++ m :: ms) := by simpa using ha
    obtain ⟨row, hrow, hrows⟩ := exists_memberRow (acc ++ [(k, d.value)]) (m :: ms)
      (List.cons_ne_nil m ms) ha' hp.2 hnms htms
    refine ⟨.cons (quotation k hk) d row, ?_, fun indent depth => ?_⟩
    · rw [MemberRow.onto, text_quotation, Members.insert_of_ascending ha, hrow]
      simp
    · rw [MemberRow.lexemes, memberChars]
      have := (led_member hk (hs indent depth)).append ((hrows indent depth).prepend [','])
      simpa using this

theorem exists_itemRow : (vs : List Json) → ProperItems vs →
    (∀ n ∈ itemNumbers vs, n.isFinite = true) →
    (∀ s ∈ itemTexts vs, closed '"' false s.toList = true) →
    ∃ d : ItemRow, d.values = vs ∧ ∀ indent depth, Led d.lexemes (itemChars indent depth vs)
  | [], _, _, _ => ⟨.nil, rfl, fun _ _ => .nil⟩
  | [v], hp, hn, ht => by
    obtain ⟨d, hd, hs⟩ := exists_derivation v hp.1 (List.forall_mem_append.1 hn).1
      (List.forall_mem_append.1 ht).1
    refine ⟨.last d, congrArg (fun x => [x]) hd, fun indent depth => ?_⟩
    rw [ItemRow.lexemes, itemChars, itemChars]
    simpa using (hs indent depth).blanks_append d.lexemes_ne_nil (blanks_lineBreak indent depth)
  | v :: w :: vs, hp, hn, ht => by
    obtain ⟨hnv, hnvs⟩ := List.forall_mem_append.1 hn
    obtain ⟨htv, htvs⟩ := List.forall_mem_append.1 ht
    obtain ⟨d, hd, hs⟩ := exists_derivation v hp.1 hnv htv
    obtain ⟨row, hrow, hrows⟩ := exists_itemRow (w :: vs) hp.2 hnvs htvs
    refine ⟨.cons d row, congrArg₂ List.cons hd hrow, fun indent depth => ?_⟩
    have hitem := (hs indent depth).blanks_append d.lexemes_ne_nil (blanks_lineBreak indent depth)
    rw [ItemRow.lexemes, itemChars]
    simpa using hitem.append ((hrows indent depth).prepend [','])

end

/-- Whether the value is an object or an array. -/
def isContainer : Json → Bool
  | object _ | array _ => true
  | _ => false

theorem isContainer_value (d : Derivation) : d.value.isContainer = d.isContainer := by
  cases d <;> rfl

theorem parse_chars {v : Json} (hc : v.isContainer = true) (hp : v.Proper)
    (hn : ∀ n ∈ v.numbers, n.isFinite = true)
    (ht : ∀ s ∈ v.texts, closed '"' false s.toList = true) (indent : Bool) :
    parse (String.ofList (v.chars indent 0)) = .ok v := by
  obtain ⟨d, rfl, hs⟩ := exists_derivation v hp hn ht
  rw [isContainer_value] at hc
  refine parse_of_led hc ?_
  rw [String.toList_ofList]
  exact hs indent 0

/-- An object or an array, however it came about, reads back as it was written, compact or indented,
if its numbers are finite and double quotes can close its texts. -/
theorem parse_compact_pretty {v : Json} (hc : v.isContainer = true) (hp : v.Proper)
    (hn : ∀ n ∈ v.numbers, n.isFinite = true)
    (ht : ∀ s ∈ v.texts, closed '"' false s.toList = true) :
    parse v.compact = .ok v ∧ parse v.pretty = .ok v ∧ (v == v) = true :=
  ⟨parse_chars hc hp hn ht false, parse_chars hc hp hn ht true, equals_self v hn⟩

theorem parse_compact_pretty_nested :
    let v := object [("a", array [number 1.5, string "it's", null]), ("b", object [])]
    parse v.compact = .ok v ∧ parse v.pretty = .ok v ∧ (v == v) = true := by
  refine parse_compact_pretty rfl ?_ ?_ ?_
  · refine ⟨List.pairwise_pair.2 (by decide), ?_⟩
    simp [Proper, ProperMembers, ProperItems, Members.Ascending]
  · simp only [numbers, memberNumbers, itemNumbers]
    decide
  · simp only [texts, memberTexts, itemTexts]
    decide

end Json

end Reckoner
