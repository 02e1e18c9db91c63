import Reckoner.Json.Grammar
import Reckoner.Proofs.Cursor.Outcomes
import Reckoner.Proofs.Json.Spelling
import Reckoner.Proofs.Literal.Taking

/-!
# Reading JSON

The reader gives, for every text that spells a value, the value. A value is read in front of whatever
can follow it in a container (`Spelling.gives_readValue`), and an object or an array ends with its last
bracket (`Document.readDocument_eq`). In particular it gives the value of every derivation
(`readDocument_of_led`).
-/

namespace Reckoner.Json

open Text Cursor

/-- Whether a value in a container can end in front of the character. -/
def endsValue (x : Char) : Bool :=
  x = ',' || x = ']' || x = '\x7d'

theorem stops_of_endsValue {x : Char} (h : endsValue x = true) : stops x = true := by
  simp only [endsValue, Bool.or_eq_true, decide_eq_true_eq] at h
  rcases h with (rfl | rfl) | rfl <;> rfl

theorem endsBefore_of_before {e : Option Remote} {post : List Char} (h : Before endsValue post) :
    EndsBefore e post := by
  have h : Before stops post := h.mono fun x => stops_of_endsValue
  refine ⟨fun _ => h, fun _ => h.head_of_imp (fun x => inNumeral_of_isBlank) fun x hx => ?_⟩
  exact (Bool.or_eq_false_iff.1 (Literal.goesOn_of_stops hx)).1

section Dispatch

variable {c : Cursor} {post : List Char}

theorem gives_readValue_literal {l : Literal} {d : Cursor}
    (h : Literal.readValue c = (.ok (some l), d)) :
    (readValue c).Gives (.ok (some (ofLiteral l))) (· = d) := by
  rw [readValue]
  refine Step.Gives.andThen_ok (Step.gives_of_pair h (P := (· = d)) rfl) ?_
  rintro _ - rfl
  exact Step.gives_done _ rfl

/-- Where no literal is given, the value is as the next character tells. -/
theorem gives_readValue_of_none {r : Except SyntaxError (Option Json)} {P : Cursor → Prop} {x : Char}
    (hnone : Literal.readValue c = (.ok none, ofList (x :: post)))
    (h : ∀ hd, (if x = '\x7b' then ((readObject (ofList post)).map some).beyond hd
      else if x = '[' then ((readArray (ofList post)).map some).beyond hd
      else if x = 'n' then (readNull (ofList (x :: post))).map some
      else .done none (ofList (x :: post))).Gives r P) : (readValue c).Gives r P := by
  rw [readValue]
  refine Step.Gives.andThen_ok (Step.gives_of_pair hnone (P := (· = ofList (x :: post))) rfl) ?_
  rintro _ - rfl
  exact (h (by simp)).of_pair_eq (Step.pair_onPeek_some (peek_ofList _) rfl (by simp))

theorem gives_readValue_object {v : Json} {P : Cursor → Prop}
    (hnone : Literal.readValue c = (.ok none, ofList ('\x7b' :: post)))
    (h : (readObject (ofList post)).Gives (.ok v) P) : (readValue c).Gives (.ok (some v)) P :=
  gives_readValue_of_none hnone fun hd => (h.map some).beyond hd

theorem gives_readValue_array {v : Json} {P : Cursor → Prop}
    (hnone : Literal.readValue c = (.ok none, ofList ('[' :: post)))
    (h : (readArray (ofList post)).Gives (.ok v) P) : (readValue c).Gives (.ok (some v)) P :=
  gives_readValue_of_none hnone fun hd => (h.map some).beyond hd

theorem gives_readValue_null
    (hnone : Literal.readValue c = (.ok none, ofList ('n' :: 'u' :: 'l' :: 'l' :: post))) :
    (readValue c).Gives (.ok (some null)) (· = ofList post) := by
  refine gives_readValue_of_none hnone fun _ => ?_
  have hnull : (readNull (ofList ('n' :: 'u' :: 'l' :: 'l' :: post))).pair
      = (.ok null, ofList post) := by
    simp [readNull, Step.pair]
  exact (Step.gives_of_pair hnull rfl).map some

theorem gives_readValue_none (hnone : Literal.readValue c = (.ok none, ofList post))
    (hpost : Before endsValue post) : (readValue c).Gives (.ok none) (· = ofList post) := by
  rw [readValue]
  refine Step.Gives.andThen_ok (Step.gives_of_pair hnone (P := (· = ofList post)) rfl) ?_
  rintro _ - rfl
  cases post with
  | nil => exact (Step.gives_done none rfl).of_pair_eq (Step.pair_onPeek_none rfl)
  | cons x post =>
    have hx : x ≠ '\x7b' ∧ x ≠ '[' ∧ x ≠ 'n' := by
      refine ⟨?_, ?_, ?_⟩ <;> rintro rfl <;> exact absurd (hpost.head _ rfl) (by decide)
    refine Step.Gives.of_pair_eq ?_ (Step.pair_onPeek_some (peek_ofList _) rfl (by simp))
    rw [if_neg hx.1, if_neg hx.2.1, if_neg hx.2.2]
    exact Step.gives_done _ rfl

/-- Behind a lost token, or behind none, the value is what stands there. -/
theorem readValue_behind {lost : Option Lost} {x : Char} {cs : List Char}
    (hc : c.skipBlanks = ofList (behind lost (x :: cs)))
    (hx : (Literal.announces x || inNumeral x) = false) :
    Literal.readValue c = (.ok none, ofList (x :: cs)) := by
  obtain ⟨hannounces, hnumeral⟩ := Bool.or_eq_false_iff.1 hx
  cases lost with
  | none => exact Literal.readValue_none hc (by simpa using hannounces)
  | some t =>
    have hends : EndsBefore t.exponent (x :: cs) :=
      ⟨fun h => absurd t.raised (by simp [h]), fun _ => by simpa using hnumeral⟩
    obtain ⟨d, hd, -, hexact⟩ := Literal.readValue_token (.lost t.hasNoDigit t.raised) hc hends
    rw [hd, hexact t.raised]
    rfl

theorem gives_readObject_empty {text : List Char} (hs : Led [['\x7d']] text) :
    (readObject (ofList (text ++ post))).Gives (.ok (object [])) (· = ofList post) := by
  obtain ⟨cs, hcs, hclose⟩ := (faces_ofList (text ++ post)).isNext_led hs rfl
  cases hcs
  rw [readObject]
  exact Step.gives_onNext_true hclose fun _ => Step.gives_done _ rfl

theorem gives_readObject {s : MemberSpelling} {text : List Char}
    (hs : Led (s.lexemes ++ [['\x7d']]) text)
    (h : ∀ c, Faces c (text ++ post) →
      (readMembers [] c).Gives (.ok (s.onto [])) (· = ofList post)) :
    (readObject (ofList (text ++ post))).Gives (.ok (object (s.onto []))) (· = ofList post) := by
  obtain ⟨key, ls, hls⟩ := s.lexemes_eq_cons
  rw [hls, List.cons_append] at hs
  obtain ⟨cs, -, hsk⟩ := (faces_ofList (text ++ post)).of_led hs key.solid
  rw [readObject]
  refine Step.gives_onNext_false ((faces_ofList (text ++ post)).isNext_of_ne ?_) fun _ => ?_
  · rw [← peek_ofList, ← skipBlanks_ofList, hsk]
    intro hbrace
    have hquote := key.isQuote
    rw [show key.quote = '\x7d' by simpa [Quotation.chars] using hbrace] at hquote
    cases hquote
  · exact (h _ (faces_ofList _).skipBlanks).map object

theorem gives_readArray {vs : List Json} (h : (readItems c).Gives (.ok vs) (·.Faces (']' :: post))) :
    (readArray c).Gives (.ok (array vs)) (· = ofList post) := by
  rw [readArray]
  refine h.andThen_ok fun d _ hd => ?_
  exact Step.gives_require (hd.isNext_cons rfl) fun _ => Step.gives_done _ rfl

/-- After a key, a colon and a value the members go on as what comes next tells. -/
theorem gives_readMembers {members : Members Json} {key : Quotation} {v : Json} {a b : List Char}
    {r : Except SyntaxError (Members Json)} {P : Cursor → Prop}
    (hkey : c.skipBlanks = ofList (key.chars ++ a))
    (hcolon : (ofList a).isNext ':' = (true, ofList b))
    (hv : (readValue (ofList b)).Gives (.ok (some v)) (·.Faces post))
    (h : ∀ d, d.Faces post → (Step.onNext ',' d (fun c₄ _ => readMembers (members.insert key.text v) c₄)
      fun c₄ _ => .require '\x7d' c₄ (.expectedChar '\x7d') fun c₅ _ =>
        .done (members.insert key.text v) c₅).Gives r P) :
    (readMembers members c).Gives r P := by
  rw [readMembers]
  refine Step.Gives.andThen_ok (Step.gives_of_pair (Literal.readString_quotation key hkey) rfl)
    (P := (· = ofList a)) ?_
  rintro _ - rfl
  exact Step.gives_require hcolon fun _ => hv.andThen_ok fun d _ hd => h d hd

end Dispatch

theorem behind_append (lost : Option Lost) (a b : List Char) :
    behind lost a ++ b = behind lost (a ++ b) :=
  List.append_assoc ..

theorem behind_solid (lost : Option Lost) {x : Char} (hx : isBlank x = false) (cs : List Char) :
    ((behind lost (x :: cs)).head?.any fun x => !isBlank x) = true := by
  cases lost with
  | none => simpa [behind] using hx
  | some t =>
    obtain ⟨y, ys, hfront, hy, -⟩ := isHeld_iff.1 t.isHeld_front
    simp [behind, Token.chars, hfront, isBlank_of_announcesNumber hy]

/-- Before a closing bracket there may be a lost token, and no value. -/
theorem exists_of_lost {c : Cursor} {lost : Option Lost} {text post : List Char}
    (hc : c.Faces (text ++ post)) (hs : Led ((ItemSpelling.nil lost).lexemes ++ [[']']]) text) :
    ∃ cs, Literal.readValue c = (.ok none, ofList cs) ∧ Before endsValue cs ∧
      (ofList cs).Faces (']' :: post) := by
  cases lost with
  | none =>
    obtain ⟨cs, hcs, hsk⟩ := hc.of_led hs rfl
    cases hcs
    have hannounces : Literal.announces ']' = false := rfl
    exact ⟨_, Literal.readValue_none hsk (by simpa using hannounces), before_cons rfl rfl _,
      faces_ofList _⟩
  | some t =>
    obtain ⟨cs, hcs, hsk⟩ := hc.of_led hs t.solid
    have hbefore : Before endsValue (cs ++ post) := hcs.before rfl rfl post
    obtain ⟨d, hd, -, hexact⟩ :=
      Literal.readValue_token (.lost t.hasNoDigit t.raised) hsk (endsBefore_of_before hbefore)
    obtain ⟨gap, rest, rfl, hg, hrest⟩ := hcs.of_cons
    cases hrest
    refine ⟨_, by rw [hd, hexact t.raised]; rfl, hbefore, ?_⟩
    have := faces_ofList (gap ++ ']' :: post)
    simpa using this.of_append hg

mutual

theorem Document.gives_readValue {c : Cursor} {text post : List Char} :
    (d : Document) → Literal.readValue c = (.ok none, ofList (d.opening :: (text ++ post))) →
    Led d.rest text → (readValue c).Gives (.ok (some d.value)) (· = ofList post)
  | .emptyObject, hnone, hs => gives_readValue_object hnone (gives_readObject_empty hs)
  | .object members, hnone, hs =>
    gives_readValue_object hnone
      (gives_readObject hs fun _ hc => members.gives_readMembers [] hc hs)
  | .array items, hnone, hs =>
    gives_readValue_array hnone (gives_readArray (items.gives_readItems (faces_ofList _) hs))

/-- A value is read in front of what can follow it in a container. -/
theorem Spelling.gives_readValue {c : Cursor} {text post : List Char} :
    (s : Spelling) → c.Faces (text ++ post) → Led s.lexemes text → Before endsValue post →
    (readValue c).Gives (.ok (some s.value)) (·.Faces post)
  | .document lost d, hc, hs, _ => by
    have hopening : isBlank d.opening = false := by cases d <;> rfl
    obtain ⟨cs, hcs, hsk⟩ := hc.of_led hs (behind_solid lost hopening [])
    rw [behind_append] at hsk
    have hnone : Literal.readValue c = (.ok none, ofList (d.opening :: (cs ++ post))) :=
      readValue_behind hsk (by cases d <;> rfl)
    exact (d.gives_readValue hnone hcs).mono fun _ h => h ▸ faces_ofList post
  | .null lost, hc, hs, _ => by
    obtain ⟨cs, hcs, hsk⟩ := hc.of_led hs (behind_solid lost rfl _)
    cases hcs
    rw [behind_append] at hsk
    exact (gives_readValue_null (readValue_behind hsk rfl)).mono fun _ h => h ▸ faces_ofList post
  | .literal (.string q), hc, hs, _ => by
    obtain ⟨cs, hcs, hsk⟩ := hc.of_led hs q.solid
    cases hcs
    exact (gives_readValue_literal (Literal.readValue_quotation q hsk)).mono
      fun _ h => h ▸ faces_ofList post
  | .literal (.number t), hc, hs, hp => by
    obtain ⟨cs, hcs, hsk⟩ := hc.of_led hs t.solid
    cases hcs
    -- Every other value ends by itself, but a number could go on with what follows.
    obtain ⟨d, hd, hfaces, -⟩ :=
      Literal.readValue_token (.found t.hasDigit) hsk (endsBefore_of_before hp)
    exact (gives_readValue_literal hd).mono fun _ h => h ▸ hfaces
  | .literal (.boolean b), hc, hs, _ => by
    obtain ⟨cs, hcs, hsk⟩ := hc.of_led hs (by cases b <;> rfl)
    cases hcs
    exact (gives_readValue_literal (Literal.readValue_word b hsk)).mono
      fun _ h => h ▸ faces_ofList post

/-- Members are read up to the closing brace, with those that there are already. -/
theorem MemberSpelling.gives_readMembers {c : Cursor} {text post : List Char} :
    (s : MemberSpelling) → (members : Members Json) → c.Faces (text ++ post) →
    Led (s.lexemes ++ [['\x7d']]) text →
    (readMembers members c).Gives (.ok (s.onto members)) (· = ofList post)
  | .last key value, members, hc, hs => by
    obtain ⟨cs, hcs, hkey⟩ := hc.of_led hs key.solid
    obtain ⟨cs', hcs', hcolon⟩ := (faces_ofList (cs ++ post)).isNext_led hcs rfl
    obtain ⟨a, b, rfl, ha, hb⟩ := hcs'.of_append
    rw [List.append_assoc] at hcolon
    have hv := value.gives_readValue (faces_ofList _) ha (hb.before rfl rfl post)
    refine Json.gives_readMembers hkey hcolon hv fun d hd => ?_
    obtain ⟨cs, hcs, hsk⟩ := hd.of_led hb rfl
    cases hcs
    refine Step.gives_onNext_false (isNext_of_skipBlanks hsk ',') fun _ => ?_
    refine Step.gives_require ((faces_ofList ('\x7d' :: post)).isNext_cons rfl) fun _ => ?_
    exact Step.gives_done _ rfl
  | .cons key value rest, members, hc, hs => by
    rw [MemberSpelling.lexemes, List.cons_append, List.cons_append, List.append_assoc] at hs
    obtain ⟨cs, hcs, hkey⟩ := hc.of_led hs key.solid
    obtain ⟨cs', hcs', hcolon⟩ := (faces_ofList (cs ++ post)).isNext_led hcs rfl
    obtain ⟨a, b, rfl, ha, hb⟩ := hcs'.of_append
    rw [List.append_assoc] at hcolon
    have hv := value.gives_readValue (faces_ofList _) ha (hb.before rfl rfl post)
    refine Json.gives_readMembers hkey hcolon hv fun d hd => ?_
    obtain ⟨cs, hcs, hcomma⟩ := hd.isNext_led hb rfl
    refine Step.gives_onNext_true hcomma fun _ => ?_
    exact rest.gives_readMembers _ (faces_ofList _) hcs

/-- Items are read up to the closing bracket, which stays. -/
theorem ItemSpelling.gives_readItems {c : Cursor} {text post : List Char} :
    (s : ItemSpelling) → c.Faces (text ++ post) → Led (s.lexemes ++ [[']']]) text →
    (readItems c).Gives (.ok s.values) (·.Faces (']' :: post))
  | .nil lost, hc, hs => by
    obtain ⟨cs, hnone, hbefore, hfaces⟩ := exists_of_lost hc hs
    rw [readItems]
    refine (gives_readValue_none hnone hbefore).andThen_ok ?_
    rintro _ - rfl
    exact Step.gives_done _ hfaces
  | .last item, hc, hs => by
    obtain ⟨a, b, rfl, ha, hb⟩ := hs.of_append
    rw [List.append_assoc] at hc
    rw [readItems]
    refine (item.gives_readValue hc ha (hb.before rfl rfl post)).andThen_ok fun d _ hd => ?_
    obtain ⟨cs, hcs, hsk⟩ := hd.of_led hb rfl
    cases hcs
    exact Step.gives_onNext_false (isNext_of_skipBlanks hsk ',') fun _ =>
      Step.gives_done _ (faces_ofList _)
  | .cons item rest, hc, hs => by
    rw [ItemSpelling.lexemes, List.append_assoc, List.cons_append] at hs
    obtain ⟨a, b, rfl, ha, hb⟩ := hs.of_append
    rw [List.append_assoc] at hc
    rw [readItems]
    refine (item.gives_readValue hc ha (hb.before rfl rfl post)).andThen_ok fun d _ hd => ?_
    obtain ⟨cs, hcs, hcomma⟩ := hd.isNext_led hb rfl
    refine Step.gives_onNext_true hcomma fun _ => ?_
    exact (rest.gives_readItems (faces_ofList _) hcs).map (item.value :: ·)

end

section Document

variable {c : Cursor} {text post : List Char} {v : Json}

theorem readDocument_object (hc : c.skipBlanks = ofList ('\x7b' :: post)) {d : Cursor}
    (h : (readObject (ofList post)).Gives (.ok v) (· = d)) :
    readDocument c = (.ok (some v), d) := by
  have hpeek : c.skipBlanks.peek = some '\x7b' := by rw [hc, peek_ofList, List.head?_cons]
  have hpop : c.skipBlanks.pop.2 = ofList post := by rw [hc, pop_ofList, List.tail_cons]
  rw [← hpop] at h
  simp only [readDocument, hpeek]
  exact Prod.ext (congrArg (Except.map some) h.1) (h.2 v rfl)

theorem readDocument_array (hc : c.skipBlanks = ofList ('[' :: post)) {d : Cursor}
    (h : (readArray (ofList post)).Gives (.ok v) (· = d)) :
    readDocument c = (.ok (some v), d) := by
  have hpeek : c.skipBlanks.peek = some '[' := by rw [hc, peek_ofList, List.head?_cons]
  have hpop : c.skipBlanks.pop.2 = ofList post := by rw [hc, pop_ofList, List.tail_cons]
  rw [← hpop] at h
  simp only [readDocument, hpeek]
  exact Prod.ext (congrArg (Except.map some) h.1) (h.2 v rfl)

/-- An object or an array is read in front of anything. -/
theorem Document.readDocument_eq (d : Document) (hc : c.Faces (text ++ post)) (hs : Led d.lexemes text) :
    readDocument c = (.ok (some d.value), ofList post) := by
  obtain ⟨cs, hcs, hsk⟩ := hc.of_led hs (by cases d <;> rfl)
  cases d with
  | emptyObject => exact readDocument_object hsk (gives_readObject_empty hcs)
  | object members =>
    exact readDocument_object hsk (gives_readObject hcs fun _ hc =>
      members.gives_readMembers [] hc hcs)
  | array items =>
    exact readDocument_array hsk (gives_readArray (items.gives_readItems (faces_ofList _) hcs))

theorem readDocument_of_led {d : Derivation} (hd : d.isContainer = true)
    (hc : c.Faces (text ++ post)) (hs : Led d.lexemes text) :
    readDocument c = (.ok (some d.value), ofList post) := by
  obtain ⟨b, hlexemes, hvalue, -⟩ := Derivation.exists_document hd
  rw [← hlexemes] at hs
  rw [← hvalue]
  exact b.readDocument_eq hc hs

/-- A text that spells an object or an array is accepted. -/
theorem Document.parse_eq (d : Document) {text : String} (hs : Spaced d.lexemes text.toList) :
    parse text = .ok d.value := by
  obtain ⟨front, gap, htext, hled, hgap⟩ := hs.exists_led
  have hread := d.readDocument_eq (faces_ofList (front ++ gap)) hled
  have hblank : gap.dropWhile isBlank = [] := List.dropWhile_eq_nil_iff.2 hgap
  simp only [parse, ofString, htext, hread, skipBlanks_ofList, hblank, peek_ofList, List.head?_nil]

theorem parse_of_led {d : Derivation} (hd : d.isContainer = true) {text : String}
    (hs : Led d.lexemes text.toList) : parse text = .ok d.value := by
  obtain ⟨b, hlexemes, hvalue, -⟩ := Derivation.exists_document hd
  rw [← hlexemes] at hs
  rw [← hvalue]
  exact b.parse_eq hs.spaced

end Document

end Reckoner.Json
