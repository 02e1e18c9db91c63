import Reckoner.Loading
import Reckoner.Proofs.Json.Alike
import Reckoner.Proofs.Json.Recognition

/-!
# Documents by location

Where a location yields a text, reading a document there and reading the text part only behind the
document: the one takes any front of the text that is a document (`Json.load_eq_ok_iff`), the other
the whole text. So they agree on a text just if nothing but blanks follows a document in it
(`Json.load_agrees_iff`).
-/

namespace Reckoner.Json

open Text Cursor Grammar

/-- Whether the first character that is not blank opens an object or an array. -/
def opensDocument (text : String) : Bool :=
  (text.toList.dropWhile isBlank).head?.any fun x => x = '\x7b' || x = '['

/-- A front of the text is a document that is read as `v`, and behind it `x` is the first character
that is not blank. -/
def Followed (text : String) (v : Json) (x : Char) : Prop :=
  ∃ front rest, text.toList = front ++ rest ∧ parse (String.ofList front) = .ok v ∧
    (rest.dropWhile isBlank).head? = some x

section Front

variable {cs front : List Char} {v : Json}

theorem exists_front_of_readDocument {d : Cursor}
    (h : readDocument (ofList cs) = (.ok (some v), d)) :
    ∃ front post, cs = front ++ post ∧ parse (String.ofList front) = .ok v ∧ d = ofList post := by
  obtain ⟨b, post, ⟨front, rfl, hs⟩, rfl, rfl⟩ := exists_document_of_readDocument h
  exact ⟨front, post, rfl, b.parse_eq (by rwa [String.toList_ofList]), rfl⟩

/-- A document in front of anything is read, up to blanks behind it. -/
theorem readDocument_front (h : parse (String.ofList front) = .ok v) (post : List Char) :
    ∃ gap, Blanks gap ∧
      readDocument (ofList (front ++ post)) = (.ok (some v), ofList (gap ++ post)) := by
  obtain ⟨b, hs, rfl⟩ := exists_document_of_parse h
  rw [String.toList_ofList] at hs
  obtain ⟨text, gap, rfl, hled, hgap⟩ := hs.exists_led
  refine ⟨gap, hgap, ?_⟩
  rw [List.append_assoc]
  exact b.readDocument_eq (faces_ofList _) hled

/-- What comes behind a document in a text decides whether the text is accepted. -/
theorem parse_of_front {text : String} {rest : List Char} (h : parse (String.ofList front) = .ok v)
    (htext : text.toList = front ++ rest) :
    parse text = match (rest.dropWhile isBlank).head? with
      | some x => .error (.unexpectedCharacter x)
      | none => .ok v := by
  obtain ⟨gap, hgap, hread⟩ := readDocument_front h rest
  have hpeek : (ofList (gap ++ rest)).skipBlanks.peek = (rest.dropWhile isBlank).head? := by
    rw [skipBlanks_ofList, hgap.dropWhile_append, peek_ofList]
  rw [parse, ofString, htext, hread]
  cases hx : (rest.dropWhile isBlank).head? <;> simp only [hpeek, hx]

/-- Only where an object or an array starts is there anything to be malformed. -/
theorem readDocument_ne_none {text : String} (h : opensDocument text = true) :
    (readDocument (ofString text)).1 ≠ .ok none := by
  have hmap : ∀ (r : Except SyntaxError Json), r.map some ≠ .ok none := by
    rintro (e | v) h <;> cases h
  simp only [opensDocument, Option.any_eq_true, Bool.or_eq_true, decide_eq_true_eq] at h
  obtain ⟨x, hhead, rfl | rfl⟩ := h <;>
  · simp only [readDocument, ofString, skipBlanks_ofList, peek_ofList, hhead]
    exact hmap _

end Front

section Load

variable {υ : Type} [Url υ] {r : Resolver υ} {location text : String} {s : Source} {v : Json}

/-- What is loaded is told by the characters that the location yields, however its source stops. -/
theorem load_eq (hr : r.resolve location = .ok s) (hs : s.toList = text.toList) :
    load r location = match (readDocument (ofString text)).1 with
      | .error e => .error (.malformed e)
      | .ok none => .error (.notADocument location)
      | .ok (some v) => .ok v := by
  have halike : Alike opensNumber (.outside false) (ofSource s) (ofString text) := by
    refine ⟨primed_ofSource s, primed_ofSource _, ?_, .inl ?_⟩
    · rw [← toList_pending, pending_ofSource, hs, ofString, remaining_ofList]
      rfl
    · rw [ofString, queue_ofList]
      exact congrArg Pending.queue (pending_ofSource s)
  have hread := (agrees_readDocument halike).result_eq
  rw [← hread, load, Cursor.load, hr]
  rfl

/-- A document is loaded from a text just if it is a front of it. -/
theorem load_eq_ok_iff (hr : r.resolve location = .ok s) (hs : s.toList = text.toList) :
    load r location = .ok v ↔
      ∃ front rest, text.toList = front ++ rest ∧ parse (String.ofList front) = .ok v := by
  rw [load_eq hr hs]
  constructor
  · intro h
    rcases hread : readDocument (ofString text) with ⟨_ | _ | w, d⟩ <;> rw [hread] at h <;> cases h
    obtain ⟨front, rest, htext, hparse, -⟩ := exists_front_of_readDocument hread
    exact ⟨front, rest, htext, hparse⟩
  · rintro ⟨front, rest, htext, hparse⟩
    obtain ⟨gap, -, hread⟩ := readDocument_front hparse rest
    rw [ofString, htext, hread]

/-- What follows a document does not matter to the one and matters to the other. -/
theorem load_of_followed {x : Char} (hr : r.resolve location = .ok s) (hs : s.toList = text.toList)
    (h : Followed text v x) :
    load r location = .ok v ∧ parse text = .error (.unexpectedCharacter x) := by
  obtain ⟨front, rest, htext, hparse, hx⟩ := h
  refine ⟨(load_eq_ok_iff hr hs).2 ⟨front, rest, htext, hparse⟩, ?_⟩
  rw [parse_of_front hparse htext, hx]

/-- Where a location yields the text, reading a document there agrees with reading the text on every
value, and on every error behind the bracket that opens an object or an array, if and only if no
document in the text is followed by anything but blanks. Where one is, it is loaded, and the text is
refused. -/
theorem load_agrees_iff (hr : r.resolve location = .ok s) (hs : s.toList = text.toList) :
    (((∀ v, load r location = .ok v ↔ parse text = .ok v) ∧
        ∀ e, opensDocument text = true → parse text = .error e →
          load r location = .error (.malformed e)) ↔
      ¬ ∃ v x, Followed text v x) ∧
    ∀ v x, Followed text v x →
      load r location = .ok v ∧ parse text = .error (.unexpectedCharacter x) := by
  refine ⟨⟨?_, fun h => ?_⟩, fun v x => load_of_followed hr hs⟩
  · rintro ⟨hok, -⟩ ⟨v, x, h⟩
    obtain ⟨hload, hrefused⟩ := load_of_followed hr hs h
    rw [(hok v).1 hload] at hrefused
    cases hrefused
  · rw [load_eq hr hs]
    rcases hread : readDocument (ofString text) with ⟨e | _ | v, d⟩
    · have hparse : parse text = .error e := by rw [parse, hread]
      rw [hparse]
      refine ⟨fun v => ⟨?_, ?_⟩, ?_⟩
      · rintro ⟨⟩
      · rintro ⟨⟩
      · rintro _ - ⟨⟩
        rfl
    · have hparse : parse text = .error (.expectedChar '\x7b') := by rw [parse, hread]
      rw [hparse]
      refine ⟨fun v => ⟨?_, ?_⟩, fun e hopens _ => ?_⟩
      · rintro ⟨⟩
      · rintro ⟨⟩
      · exact absurd (congrArg Prod.fst hread) (readDocument_ne_none hopens)
    · obtain ⟨front, rest, htext, hfront, -⟩ := exists_front_of_readDocument hread
      have hparse : parse text = .ok v := by
        rw [parse_of_front hfront htext]
        cases hx : (rest.dropWhile isBlank).head? with
        | none => rfl
        | some x => exact absurd ⟨v, x, front, rest, htext, hfront, hx⟩ h
      rw [hparse]
      exact ⟨fun w => by simp, fun e _ he => by cases he⟩

end Load

/-- The file system in which each file holds the text and then cannot be read on. -/
def brokenOff (text : String) : Resolver :=
  .standard fun _ => some (.ofListThen text.toList (.failed .ioError))

/-- An array with a comma at its end and blanks behind it, in a file that then fails. -/
theorem load_agrees_iff_comma :
    let text := " ['a',]\t\n"
    (brokenOff text).resolve "doc.json" = .ok (.ofListThen text.toList (.failed .ioError)) ∧
      (Source.ofListThen text.toList (.failed .ioError)).toList = text.toList ∧
      (((∀ v, load (brokenOff text) "doc.json" = .ok v ↔ parse text = .ok v) ∧
          ∀ e, opensDocument text = true → parse text = .error e →
            load (brokenOff text) "doc.json" = .error (.malformed e)) ↔
        ¬ ∃ v x, Followed text v x) ∧
      ∀ v x, Followed text v x →
        load (brokenOff text) "doc.json" = .ok v ∧ parse text = .error (.unexpectedCharacter x) := by
  intro text
  have hr : (brokenOff text).resolve "doc.json"
      = .ok (.ofListThen text.toList (.failed .ioError)) := by
    decide +kernel
  have hs : (Source.ofListThen text.toList (.failed .ioError)).toList = text.toList := by decide
  exact ⟨hr, hs, load_agrees_iff hr hs⟩

/-- A document is loaded although a word follows it, and the same text is refused. -/
theorem load_trailing_word :
    ∃ (r : Resolver) (s : Source), r.resolve "doc.json" = .ok s ∧ s.toList = "[true] x".toList ∧
      opensDocument "[true] x" = true ∧ load r "doc.json" = .ok (.array [.boolean true]) ∧
      parse "[true] x" = .error (.unexpectedCharacter 'x') := by
  have hfront : parse (String.ofList "[true]".toList) = .ok (.array [.boolean true]) :=
    (Document.array (.last (.literal (.boolean true)))).parse_eq (spaced_of_spells (by rfl))
  have hfollowed : Followed "[true] x" (.array [.boolean true]) 'x' :=
    ⟨_, " x".toList, by decide, hfront, by decide⟩
  let r : Resolver := .standard fun _ => some (.ofList "[true] x".toList)
  have hr : r.resolve "doc.json" = .ok (.ofList "[true] x".toList) := by decide +kernel
  have hs := Source.toList_ofList "[true] x".toList
  exact ⟨r, _, hr, hs, by decide, load_of_followed hr hs hfollowed⟩

end Reckoner.Json
