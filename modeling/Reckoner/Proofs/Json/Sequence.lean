import Reckoner.Proofs.Json.Reading

/-!
# Documents in a row

A document is read up to its last bracket and no further, whatever follows it. So the documents of a
concatenation are given one after the other, and what follows the last of them stays
(`Json.readDocuments_of_led`).
-/

namespace Reckoner.Json

open Text Cursor

/-- Reads `n` documents one after the other: their results, and the cursor past the last. -/
def readDocuments : Nat → Cursor → List (Except SyntaxError (Option Json)) × Cursor
  | 0, c => ([], c)
  | n + 1, c =>
    let (result, rest) := readDocument c
    let (results, rest) := readDocuments n rest
    (result :: results, rest)

theorem readDocuments_succ {c d : Cursor} {r : Except SyntaxError (Option Json)}
    (h : readDocument c = (r, d)) (n : Nat) :
    readDocuments (n + 1) c = (r :: (readDocuments n d).1, (readDocuments n d).2) := by
  rw [readDocuments, h]

variable {post : List Char}

theorem readDocuments_of_led : {ds : List Derivation} → {text : List Char} →
    (∀ d ∈ ds, d.isContainer = true) → Led (ds.flatMap Derivation.lexemes) text →
    readDocuments ds.length (ofList (text ++ post))
      = (ds.map fun d => .ok (some d.value), ofList post)
  | [], _, _, .nil => rfl
  | d :: ds, text, hd, hs => by
    obtain ⟨hfirst, hrest⟩ := List.forall_mem_cons.1 hd
    obtain ⟨a, b, rfl, ha, hb⟩ := Led.of_append hs
    have hread := readDocument_of_led hfirst (faces_ofList (a ++ (b ++ post))) ha
    rw [List.append_assoc, List.length_cons, readDocuments_succ hread,
      readDocuments_of_led hrest hb, List.map_cons]

/-- A document in front of any others and of anything else gives its value and leaves all that
follows it; together they give their values in order and leave what follows the last. -/
theorem readDocument_readDocuments {d : Derivation} {ds : List Derivation}
    (hd : ∀ e ∈ d :: ds, e.isContainer = true) {text texts : List Char} (hs : Led d.lexemes text)
    (hss : Led (ds.flatMap Derivation.lexemes) texts) :
    readDocument (ofList (text ++ (texts ++ post)))
        = (.ok (some d.value), ofList (texts ++ post)) ∧
      readDocuments (d :: ds).length (ofList (text ++ (texts ++ post)))
        = ((d :: ds).map fun e => .ok (some e.value), ofList post) := by
  have hall : Led ((d :: ds).flatMap Derivation.lexemes) (text ++ texts) := hs.append hss
  refine ⟨readDocument_of_led (List.forall_mem_cons.1 hd).1 (faces_ofList _) hs, ?_⟩
  rw [← List.append_assoc]
  exact readDocuments_of_led hd hall

/-- An object with a repeated key, an array with a comma at its end, and an opening bracket. -/
theorem readDocument_readDocuments_pair :
    let key : Quotation := ⟨'"', ['k'], rfl, rfl⟩
    let one : Scientific := ⟨⟨['+', '1', '.'], rfl⟩, rfl, none⟩
    let ten : Scientific := ⟨⟨['1'], rfl⟩, rfl, some ⟨'E', rfl, ⟨['.', '5'], rfl⟩⟩⟩
    let d : Derivation := .object (.cons key (.number one) (.last key (.number ten)))
    let e : Derivation := .array (.cons (.string ⟨'\'', ['\\', '\''], rfl, rfl⟩) .nil)
    readDocument (ofString " \x7b\"k\": +1.,\t\"k\":1E.5\x7d\n['\\'',][")
        = (.ok (some d.value), ofString "\n['\\'',][") ∧
      readDocuments 2 (ofString " \x7b\"k\": +1.,\t\"k\":1E.5\x7d\n['\\'',][")
        = ([.ok (some d.value), .ok (some e.value)], ofString "[") := by
  intro key one ten d e
  have hd : Led d.lexemes " \x7b\"k\": +1.,\t\"k\":1E.5\x7d".toList := by
    have hmember : Led [key.chars, [':'], ten.chars, ['\x7d']] "\t\"k\":1E.5\x7d".toList :=
      .cons (by decide : Blanks ['\t']) (((led_singleton ['\x7d']).prepend ten.chars).prepend [':'])
    have hone : Led ([one.chars, [',']] ++ [key.chars, [':'], ten.chars, ['\x7d']])
        " +1.,\t\"k\":1E.5\x7d".toList :=
      .cons (by decide : Blanks [' ']) (hmember.prepend [','])
    exact .cons (by decide : Blanks [' ']) ((hone.prepend [':']).prepend key.chars)
  have he : Led ([e].flatMap Derivation.lexemes) "\n['\\'',]".toList :=
    .cons (by decide : Blanks ['\n'])
      (((led_singleton [']']).prepend [',']).prepend ['\'', '\\', '\'', '\''])
  have hcontainers : ∀ x ∈ [d, e], x.isContainer = true := by simp [d, e, Derivation.isContainer]
  have hall : ofString " \x7b\"k\": +1.,\t\"k\":1E.5\x7d\n['\\'',]["
      = ofList (" \x7b\"k\": +1.,\t\"k\":1E.5\x7d".toList ++ ("\n['\\'',]".toList ++ ['['])) :=
    congrArg ofList (by decide)
  have hrest : ofString "\n['\\'',][" = ofList ("\n['\\'',]".toList ++ ['[']) :=
    congrArg ofList (by decide)
  have hlast : ofString "[" = ofList ['['] := congrArg ofList (by decide)
  rw [hall, hrest, hlast]
  exact readDocument_readDocuments hcontainers hd he

end Reckoner.Json
