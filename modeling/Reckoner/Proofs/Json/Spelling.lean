import Reckoner.Json.Grammar
import Reckoner.Proofs.Json.Derivation
import Reckoner.Proofs.Literal.Recognition

/-!
# Spellings of JSON values

    document := '{' '}' | '{' members '}' | '[' items ']'
    value    := [lost] document | [lost] 'null' | literal
    members  := quotation ':' value [',' members]
    items    := [lost] | value [',' items]

What the reader takes for a value. Besides what the grammar has, the number tokens may have stray
marks in them, and a token that gives no number may stand right in front of a value that is no
literal, or in the place of an item after the last. Without these the spelling is sound
(`Document.Sound`), as that of any derivation is (`Derivation.exists_document`).
-/

namespace Reckoner.Json

open Literal (Lexeme)

mutual

/-- An object or an array. -/
inductive Document : Type where
  | emptyObject
  | object (members : MemberSpelling)
  | array (items : ItemSpelling)

inductive Spelling : Type where
  | document (lost : Option Lost) (d : Document)
  | null (lost : Option Lost)
  | literal (l : Lexeme)

/-- One or more members. -/
inductive MemberSpelling : Type where
  | last (key : Quotation) (value : Spelling)
  | cons (key : Quotation) (value : Spelling) (rest : MemberSpelling)

/-- Any number of items; a comma may come last. -/
inductive ItemSpelling : Type where
  | nil (lost : Option Lost)
  | last (item : Spelling)
  | cons (item : Spelling) (rest : ItemSpelling)

end

/-- A lexeme behind a token that gives no number. -/
def behind (lost : Option Lost) (cs : List Char) : List Char :=
  lost.elim [] (·.chars) ++ cs

def Document.opening : Document → Char
  | .emptyObject | .object _ => '\x7b'
  | .array _ => '['

mutual

/-- The lexemes after the opening bracket. -/
def Document.rest : Document → List (List Char)
  | .emptyObject => [['\x7d']]
  | .object members => members.lexemes ++ [['\x7d']]
  | .array items => items.lexemes ++ [[']']]

def Spelling.lexemes : Spelling → List (List Char)
  | .document lost d => behind lost [d.opening] :: d.rest
  | .null lost => [behind lost ['n', 'u', 'l', 'l']]
  | .literal l => [l.chars]

def MemberSpelling.lexemes : MemberSpelling → List (List Char)
  | .last key value => key.chars :: [':'] :: value.lexemes
  | .cons key value rest => key.chars :: [':'] :: (value.lexemes ++ [','] :: rest.lexemes)

def ItemSpelling.lexemes : ItemSpelling → List (List Char)
  | .nil lost => lost.elim [] fun t => [t.chars]
  | .last item => item.lexemes
  | .cons item rest => item.lexemes ++ [','] :: rest.lexemes

end

def Document.lexemes (d : Document) : List (List Char) :=
  [d.opening] :: d.rest

theorem MemberSpelling.lexemes_eq_cons (s : MemberSpelling) :
    ∃ key : Quotation, ∃ ls, s.lexemes = key.chars :: ls := by
  cases s <;> exact ⟨_, _, rfl⟩

mutual

def Document.value : Document → Json
  | .emptyObject => object []
  | .object members => object (members.onto [])
  | .array items => array items.values

def Spelling.value : Spelling → Json
  | .document _ d => d.value
  | .null _ => null
  | .literal l => ofLiteral l.value

/-- The members after those that there are already. -/
def MemberSpelling.onto : MemberSpelling → Members Json → Members Json
  | .last key value, members => members.insert key.text value.value
  | .cons key value rest, members => rest.onto (members.insert key.text value.value)

def ItemSpelling.values : ItemSpelling → List Json
  | .nil _ => []
  | .last item => [item.value]
  | .cons item rest => item.value :: rest.values

end

mutual

/-- No mark in a number is without its exponent, and no token is lost. -/
def Document.Sound : Document → Prop
  | .emptyObject => True
  | .object members => members.Sound
  | .array items => items.Sound

def Spelling.Sound : Spelling → Prop
  | .document lost d => lost = none ∧ d.Sound
  | .null lost => lost = none
  | .literal l => l.Sound

def MemberSpelling.Sound : MemberSpelling → Prop
  | .last _ value => value.Sound
  | .cons _ value rest => value.Sound ∧ rest.Sound

def ItemSpelling.Sound : ItemSpelling → Prop
  | .nil lost => lost = none
  | .last item => item.Sound
  | .cons item rest => item.Sound ∧ rest.Sound

end

mutual

/-- A derivation as the reader takes it. -/
def Derivation.spelling : Derivation → Spelling
  | .emptyObject => .document none .emptyObject
  | .object members => .document none (.object members.spelling)
  | .array items => .document none (.array items.spelling)
  | .number n => .literal (.number n.found)
  | .boolean b => .literal (.boolean b)
  | .string q => .literal (.string q)
  | .null => .null none

def MemberRow.spelling : MemberRow → MemberSpelling
  | .last key value => .last key value.spelling
  | .cons key value rest => .cons key value.spelling rest.spelling

def ItemRow.spelling : ItemRow → ItemSpelling
  | .nil => .nil none
  | .last item => .last item.spelling
  | .cons item rest => .cons item.spelling rest.spelling

end

mutual

theorem Derivation.lexemes_spelling : (d : Derivation) → d.spelling.lexemes = d.lexemes
  | .emptyObject | .boolean _ | .string _ | .null => rfl
  | .object members => by
    rw [Derivation.spelling, Spelling.lexemes, Document.rest, members.lexemes_spelling]
    rfl
  | .array items => by
    rw [Derivation.spelling, Spelling.lexemes, Document.rest, items.lexemes_spelling]
    rfl
  | .number n => congrArg (fun cs => [cs]) n.chars_found

theorem MemberRow.lexemes_spelling : (d : MemberRow) → d.spelling.lexemes = d.lexemes
  | .last key value => by
    rw [MemberRow.spelling, MemberSpelling.lexemes, value.lexemes_spelling, MemberRow.lexemes]
  | .cons key value rest => by
    rw [MemberRow.spelling, MemberSpelling.lexemes, value.lexemes_spelling, rest.lexemes_spelling,
      MemberRow.lexemes]

theorem ItemRow.lexemes_spelling : (d : ItemRow) → d.spelling.lexemes = d.lexemes
  | .nil => rfl
  | .last item => by
    rw [ItemRow.spelling, ItemSpelling.lexemes, item.lexemes_spelling, ItemRow.lexemes]
  | .cons item rest => by
    rw [ItemRow.spelling, ItemSpelling.lexemes, item.lexemes_spelling, rest.lexemes_spelling,
      ItemRow.lexemes]

end

mutual

theorem Derivation.value_spelling : (d : Derivation) → d.spelling.value = d.value
  | .emptyObject | .boolean _ | .string _ | .null => rfl
  | .object members => congrArg object (members.onto_spelling [])
  | .array items => congrArg array items.values_spelling
  | .number n => congrArg number n.value_found

theorem MemberRow.onto_spelling :
    (d : MemberRow) → (members : Members Json) → d.spelling.onto members = d.onto members
  | .last key value, members => by
    rw [MemberRow.spelling, MemberSpelling.onto, value.value_spelling, MemberRow.onto]
  | .cons key value rest, members => by
    rw [MemberRow.spelling, MemberSpelling.onto, value.value_spelling, rest.onto_spelling,
      MemberRow.onto]

theorem ItemRow.values_spelling : (d : ItemRow) → d.spelling.values = d.values
  | .nil => rfl
  | .last item => by
    rw [ItemRow.spelling, ItemSpelling.values, item.value_spelling, ItemRow.values]
  | .cons item rest => by
    rw [ItemRow.spelling, ItemSpelling.values, item.value_spelling, rest.values_spelling,
      ItemRow.values]

end

mutual

theorem Derivation.sound_spelling : (d : Derivation) → d.spelling.Sound
  | .emptyObject => ⟨rfl, trivial⟩
  | .object members => ⟨rfl, members.sound_spelling⟩
  | .array items => ⟨rfl, items.sound_spelling⟩
  | .number n => n.sound_found
  | .boolean _ | .string _ => trivial
  | .null => rfl

theorem MemberRow.sound_spelling : (d : MemberRow) → d.spelling.Sound
  | .last _ value => value.sound_spelling
  | .cons _ value rest => ⟨value.sound_spelling, rest.sound_spelling⟩

theorem ItemRow.sound_spelling : (d : ItemRow) → d.spelling.Sound
  | .nil => rfl
  | .last item => item.sound_spelling
  | .cons item rest => ⟨item.sound_spelling, rest.sound_spelling⟩

end

/-- Whether the derivation is of an object or an array. -/
def Derivation.isContainer : Derivation → Bool
  | .emptyObject | .object _ | .array _ => true
  | _ => false

theorem Derivation.exists_document {d : Derivation} (hd : d.isContainer = true) :
    ∃ b : Document, b.lexemes = d.lexemes ∧ b.value = d.value ∧ b.Sound := by
  have hl := d.lexemes_spelling
  have hv := d.value_spelling
  have hs := d.sound_spelling
  cases d with
  | emptyObject => exact ⟨_, hl, hv, hs.2⟩
  | object members => exact ⟨_, hl, hv, hs.2⟩
  | array items => exact ⟨_, hl, hv, hs.2⟩
  | _ => cases hd

end Reckoner.Json
