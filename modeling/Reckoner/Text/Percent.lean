/-!
# Percent encoding

A byte written as a percent sign and two digits in base sixteen, of either case when it is read
(`decode_encodeByte`). A percent sign that no two such digits follow stands for itself.
-/

namespace Reckoner.Text.Percent

/-- A digit in base sixteen. -/
def digit (n : Nat) : Char :=
  (Nat.digitChar n).toUpper

/-- The value of a digit in base sixteen. -/
def digit? (c : Char) : Option Nat :=
  (List.range 16).find? fun n => digit n = c.toUpper

/-- A byte as a percent sign and two digits. -/
def encodeByte (b : UInt8) : List Char :=
  ['%', digit (b.toNat / 16), digit (b.toNat % 16)]

/-- The characters, with the bytes of those that are not kept encoded. -/
def encode (keep : Char → Bool) (cs : List Char) : List Char :=
  cs.flatMap fun c => if keep c then [c] else (String.utf8EncodeChar c).flatMap encodeByte

/-- The bytes that encoded characters stand for. -/
def decode : List Char → List UInt8
  | [] => []
  | c :: rest =>
    match c, rest with
    | '%', a :: b :: rest =>
      match digit? a, digit? b with
      | some x, some y => UInt8.ofNat (16 * x + y) :: decode rest
      | _, _ => String.utf8EncodeChar '%' ++ decode (a :: b :: rest)
    | c, rest => String.utf8EncodeChar c ++ decode rest

/-- The text that encoded characters stand for, if their bytes encode one. -/
def decodeText? (cs : List Char) : Option String :=
  String.fromUTF8? (decode cs).toByteArray

theorem digit?_digit {n : Nat} (h : n < 16) : digit? (digit n) = some n := by
  have all : ∀ n : Fin 16, digit? (digit n) = some n.val := by decide
  exact all ⟨n, h⟩

theorem decode_encodeByte (b : UInt8) (rest : List Char) :
    decode (encodeByte b ++ rest) = b :: decode rest := by
  have hb : b.toNat < 256 := b.toNat_lt
  have hi : digit? (digit (b.toNat / 16)) = some (b.toNat / 16) := digit?_digit (by omega)
  have lo : digit? (digit (b.toNat % 16)) = some (b.toNat % 16) := digit?_digit (by omega)
  simp only [encodeByte, List.cons_append, List.nil_append, decode, hi, lo, Nat.div_add_mod]
  simp

end Reckoner.Text.Percent
