/-!
# UTF-8, one character at a time

A byte that starts an encoding tells how many bytes it has (`width`). Bytes stand for a character
exactly when they are its encoding (`decode?_eq_some_iff`), so overlong forms, surrogates and
numbers past the last character stand for none.
-/

namespace Reckoner.Text.Utf8

/-- How many bytes an encoding that starts with `lead` has, if one starts so. -/
def width (lead : UInt8) : Option Nat :=
  let n := lead.toNat
  if n ≤ 0x7F then some 1
  else if 0xC2 ≤ n ∧ n ≤ 0xDF then some 2
  else if 0xE0 ≤ n ∧ n ≤ 0xEF then some 3
  else if 0xF0 ≤ n ∧ n ≤ 0xF4 then some 4
  else none

/-- The character whose encoding is exactly `bytes`. -/
def decode? (bytes : List UInt8) : Option Char :=
  (bytes.toByteArray.utf8DecodeChar? 0).filter fun c => String.utf8EncodeChar c = bytes

theorem decode?_eq_some_iff {bytes : List UInt8} {c : Char} :
    decode? bytes = some c ↔ String.utf8EncodeChar c = bytes := by
  simp only [decode?, Option.filter_eq_some_iff, decide_eq_true_eq]
  refine ⟨fun h => h.2, fun h => ⟨?_, h⟩⟩
  have := ByteArray.utf8DecodeChar?_utf8EncodeChar_append (b := ByteArray.empty) (c := c)
  rw [h] at this
  simpa using this

end Reckoner.Text.Utf8
