import Reckoner.Decimal.Shortest

/-!
# A decimal in pieces

A decimal goes to its destination in several pieces: the sign, the digits before the point, the
point, and so on. Together they are the decimal written out (`flatten_pieces`).
-/

namespace Reckoner

namespace Decimal

/-- A row of `n` zeros, at most sixty-four in one piece. -/
def zeroPieces (n : Nat) : List (List Char) :=
  if 64 < n then List.replicate 64 '0' :: zeroPieces (n - 64)
  else if 0 < n then [List.replicate n '0']
  else []

/-- The pieces of a row of digits times a power of ten. -/
def positionalPieces (digits : List Char) (exponent : Int) : List (List Char) :=
  if 0 ≤ exponent then digits :: zeroPieces exponent.toNat
  else
    let places := (-exponent).toNat
    if places < digits.length then
      [digits.take (digits.length - places), ['.'], digits.drop (digits.length - places)]
    else ['0', '.'] :: zeroPieces (places - digits.length) ++ [digits]

/-- The pieces of a decimal. -/
def pieces (d : Decimal) : List (List Char) :=
  let body := positionalPieces (Nat.toDigits 10 d.digits) d.exponent
  if d.negative then ['-'] :: body else body

theorem flatten_zeroPieces (n : Nat) : (zeroPieces n).flatten = List.replicate n '0' := by
  fun_induction zeroPieces n with
  | case1 n h ih =>
    rw [List.flatten_cons, ih, List.replicate_append_replicate]
    congr 1
    omega
  | case2 => simp
  | case3 n _ h =>
    rw [Nat.eq_zero_of_not_pos h]
    rfl

theorem flatten_positionalPieces (digits : List Char) (exponent : Int) :
    (positionalPieces digits exponent).flatten = positional digits exponent := by
  simp only [positionalPieces, positional]
  split
  · simp [flatten_zeroPieces]
  · split <;> simp [flatten_zeroPieces]

theorem flatten_pieces (d : Decimal) : d.pieces.flatten = d.chars := by
  simp only [pieces, chars]
  split <;> simp [flatten_positionalPieces]

end Decimal

end Reckoner
