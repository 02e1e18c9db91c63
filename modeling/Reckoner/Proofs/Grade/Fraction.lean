import Mathlib.Data.Rat.Cast.Defs
import Mathlib.Tactic.FieldSimp
import Mathlib.Tactic.Ring
import Reckoner.Grade.Fraction
import Reckoner.Proofs.Except

/-!
# The numbers that fractions stand for

A fraction stands for a rational number if that is the quotient of its terms (`Fraction.Denotes`).
Whatever scaling, expanding, reducing and adding give stands for the number that these operations
have on the rational numbers: where a term does not fit, they give nothing.
-/

namespace Reckoner

namespace Fraction

theorem narrow_eq_ok {n : Int} {i : Int64} : narrow n = .ok i ↔ i.toInt = n := by
  have hmin : Int64.minValue.toInt = -2 ^ 63 := Int64.toInt_minValue
  have hmax : Int64.maxValue.toInt = 2 ^ 63 - 1 := Int64.toInt_maxValue
  rw [narrow, hmin, hmax]
  constructor
  · intro h
    split at h
    · rename_i hfits
      obtain rfl := Except.ok.inj h
      exact Int64.toInt_ofInt_of_le hfits.1 (by omega)
    · cases h
  · rintro rfl
    have hlow := i.le_toInt
    have hhigh := i.toInt_lt
    rw [if_pos ⟨hlow, by omega⟩, Int64.ofInt_toInt]

theorem toInt_ne_zero {n : Int64} : n.toInt ≠ 0 ↔ n ≠ 0 := by
  rw [← Int64.toInt_zero, Ne, Int64.toInt_inj]

/-- The fraction is the quotient of its terms, and that is `q`. -/
structure Denotes (f : Fraction) (q : ℚ) : Prop where
  denominator_ne : f.denominator.toInt ≠ 0
  numerator_eq : (f.numerator.toInt : ℚ) = q * f.denominator.toInt

variable {f g h : Fraction} {p q : ℚ} {n : Int64}

theorem denotes_one : one.Denotes 1 :=
  ⟨by decide, by rw [one, one_mul]⟩

theorem Denotes.scaleUp (hf : f.Denotes q) (hg : f.scaleUp n = .ok g) :
    g.Denotes (q * n.toInt) := by
  obtain ⟨numerator, hnum, hg⟩ := bind_eq_ok.1 hg
  rw [narrow_eq_ok] at hnum
  obtain rfl := Except.ok.inj hg
  refine ⟨hf.denominator_ne, ?_⟩
  rw [hnum, Int.cast_mul, hf.numerator_eq]
  ring

theorem Denotes.scaleDown (hf : f.Denotes q) (hn : n ≠ 0) (hg : f.scaleDown n = .ok g) :
    g.Denotes (q / n.toInt) := by
  have hn' : (n.toInt : ℚ) ≠ 0 := Int.cast_ne_zero.2 (toInt_ne_zero.2 hn)
  rw [Fraction.scaleDown, if_neg hn] at hg
  obtain ⟨denominator, hden, hg⟩ := bind_eq_ok.1 hg
  rw [narrow_eq_ok] at hden
  obtain rfl := Except.ok.inj hg
  refine ⟨?_, ?_⟩
  · rw [hden]
    exact mul_ne_zero hf.denominator_ne (toInt_ne_zero.2 hn)
  · rw [hden, Int.cast_mul, hf.numerator_eq]
    field_simp

/-- Expanding keeps the number and multiplies the denominator. -/
theorem Denotes.expand (hf : f.Denotes q) (hn : n ≠ 0) (hg : f.expand n = .ok g) :
    g.Denotes q ∧ g.denominator.toInt = f.denominator.toInt * n.toInt := by
  rw [Fraction.expand, if_neg hn] at hg
  obtain ⟨numerator, hnum, hg⟩ := bind_eq_ok.1 hg
  obtain ⟨denominator, hden, hg⟩ := bind_eq_ok.1 hg
  rw [narrow_eq_ok] at hnum hden
  obtain rfl := Except.ok.inj hg
  refine ⟨⟨?_, ?_⟩, hden⟩
  · rw [hden]
    exact mul_ne_zero hf.denominator_ne (toInt_ne_zero.2 hn)
  · rw [hnum, hden, Int.cast_mul, Int.cast_mul, hf.numerator_eq, mul_assoc]

/-- The algorithm keeps the common divisors of the two numbers, and those of a number and zero are
the divisors of the number. -/
theorem toNat_euclid (a b : UInt64) : (euclid a b).toNat = Nat.gcd a.toNat b.toNat := by
  induction a, b using euclid.induct with
  | case1 a => rw [euclid, if_pos rfl, UInt64.toNat_zero, Nat.gcd_zero_right]
  | case2 a b hb ih =>
    rw [euclid, if_neg hb, ih, UInt64.toNat_mod, Nat.gcd_comm b.toNat, ← Nat.gcd_rec, Nat.gcd_comm]

theorem toNat_magnitude (n : Int64) : (magnitude n).toNat = n.toInt.natAbs := by
  have hlow := n.le_toInt
  have hhigh := n.toInt_lt
  rw [magnitude, UInt64.toNat_ofNat', Nat.mod_eq_of_lt (by omega)]

/-- What reducing divides the terms by is their greatest common divisor. -/
theorem toNat_euclid_magnitude (n d : Int64) :
    (euclid (magnitude n) (magnitude d)).toNat = Int.gcd n.toInt d.toInt := by
  rw [toNat_euclid, toNat_magnitude, toNat_magnitude, Int.gcd]

/-- The terms of a fraction are multiples of the terms of the reduced one. -/
theorem exists_of_reduced (hf : f.denominator.toInt ≠ 0) (hg : f.reduced = .ok g) :
    ∃ k : Int, k ≠ 0 ∧ f.numerator.toInt = g.numerator.toInt * k ∧
      f.denominator.toInt = g.denominator.toInt * k := by
  rw [Fraction.reduced, toNat_euclid_magnitude] at hg
  obtain ⟨divisor, hdiv, hg⟩ := bind_eq_ok.1 hg
  obtain ⟨numerator, hnum, hg⟩ := bind_eq_ok.1 hg
  obtain ⟨denominator, hden, hg⟩ := bind_eq_ok.1 hg
  rw [narrow_eq_ok] at hdiv hnum hden
  obtain rfl := Except.ok.inj hg
  have hpos : 0 < Int.gcd f.numerator.toInt f.denominator.toInt := Int.gcd_pos_of_ne_zero_right _ hf
  have hgcd : divisor.toInt = Int.gcd f.numerator.toInt f.denominator.toInt := by omega
  have hdvdn : divisor.toInt ∣ f.numerator.toInt := hgcd ▸ Int.gcd_dvd_left ..
  have hdvdd : divisor.toInt ∣ f.denominator.toInt := hgcd ▸ Int.gcd_dvd_right ..
  -- The sign is moved by multiplying both terms with it; its square is one.
  obtain ⟨sign, hsign, hsq⟩ : ∃ sign : Int, (if f.denominator.toInt < 0 then -1 else 1) = sign ∧
      sign * sign = 1 := by
    split
    · exact ⟨-1, rfl, rfl⟩
    · exact ⟨1, rfl, rfl⟩
  rw [hsign] at hnum hden
  have hne : sign ≠ 0 := by
    rintro rfl
    cases hsq
  refine ⟨divisor.toInt * sign, mul_ne_zero (by omega) hne, ?_, ?_⟩
  · rw [hnum, mul_mul_mul_comm, Int.tdiv_mul_cancel hdvdn, hsq, mul_one]
  · rw [hden, mul_mul_mul_comm, Int.tdiv_mul_cancel hdvdd, hsq, mul_one]

theorem Denotes.reduced (hf : f.Denotes q) (hg : f.reduced = .ok g) : g.Denotes q := by
  obtain ⟨k, hk, hnum, hden⟩ := exists_of_reduced hf.denominator_ne hg
  have hk' : (k : ℚ) ≠ 0 := Int.cast_ne_zero.2 hk
  have heq := hf.numerator_eq
  rw [hnum, hden, Int.cast_mul, Int.cast_mul, ← mul_assoc] at heq
  refine ⟨fun h0 => hf.denominator_ne ?_, mul_right_cancel₀ hk' heq⟩
  rw [hden, h0, zero_mul]

section Add

variable {numerator denominator : Int64}

theorem Denotes.add_numerators (hf : f.Denotes p) (hg : g.Denotes q)
    (heq : f.denominator.toInt = g.denominator.toInt)
    (hnum : numerator.toInt = f.numerator.toInt + g.numerator.toInt) :
    Denotes ⟨numerator, f.denominator⟩ (p + q) := by
  refine ⟨hf.denominator_ne, ?_⟩
  rw [hnum, Int.cast_add, hf.numerator_eq, hg.numerator_eq, heq, add_mul]

theorem Denotes.add_crosswise (hf : f.Denotes p) (hg : g.Denotes q)
    (hnum : numerator.toInt = f.numerator.toInt * g.denominator.toInt
      + g.numerator.toInt * f.denominator.toInt)
    (hden : denominator.toInt = f.denominator.toInt * g.denominator.toInt) :
    Denotes ⟨numerator, denominator⟩ (p + q) := by
  refine ⟨hden ▸ mul_ne_zero hf.denominator_ne hg.denominator_ne, ?_⟩
  rw [hnum, hden, Int.cast_add, Int.cast_mul, Int.cast_mul, Int.cast_mul,
    hf.numerator_eq, hg.numerator_eq]
  ring

end Add

/-- Adding is reducing a fraction that stands for the sum. -/
theorem Denotes.exists_of_add (hf : f.Denotes p) (hg : g.Denotes q) (hh : f.add g = .ok h) :
    ∃ sum : Fraction, sum.Denotes (p + q) ∧ sum.reduced = .ok h := by
  rw [Fraction.add] at hh
  by_cases heq : f.denominator.toInt = g.denominator.toInt
  · rw [if_pos heq] at hh
    obtain ⟨numerator, hnum, hh⟩ := bind_eq_ok.1 hh
    rw [narrow_eq_ok] at hnum
    exact ⟨_, hf.add_numerators hg heq hnum, hh⟩
  · rw [if_neg heq] at hh
    obtain ⟨ad, had, hh⟩ := bind_eq_ok.1 hh
    obtain ⟨cb, hcb, hh⟩ := bind_eq_ok.1 hh
    obtain ⟨numerator, hnum, hh⟩ := bind_eq_ok.1 hh
    obtain ⟨denominator, hden, hh⟩ := bind_eq_ok.1 hh
    rw [narrow_eq_ok] at had hcb hnum hden
    rw [had, hcb] at hnum
    exact ⟨_, hf.add_crosswise hg hnum hden, hh⟩

theorem Denotes.add (hf : f.Denotes p) (hg : g.Denotes q) (hh : f.add g = .ok h) :
    h.Denotes (p + q) := by
  obtain ⟨sum, hsum, hh⟩ := hf.exists_of_add hg hh
  exact hsum.reduced hh

/-- A fraction with equal terms stands for one. -/
theorem Denotes.eq_one_of_isOne (hf : f.Denotes q) (h : f.isOne = true) : q = 1 := by
  have hterms : f.numerator = f.denominator := by simpa [isOne] using h
  have hne : (f.denominator.toInt : ℚ) ≠ 0 := Int.cast_ne_zero.2 hf.denominator_ne
  have heq := hf.numerator_eq
  rw [hterms] at heq
  exact mul_right_cancel₀ hne (by rw [one_mul, ← heq])

theorem Denotes.isOne (hf : f.Denotes 1) : f.isOne = true := by
  have heq := hf.numerator_eq
  rw [one_mul] at heq
  have hterms : f.numerator = f.denominator := Int64.toInt_inj.1 (by exact_mod_cast heq)
  simp [Fraction.isOne, hterms]

end Fraction

end Reckoner
