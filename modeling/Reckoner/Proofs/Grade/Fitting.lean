import Mathlib.Data.Int.GCD
import Mathlib.Tactic.GCongr
import Mathlib.Tactic.Linarith
import Mathlib.Tactic.Positivity
import Reckoner.Proofs.Grade.Fraction

/-!
# Fractions that fit

Fractions whose denominators divide one number stay so when they are added, and fit as long as that
number and what they come to at this denominator are far from the largest integer
(`Fraction.DenotesOver.add`). Scaling and expanding a fraction give its terms multiplied
where these fit (`Fraction.exists_scaleUp`, `Fraction.exists_scaleDown`, `Fraction.exists_expand`).
-/

namespace Reckoner

namespace Fraction

theorem exists_narrow {n : Int} (hlow : -2 ^ 63 ≤ n) (hhigh : n < 2 ^ 63) :
    ∃ i, narrow n = .ok i ∧ i.toInt = n := by
  have hi := Int64.toInt_ofInt_of_le hlow hhigh
  exact ⟨.ofInt n, narrow_eq_ok.2 hi, hi⟩

/-- The fraction stands for `q`, and its denominator is positive and divides `Q`. -/
structure DenotesOver (f : Fraction) (Q : ℕ) (q : ℚ) : Prop extends f.Denotes q where
  denominator_pos : 0 < f.denominator.toInt
  denominator_dvd : f.denominator.toInt ∣ Q

variable {f g : Fraction} {Q : ℕ} {p q : ℚ} {n : Int64}

namespace DenotesOver

theorem denominator_le (hf : f.DenotesOver Q q) (hQ : 0 < Q) : f.denominator.toInt ≤ Q :=
  Int.le_of_dvd (Int.natCast_pos.2 hQ) hf.denominator_dvd

theorem numerator_nonneg (hf : f.DenotesOver Q q) (hq : 0 ≤ q) : 0 ≤ f.numerator.toInt := by
  have hden : (0 : ℚ) < f.denominator.toInt := Int.cast_pos.2 hf.denominator_pos
  have hnum : (0 : ℚ) ≤ f.numerator.toInt := by
    rw [hf.numerator_eq]
    positivity
  exact_mod_cast hnum

theorem numerator_le (hf : f.DenotesOver Q q) (hQ : 0 < Q) (hq : 0 ≤ q) :
    (f.numerator.toInt : ℚ) ≤ q * Q := by
  have hden : (f.denominator.toInt : ℚ) ≤ Q := by exact_mod_cast hf.denominator_le hQ
  rw [hf.numerator_eq]
  gcongr

theorem numerator_lt (hf : f.DenotesOver Q q) (hQ : 0 < Q) (hq : 0 ≤ q) (h : q * Q < 2 ^ 31) :
    f.numerator.toInt < 2 ^ 31 := by
  have hlt := (hf.numerator_le hQ hq).trans_lt h
  exact_mod_cast hlt

/-- At the denominator `Q` the fraction has a whole numerator. -/
theorem exists_mul (hf : f.DenotesOver Q q) : ∃ z : ℤ, q * Q = z := by
  obtain ⟨k, hk⟩ := hf.denominator_dvd
  refine ⟨f.numerator.toInt * k, ?_⟩
  have hQ : (Q : ℚ) = f.denominator.toInt * k := by exact_mod_cast hk
  rw [hQ, Int.cast_mul, hf.numerator_eq, mul_assoc]

end DenotesOver

/-- Two numbers as multiples of their greatest common divisor. -/
theorem exists_gcd_mul {n d : ℤ} (hn : 0 ≤ n) (hd : 0 < d) : ∃ k n' d' : ℤ, Int.gcd n d = k ∧
    0 < k ∧ k ≤ d ∧ n = n' * k ∧ d = d' * k ∧ 0 ≤ n' ∧ n' ≤ n ∧ 0 < d' ∧ d' ≤ d ∧
    Int.gcd d' n' = 1 := by
  have hk : 0 < Int.gcd n d := Int.gcd_pos_of_ne_zero_right n hd.ne'
  obtain ⟨n', hn'⟩ := Int.gcd_dvd_left n d
  obtain ⟨d', hd'⟩ := Int.gcd_dvd_right n d
  have hcoprime : Int.gcd d' n' = 1 := by
    have h := Int.gcd_div_gcd_div_gcd hk
    rwa [Int.ediv_eq_of_eq_mul_right (by omega) hn', Int.ediv_eq_of_eq_mul_right (by omega) hd',
      Int.gcd_comm] at h
  have hk' : (1 : ℤ) ≤ Int.gcd n d := by omega
  generalize (Int.gcd n d : ℤ) = k at *
  have hnonneg : 0 ≤ n' := by
    by_contra h
    nlinarith
  have hpos : 0 < d' := by
    by_contra h
    nlinarith
  refine ⟨k, n', d', rfl, by omega, ?_, by rw [hn', mul_comm], by rw [hd', mul_comm], hnonneg, ?_,
    hpos, ?_, hcoprime⟩ <;> nlinarith

/-- A fraction is reduced to one whose denominator divides whatever makes the number whole. -/
theorem exists_reduced (hf : f.Denotes q) (hnum : 0 ≤ f.numerator.toInt)
    (hden : 0 < f.denominator.toInt) {z : ℤ} (hz : q * Q = z) :
    ∃ g, f.reduced = .ok g ∧ g.DenotesOver Q q := by
  obtain ⟨k, n, d, hk, hkpos, hkle, hn, hd, hn0, hnle, hd0, hdle, hcoprime⟩ := exists_gcd_mul hnum hden
  have hnum' := f.numerator.toInt_lt
  have hden' := f.denominator.toInt_lt
  obtain ⟨divisor, hdiv, hdivisor⟩ := exists_narrow (n := max k 1) (by omega) (by omega)
  obtain ⟨numerator, hnarrow, hnumerator⟩ := exists_narrow (n := n) (by omega) (by omega)
  obtain ⟨denominator, hnarrow', hdenominator⟩ := exists_narrow (n := d) (by omega) (by omega)
  have hk1 : divisor.toInt = k := by omega
  have hn' : f.numerator.toInt.tdiv k = n := by rw [hn, Int.mul_tdiv_cancel _ hkpos.ne']
  have hd' : f.denominator.toInt.tdiv k = d := by rw [hd, Int.mul_tdiv_cancel _ hkpos.ne']
  have hreduced : f.reduced = .ok ⟨numerator, denominator⟩ := by
    simp only [reduced, toNat_euclid_magnitude, hk, hdiv, ok_bind, if_neg (not_lt.2 hden.le), hk1,
      mul_one, hn', hd', hnarrow, hnarrow', pure_eq_ok]
  have hg : Denotes ⟨numerator, denominator⟩ q := hf.reduced hreduced
  refine ⟨_, hreduced, hg, ?_, ?_⟩
  · exact hdenominator ▸ hd0
  · have heq := hg.numerator_eq
    simp only [hnumerator, hdenominator] at heq ⊢
    have hdvd : (d : ℚ) * z = Q * n := by
      rw [heq, ← hz]
      ring
    exact Int.dvd_of_dvd_mul_left_of_gcd_one ⟨z, by exact_mod_cast hdvd.symm⟩ hcoprime

theorem DenotesOver.add (hf : f.DenotesOver Q p) (hg : g.DenotesOver Q q) (hp : 0 ≤ p) (hq : 0 ≤ q)
    (hQ : 0 < Q) (hQ' : Q < 2 ^ 31) (h : (p + q) * Q < 2 ^ 31) :
    ∃ s, f.add g = .ok s ∧ s.DenotesOver Q (p + q) := by
  have hQ0 : (0 : ℚ) ≤ Q := Q.cast_nonneg
  have ha := hf.numerator_nonneg hp
  have hc := hg.numerator_nonneg hq
  have ha' := hf.numerator_lt hQ hp (by nlinarith)
  have hc' := hg.numerator_lt hQ hq (by nlinarith)
  have hb := hf.denominator_pos
  have hd := hg.denominator_pos
  have hb' := hf.denominator_le hQ
  have hd' := hg.denominator_le hQ
  obtain ⟨y, hy⟩ := hf.exists_mul
  obtain ⟨z, hz⟩ := hg.exists_mul
  have hsum : (p + q) * Q = (y + z : ℤ) := by
    rw [add_mul, hy, hz, Int.cast_add]
  rw [Fraction.add]
  by_cases heq : f.denominator.toInt = g.denominator.toInt
  · obtain ⟨numerator, hnarrow, hnumerator⟩ :=
      exists_narrow (n := f.numerator.toInt + g.numerator.toInt) (by omega) (by omega)
    rw [if_pos heq, hnarrow, ok_bind]
    refine exists_reduced (hf.add_numerators hg.toDenotes heq hnumerator) ?_ hb hsum
    dsimp only
    omega
  · have hbound {x y : ℤ} (hx : 0 ≤ x) (hx' : x < 2 ^ 31) (hy : 0 ≤ y) (hy' : y < 2 ^ 31) :
        0 ≤ x * y ∧ x * y < 2 ^ 62 :=
      ⟨mul_nonneg hx hy, by nlinarith⟩
    have had := hbound ha ha' hd.le (by omega)
    have hcb := hbound hc hc' hb.le (by omega)
    have hbd := hbound hb.le (by omega) hd.le (by omega)
    obtain ⟨ad, hnarrow₁, had'⟩ := exists_narrow
      (n := f.numerator.toInt * g.denominator.toInt) (by omega) (by omega)
    obtain ⟨cb, hnarrow₂, hcb'⟩ := exists_narrow
      (n := g.numerator.toInt * f.denominator.toInt) (by omega) (by omega)
    obtain ⟨numerator, hnarrow₃, hnumerator⟩ := exists_narrow (n := ad.toInt + cb.toInt)
      (by omega) (by omega)
    obtain ⟨denominator, hnarrow₄, hdenominator⟩ := exists_narrow
      (n := f.denominator.toInt * g.denominator.toInt) (by omega) (by omega)
    rw [if_neg heq, hnarrow₁, ok_bind, hnarrow₂, ok_bind, hnarrow₃, ok_bind, hnarrow₄, ok_bind]
    rw [had', hcb'] at hnumerator
    refine exists_reduced (hf.add_crosswise hg.toDenotes hnumerator hdenominator) ?_ ?_ hsum
    · dsimp only
      omega
    · dsimp only
      rw [hdenominator]
      exact mul_pos hb hd

theorem exists_scaleUp (hlow : -2 ^ 63 ≤ f.numerator.toInt * n.toInt)
    (hhigh : f.numerator.toInt * n.toInt < 2 ^ 63) :
    ∃ g, f.scaleUp n = .ok g ∧ g.numerator.toInt = f.numerator.toInt * n.toInt ∧
      g.denominator = f.denominator := by
  obtain ⟨numerator, hnarrow, hnumerator⟩ := exists_narrow hlow hhigh
  exact ⟨⟨numerator, f.denominator⟩, by rw [scaleUp, hnarrow]; rfl, hnumerator, rfl⟩

theorem exists_scaleDown (hn : n ≠ 0) (hlow : -2 ^ 63 ≤ f.denominator.toInt * n.toInt)
    (hhigh : f.denominator.toInt * n.toInt < 2 ^ 63) :
    ∃ g, f.scaleDown n = .ok g ∧ g.numerator = f.numerator ∧
      g.denominator.toInt = f.denominator.toInt * n.toInt := by
  obtain ⟨denominator, hnarrow, hdenominator⟩ := exists_narrow hlow hhigh
  exact ⟨⟨f.numerator, denominator⟩, by rw [scaleDown, if_neg hn, hnarrow]; rfl, rfl, hdenominator⟩

theorem exists_expand (hn : n ≠ 0) (hnum : -2 ^ 63 ≤ f.numerator.toInt * n.toInt ∧
    f.numerator.toInt * n.toInt < 2 ^ 63) (hden : -2 ^ 63 ≤ f.denominator.toInt * n.toInt ∧
    f.denominator.toInt * n.toInt < 2 ^ 63) :
    ∃ g, f.expand n = .ok g ∧ g.numerator.toInt = f.numerator.toInt * n.toInt ∧
      g.denominator.toInt = f.denominator.toInt * n.toInt := by
  obtain ⟨numerator, hnarrow, hnumerator⟩ := exists_narrow hnum.1 hnum.2
  obtain ⟨denominator, hnarrow', hdenominator⟩ := exists_narrow hden.1 hden.2
  refine ⟨⟨numerator, denominator⟩, ?_, hnumerator, hdenominator⟩
  rw [expand, if_neg hn, hnarrow, ok_bind, hnarrow']
  rfl

end Fraction

end Reckoner
