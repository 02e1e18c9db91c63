import Mathlib.Data.Rat.Lemmas
import Reckoner.Proofs.Grade.Fraction

/-!
# Lowest terms

Reducing a fraction gives its number in lowest terms, the lower one positive, if both have a place in
64 bits and the greatest common divisor of the terms that it finds has one as well
(`Fraction.reduced_eq_ok_iff`). The divisor has none in front of two fractions only, zero and the
smallest integer over the smallest integer (`Fraction.fits_gcd_iff`).
-/

namespace Reckoner

namespace Fraction

/-- The integer has a place in 64 bits. -/
def Fits (z : ℤ) : Prop :=
  -2 ^ 63 ≤ z ∧ z < 2 ^ 63

instance (z : ℤ) : Decidable (Fits z) :=
  inferInstanceAs (Decidable (_ ∧ _))

theorem fits_toInt (i : Int64) : Fits i.toInt :=
  ⟨i.le_toInt, i.toInt_lt⟩

theorem narrow_of_fits {z : ℤ} (h : Fits z) : ∃ i, narrow z = .ok i :=
  ⟨.ofInt z, narrow_eq_ok.2 (Int64.toInt_ofInt_of_le h.1 h.2)⟩

theorem narrow_of_not_fits {z : ℤ} (h : ¬ Fits z) : narrow z = .error .weightingOutOfRange := by
  rw [narrow, Int64.toInt_minValue, Int64.toInt_maxValue, if_neg]
  rintro ⟨hlow, hhigh⟩
  exact h ⟨hlow, by omega⟩

/-- The quotient of the terms. -/
def value (f : Fraction) : ℚ :=
  f.numerator.toInt / f.denominator.toInt

variable {f g : Fraction} {q : ℚ}

theorem denotes_value (h : f.denominator.toInt ≠ 0) : f.Denotes f.value :=
  ⟨h, (div_mul_cancel₀ _ (Int.cast_ne_zero.2 h)).symm⟩

theorem Denotes.value_eq (h : f.Denotes q) : f.value = q := by
  rw [value, h.numerator_eq, mul_div_cancel_right₀ _ (Int.cast_ne_zero.2 h.denominator_ne)]

/-- The terms have no divisor in common, and the lower one is positive. -/
structure Lowest (f : Fraction) : Prop where
  denominator_pos : 0 < f.denominator.toInt
  coprime : Nat.Coprime f.numerator.toInt.natAbs f.denominator.toInt.natAbs

theorem Lowest.numerator_eq (h : f.Lowest) : f.numerator.toInt = f.value.num :=
  (Rat.num_div_eq_of_coprime h.denominator_pos h.coprime).symm

theorem Lowest.denominator_eq (h : f.Lowest) : f.denominator.toInt = f.value.den :=
  (Rat.den_div_eq_of_coprime h.denominator_pos h.coprime).symm

theorem Lowest.eq_iff (hf : f.Lowest) (hg : g.Lowest) : f = g ↔ f.value = g.value := by
  refine ⟨congrArg value, fun h => ?_⟩
  obtain ⟨hnum, hden⟩ :=
    Rat.div_int_inj hf.denominator_pos hg.denominator_pos hf.coprime hg.coprime h
  rw [Int64.toInt_inj] at hnum hden
  cases f
  cases g
  exact congrArg₂ Fraction.mk hnum hden

theorem lowest_of_eq (hnum : f.numerator.toInt = q.num) (hden : f.denominator.toInt = q.den) :
    f.Lowest ∧ f.value = q := by
  refine ⟨⟨?_, ?_⟩, ?_⟩
  · rw [hden]
    exact Int.natCast_pos.2 q.den_pos
  · rw [hnum, hden]
    exact q.reduced
  · rw [value, hnum, hden]
    exact Rat.num_div_den q

/-- Both terms of the number, in lowest terms, have a place in 64 bits. -/
def Representable (q : ℚ) : Prop :=
  Fits q.num ∧ Fits q.den

instance (q : ℚ) : Decidable (Representable q) :=
  inferInstanceAs (Decidable (_ ∧ _))

theorem Lowest.representable (h : f.Lowest) : Representable f.value :=
  ⟨h.numerator_eq ▸ fits_toInt _, h.denominator_eq ▸ fits_toInt _⟩

/-- The quotient of two integers in lowest terms, as it is computed with truncating division. -/
theorem num_den_eq {n d : ℤ} (hd : d ≠ 0) :
    n.tdiv (Int.gcd n d) * (if d < 0 then -1 else 1) = ((n : ℚ) / d).num ∧
      d.tdiv (Int.gcd n d) * (if d < 0 then -1 else 1) = ((n : ℚ) / d).den := by
  have hpos : 0 < Int.gcd n d := Int.gcd_pos_of_ne_zero_right n hd
  obtain ⟨a, ha⟩ := Int.gcd_dvd_left n d
  obtain ⟨b, hb⟩ := Int.gcd_dvd_right n d
  have hcoprime : Int.gcd a b = 1 := by
    have h := Int.gcd_div_gcd_div_gcd hpos
    rwa [Int.ediv_eq_of_eq_mul_right (by omega) ha, Int.ediv_eq_of_eq_mul_right (by omega) hb] at h
  have hg : (Int.gcd n d : ℤ) ≠ 0 := by omega
  have hgpos : (0 : ℤ) < Int.gcd n d := by omega
  generalize hk : (Int.gcd n d : ℤ) = k at *
  subst ha hb
  have hquot : ((k * a : ℤ) : ℚ) / (k * b : ℤ) = a / b := by
    rw [Int.cast_mul, Int.cast_mul, mul_div_mul_left _ _ (Int.cast_ne_zero.2 hg)]
  rw [hquot, Int.mul_tdiv_cancel_left _ hg, Int.mul_tdiv_cancel_left _ hg]
  have hb : b ≠ 0 := right_ne_zero_of_mul hd
  rcases lt_or_gt_of_ne hb with hneg | hpos
  · -- The sign is moved: the quotient of the negated terms is the same.
    have hsign : ((a : ℚ) / b) = (-a : ℤ) / (-b : ℤ) := by
      rw [Int.cast_neg, Int.cast_neg, neg_div_neg_eq]
    have hcoprime' : Nat.Coprime (-a).natAbs (-b).natAbs := by
      rwa [Int.natAbs_neg, Int.natAbs_neg]
    rw [if_pos (mul_neg_of_pos_of_neg hgpos hneg), hsign,
      Rat.num_div_eq_of_coprime (neg_pos.2 hneg) hcoprime',
      Rat.den_div_eq_of_coprime (neg_pos.2 hneg) hcoprime']
    exact ⟨mul_neg_one a, mul_neg_one b⟩
  · rw [if_neg (mul_pos hgpos hpos).le.not_gt, Rat.num_div_eq_of_coprime hpos hcoprime,
      Rat.den_div_eq_of_coprime hpos hcoprime]
    exact ⟨mul_one a, mul_one b⟩

/-- Reducing is finding three integers, each of which has to fit. -/
theorem reduced_eq (h : f.denominator.toInt ≠ 0) : f.reduced =
    (narrow (Int.gcd f.numerator.toInt f.denominator.toInt) >>= fun _ =>
      narrow f.value.num >>= fun n => narrow f.value.den >>= fun d => .ok ⟨n, d⟩) := by
  obtain ⟨hnum, hden⟩ := num_den_eq (n := f.numerator.toInt) h
  have hpos : 0 < Int.gcd f.numerator.toInt f.denominator.toInt := Int.gcd_pos_of_ne_zero_right _ h
  have hmax : max (Int.gcd f.numerator.toInt f.denominator.toInt : ℤ) 1
      = Int.gcd f.numerator.toInt f.denominator.toInt := max_eq_left (by omega)
  rw [reduced, toNat_euclid_magnitude, hmax, value]
  cases hdiv : narrow (Int.gcd f.numerator.toInt f.denominator.toInt) with
  | error e => rfl
  | ok divisor =>
    rw [narrow_eq_ok] at hdiv
    rw [ok_bind, ok_bind, hdiv]
    simp only [hnum, hden, pure_eq_ok]

theorem reduced_eq_ok_iff (h : f.denominator.toInt ≠ 0) : f.reduced = .ok g ↔
    Fits (Int.gcd f.numerator.toInt f.denominator.toInt) ∧ g.Lowest ∧ g.value = f.value := by
  rw [reduced_eq h]
  constructor
  · intro hg
    obtain ⟨divisor, hdiv, hg⟩ := bind_eq_ok.1 hg
    obtain ⟨n, hn, hg⟩ := bind_eq_ok.1 hg
    obtain ⟨d, hd, hg⟩ := bind_eq_ok.1 hg
    rw [narrow_eq_ok] at hdiv hn hd
    obtain rfl := Except.ok.inj hg
    exact ⟨hdiv ▸ fits_toInt divisor, lowest_of_eq hn hd⟩
  · rintro ⟨hfits, hlow, hval⟩
    obtain ⟨divisor, hdiv⟩ := narrow_of_fits hfits
    have hn : narrow f.value.num = .ok g.numerator := narrow_eq_ok.2 (hval ▸ hlow.numerator_eq)
    have hd : narrow f.value.den = .ok g.denominator := narrow_eq_ok.2 (hval ▸ hlow.denominator_eq)
    rw [hdiv, ok_bind, hn, ok_bind, hd, ok_bind]

theorem eq_of_dvd_of_fits {k z : ℤ} (hk : 2 ^ 63 ≤ k) (hdvd : k ∣ z) (hz : Fits z) :
    z = 0 ∨ z = -2 ^ 63 := by
  obtain ⟨hlow, hhigh⟩ := hz
  rcases lt_trichotomy z 0 with hneg | hzero | hpos
  · have hle : k ≤ -z := Int.le_of_dvd (by omega) (Int.dvd_neg.2 hdvd)
    exact .inr (by omega)
  · exact .inl hzero
  · have hle : k ≤ z := Int.le_of_dvd hpos hdvd
    omega

/-- The smallest integer divides both terms. -/
def Extreme (f : Fraction) : Prop :=
  f.denominator = Int64.minValue ∧ (f.numerator = 0 ∨ f.numerator = Int64.minValue)

theorem extreme_iff : f.Extreme ↔
    f.denominator.toInt = -2 ^ 63 ∧ (f.numerator.toInt = 0 ∨ f.numerator.toInt = -2 ^ 63) := by
  rw [Extreme, ← Int64.toInt_inj, ← Int64.toInt_inj, ← Int64.toInt_inj, Int64.toInt_minValue,
    Int64.toInt_zero]

theorem fits_gcd_iff (h : f.denominator.toInt ≠ 0) :
    Fits (Int.gcd f.numerator.toInt f.denominator.toInt) ↔ ¬ f.Extreme := by
  rw [extreme_iff]
  constructor
  · rintro ⟨-, hfits⟩ ⟨hd, hn | hn⟩
    · rw [hn, hd] at hfits
      exact absurd hfits (by decide)
    · rw [hn, hd] at hfits
      exact absurd hfits (by decide)
  · intro hne
    by_contra hlarge
    have hk : (2 : ℤ) ^ 63 ≤ Int.gcd f.numerator.toInt f.denominator.toInt := by
      by_contra hlt
      exact hlarge ⟨by omega, by omega⟩
    have hn := eq_of_dvd_of_fits hk (Int.gcd_dvd_left ..) (fits_toInt f.numerator)
    have hd := eq_of_dvd_of_fits hk (Int.gcd_dvd_right ..) (fits_toInt f.denominator)
    exact hne ⟨hd.resolve_left h, hn⟩

theorem Extreme.representable (h : f.Extreme) : Representable f.value := by
  obtain ⟨hd, hn | hn⟩ := extreme_iff.1 h
  · have hzero : f.value = 0 := by rw [value, hn, Int.cast_zero, zero_div]
    rw [hzero]
    decide
  · have hone : f.value = 1 := by rw [value, hn, hd, div_self (by decide)]
    rw [hone]
    decide

end Fraction

end Reckoner
