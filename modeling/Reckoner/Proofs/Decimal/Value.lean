import Mathlib.Algebra.Field.Rat
import Mathlib.Algebra.GroupWithZero.Basic
import Mathlib.Algebra.Order.Field.Power
import Mathlib.Algebra.Order.Field.Rat
import Mathlib.Algebra.Order.Ring.Abs
import Mathlib.Tactic.Positivity
import Reckoner.Decimal.Whole
import Reckoner.Proofs.Decimal.Product
import Reckoner.Proofs.Decimal.ReadBack

/-!
# The numbers that doubles and decimals are

A finite double and a decimal each are a rational number (`doubleValue`, `Decimal.exact`). A double
that is whole is the integer that its whole part is (`doubleValue_of_isWhole`). A decimal is read and
two doubles are multiplied without rounding if the number that they come to is a double
(`Decimal.doubleValue_toFloat`, `doubleValue_mul`), as the whole numbers up to `2 ^ 53` are
(`isDouble_intCast`).
-/

namespace Reckoner

/-- The number that a finite double is. -/
def doubleValue (x : Float) : ℚ :=
  (if hasMinus x then -1 else 1) * ((Magnitude.ofRank (rankOfFloat x)).units / Magnitude.one)

theorem one_pos : 0 < Magnitude.one := by
  decide

theorem cast_one_ne_zero : (Magnitude.one : ℚ) ≠ 0 :=
  Nat.cast_ne_zero.2 one_pos.ne'

theorem doubleValue_of_isWhole {x : Float} {n : Int} (h : isWhole x = true)
    (hn : truncate? x = some n) : doubleValue x = n := by
  rw [isWhole, Bool.and_eq_true, beq_iff_eq] at h
  obtain ⟨k, hk⟩ := Nat.dvd_of_mod_eq_zero h.2
  rw [doubleValue, hk, Nat.cast_mul, mul_div_cancel_left₀ _ cast_one_ne_zero]
  rw [truncate?, hk, Nat.mul_div_cancel_left k one_pos] at hn
  split at hn
  · obtain rfl := Option.some.inj hn
    cases hasMinus x <;> simp
  · cases hn

/-- The number is that of a finite double. -/
def IsDouble (q : ℚ) : Prop :=
  ∃ x : Float, x.isFinite = true ∧ doubleValue x = q

/-- A sign as a factor. -/
theorem abs_sign_mul (negative : Bool) {q : ℚ} (h : 0 ≤ q) :
    |(if negative then -1 else 1) * q| = q := by
  cases negative <;> simp [abs_of_nonneg h]

theorem abs_doubleValue (x : Float) :
    |doubleValue x| = (Magnitude.ofRank (rankOfFloat x)).units / Magnitude.one :=
  abs_sign_mul _ (by positivity)

theorem doubleValue_floatOfRank {negative : Bool} {rank : Nat} (h : rank < Magnitude.infinityRank) :
    doubleValue (floatOfRank negative rank) = (if negative then -1 else 1) *
      ((Magnitude.ofRank rank).units / Magnitude.one) := by
  rw [doubleValue, rankOfFloat_floatOfRank h, hasMinus_floatOfRank h]

/-- The magnitudes that doubles write are doubles, with either sign. -/
theorem isDouble_of_normal {m : Magnitude} (h : m.Normal) (negative : Bool) :
    IsDouble ((if negative then -1 else 1) * (m.units / Magnitude.one)) := by
  refine ⟨floatOfRank negative m.rank, isFinite_of_rankOfFloat_lt ?_, ?_⟩
  · rw [rankOfFloat_floatOfRank h.rank_lt]
    exact h.rank_lt
  · rw [doubleValue_floatOfRank h.rank_lt, h.ofRank_rank]

/-- A whole number with no more bits than a mantissa is a magnitude. -/
theorem exists_normal {n : Nat} (h : n ≤ 2 ^ 53) :
    ∃ m : Magnitude, m.Normal ∧ m.units = n * Magnitude.one := by
  obtain ⟨k, hk⟩ : ∃ k, k = 1074 := ⟨_, rfl⟩
  simp only [Magnitude.units, Nat.shiftLeft_eq, one_eq hk]
  rcases Nat.eq_zero_or_pos n with rfl | hpos
  · exact ⟨⟨0, 0⟩, ⟨by decide, .inl rfl, by decide⟩, by simp⟩
  rcases Nat.lt_or_eq_of_le h with hlt | rfl
  · have hlog : n.log2 < 53 := (Nat.log2_lt hpos.ne').2 hlt
    have hpow : 2 ^ n.log2 * 2 ^ (52 - n.log2) = 2 ^ 52 := by
      rw [← Nat.pow_add, Nat.add_sub_cancel' (Nat.le_of_lt_succ hlog)]
    refine ⟨⟨n * 2 ^ (52 - n.log2), k - 52 + n.log2⟩, ⟨?_, .inr ?_, ?_⟩, ?_⟩ <;> dsimp only
    · calc n * 2 ^ (52 - n.log2) < 2 ^ (n.log2 + 1) * 2 ^ (52 - n.log2) :=
          Nat.mul_lt_mul_of_pos_right Nat.lt_log2_self (Nat.two_pow_pos _)
        _ = 2 ^ 53 := by rw [Nat.pow_succ, Nat.mul_right_comm, hpow, ← Nat.pow_succ]
    · rw [← hpow]
      exact Nat.mul_le_mul_right _ (Nat.log2_self_le hpos.ne')
    · omega
    · rw [Nat.mul_assoc, ← Nat.pow_add]
      congr 2
      omega
  · refine ⟨⟨2 ^ 52, k + 1⟩, ⟨?_, .inr (Nat.le_refl _), ?_⟩, ?_⟩ <;> dsimp only
    · decide
    · omega
    · ring

theorem isDouble_intCast {i : ℤ} (h : i.natAbs ≤ 2 ^ 53) : IsDouble i := by
  obtain ⟨m, hm, hunits⟩ := exists_normal h
  have hdouble := isDouble_of_normal hm (decide (i < 0))
  rw [hunits, Nat.cast_mul, mul_div_cancel_right₀ _ cast_one_ne_zero,
    Nat.cast_natAbs] at hdouble
  by_cases hi : i < 0
  · simpa [hi, abs_of_neg hi] using hdouble
  · simpa [hi, abs_of_nonneg (not_lt.1 hi)] using hdouble

theorem doubleValue_mul {x y : Float} (hx : x.isFinite = true) (hy : y.isFinite = true)
    (h : IsDouble (doubleValue x * doubleValue y)) :
    (x * y).isFinite = true ∧ doubleValue (x * y) = doubleValue x * doubleValue y := by
  obtain ⟨z, hz, hvalue⟩ := h
  have hr := rankOfFloat_lt hz
  have habs := congrArg abs hvalue
  rw [abs_mul, abs_doubleValue, abs_doubleValue, abs_doubleValue] at habs
  have hunits : (Magnitude.ofRank (rankOfFloat x)).units * (Magnitude.ofRank (rankOfFloat y)).units
      = (Magnitude.ofRank (rankOfFloat z)).units * Magnitude.one := by
    rw [div_mul_div_comm, div_eq_div_iff cast_one_ne_zero
      (mul_ne_zero cast_one_ne_zero cast_one_ne_zero), ← mul_assoc,
      mul_left_inj' cast_one_ne_zero] at habs
    exact_mod_cast habs.symm
  rw [mul_eq_floatOfRank hx hy hz hunits]
  refine ⟨isFinite_of_rankOfFloat_lt ?_, ?_⟩
  · rwa [rankOfFloat_floatOfRank hr]
  · rw [doubleValue_floatOfRank hr, habs, doubleValue, doubleValue]
    cases hasMinus x <;> cases hasMinus y <;> simp

/-- The number that a decimal is. -/
def Decimal.exact (d : Decimal) : ℚ :=
  (if d.negative then -1 else 1) * (d.digits * 10 ^ d.exponent)

theorem Decimal.abs_exact (d : Decimal) : |d.exact| = d.digits * 10 ^ d.exponent :=
  abs_sign_mul _ (by positivity)

theorem ten_zpow (e : Int) : (10 : ℚ) ^ e = 10 ^ e.toNat / 10 ^ (-e).toNat := by
  obtain ⟨n, rfl | rfl⟩ := e.eq_nat_or_neg <;> simp

namespace Decimal

variable {d : Decimal} {rank : Nat}

/-- A decimal that is as large as a magnitude has its rank. -/
theorem rank_of_units (hr : rank < Magnitude.infinityRank)
    (h : (Magnitude.ofRank rank).units * 10 ^ (-d.exponent).toNat
      = d.digits * 10 ^ d.exponent.toNat * Magnitude.one) : d.rank = rank := by
  rcases Nat.eq_zero_or_pos rank with rfl | hpos
  · have hzero : d.digits = 0 := by
      rw [show (Magnitude.ofRank 0).units = 0 from rfl, Nat.zero_mul, eq_comm, Nat.mul_eq_zero,
        Nat.mul_eq_zero] at h
      rcases h with (h | h) | h
      · exact h
      · exact absurd h (Nat.pow_pos (by decide)).ne'
      · exact absurd h one_pos.ne'
    rw [Decimal.rank, if_pos hzero]
  · refine rank_of_within hpos hr ?_
    have hcentre : (Around.ofRank rank).centre = 2 * (Magnitude.ofRank rank).units := rfl
    have hdown := Around.down_pos rank
    have hle := Around.down_le_centre hpos
    have hten : 0 < 10 ^ (-d.exponent).toNat := Nat.pow_pos (by decide)
    have hlow : ((Around.ofRank rank).centre - (Around.ofRank rank).down) * 10 ^ (-d.exponent).toNat
        < (Around.ofRank rank).centre * 10 ^ (-d.exponent).toNat :=
      Nat.mul_lt_mul_of_pos_right (by omega) hten
    have hup : (Around.ofRank rank).centre * 10 ^ (-d.exponent).toNat
        < ((Around.ofRank rank).centre + (Around.ofRank rank).up) * 10 ^ (-d.exponent).toNat := by
      refine Nat.mul_lt_mul_of_pos_right (Nat.lt_add_of_pos_right ?_) hten
      rw [Around.up_ofRank]
      exact Nat.two_pow_pos _
    have hmid : (Around.ofRank rank).centre * 10 ^ (-d.exponent).toNat
        = 2 * (d.digits * 10 ^ d.exponent.toNat * Magnitude.one) := by
      rw [hcentre, Nat.mul_assoc, h]
    rw [Within, ← hmid, Around.holds]
    split
    · simp [hlow.le, hup.le]
    · simp [hlow, hup]

/-- A decimal that is a double is read as that double. -/
theorem doubleValue_toFloat (h : IsDouble d.exact) :
    d.toFloat.isFinite = true ∧ doubleValue d.toFloat = d.exact := by
  obtain ⟨x, hx, hvalue⟩ := h
  have hr := rankOfFloat_lt hx
  have habs : ((Magnitude.ofRank (rankOfFloat x)).units : ℚ) / Magnitude.one
      = d.digits * 10 ^ d.exponent := by
    rw [← abs_doubleValue, hvalue, abs_exact]
  have hunits : (Magnitude.ofRank (rankOfFloat x)).units * 10 ^ (-d.exponent).toNat
      = d.digits * 10 ^ d.exponent.toNat * Magnitude.one := by
    rw [ten_zpow, ← mul_div_assoc, div_eq_div_iff cast_one_ne_zero (by positivity)] at habs
    exact_mod_cast habs
  have hrank := rank_of_units hr hunits
  rw [toFloat, hrank]
  refine ⟨isFinite_of_rankOfFloat_lt ?_, ?_⟩
  · rwa [rankOfFloat_floatOfRank hr]
  · rw [doubleValue_floatOfRank hr, exact, habs]

end Decimal

theorem Numeral.isSome_readPlain? (n : Numeral) : (Decimal.readPlain? n.chars).isSome = true :=
  Option.isSome_iff_exists.2 (Decimal.exists_readPlain? n.isNumeral)

/-- The number that is spelled, without rounding. -/
def Numeral.exact (n : Numeral) : ℚ :=
  ((Decimal.readPlain? n.chars).get n.isSome_readPlain?).exact

theorem Numeral.exact_eq {n : Numeral} {d : Decimal} (h : Decimal.readPlain? n.chars = some d) :
    n.exact = d.exact := by
  simp only [Numeral.exact, h, Option.get_some]

theorem Numeral.doubleValue_value {n : Numeral} (h : IsDouble n.exact) :
    n.value.isFinite = true ∧ doubleValue n.value = n.exact :=
  Decimal.doubleValue_toFloat h

end Reckoner
