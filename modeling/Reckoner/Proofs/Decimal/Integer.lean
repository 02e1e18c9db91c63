import Reckoner.Proofs.Decimal.Value

/-!
# Integers as doubles

An integer becomes the double nearest to it, which is the integer itself where doubles have it
(`doubleValue_floatOfInt`), and finite in any case that sixty-four bits allow
(`isFinite_floatOfInt`). The whole part of a double that is an integer is that integer
(`truncate?_of_doubleValue`), so an integer is the whole part of the double it becomes just if
doubles have it (`truncate?_floatOfInt_iff`).
-/

namespace Reckoner

section Whole

variable {x : Float} {i : ℤ}

theorem units_of_doubleValue (h : doubleValue x = i) :
    (Magnitude.ofRank (rankOfFloat x)).units = i.natAbs * Magnitude.one := by
  have habs := abs_doubleValue x
  rw [h, eq_div_iff cast_one_ne_zero, ← Int.cast_abs, ← Nat.cast_natAbs] at habs
  exact_mod_cast habs.symm

theorem isWhole_of_doubleValue (hx : x.isFinite = true) (h : doubleValue x = i) :
    isWhole x = true := by
  simp only [isWhole, rankOfFloat_lt hx, units_of_doubleValue h, Nat.mul_mod_left, decide_true,
    Bool.true_and, beq_self_eq_true]

theorem truncate?_of_doubleValue (hx : x.isFinite = true) (h : doubleValue x = i) :
    truncate? x = some i := by
  have hunits := units_of_doubleValue h
  rw [doubleValue, hunits, Nat.cast_mul, mul_div_cancel_right₀ _ cast_one_ne_zero] at h
  simp only [truncate?, if_pos (rankOfFloat_lt hx), hunits, Nat.mul_div_cancel _ one_pos]
  refine congrArg some ((Int.cast_inj (α := ℚ)).1 (Eq.trans ?_ h))
  cases hasMinus x <;> simp

theorem isFinite_of_truncate? (h : truncate? x = some i) : x.isFinite = true := by
  rw [truncate?] at h
  split at h
  · exact isFinite_of_rankOfFloat_lt ‹_›
  · cases h

theorem natAbs_of_truncate? (h : truncate? x = some i) :
    i.natAbs = (Magnitude.ofRank (rankOfFloat x)).units / Magnitude.one := by
  rw [truncate?] at h
  split at h
  · obtain rfl := Option.some.inj h
    split
    · rw [Int.natAbs_neg, Int.natAbs_natCast]
    · rw [Int.natAbs_natCast]
  · cases h

/-- A double that needs all bits of a mantissa for its whole part has no fraction. -/
theorem isWhole_of_truncate? (h : truncate? x = some i) (hi : 2 ^ 53 ≤ i.natAbs) :
    isWhole x = true := by
  obtain ⟨k, hk⟩ : ∃ k, k = 1074 := ⟨_, rfl⟩
  have hm := (mantissa_bounds (rankOfFloat x)).1
  rw [natAbs_of_truncate? h, Magnitude.units, Nat.shiftLeft_eq, one_eq hk,
    Nat.le_div_iff_mul_le (Nat.two_pow_pos k)] at hi
  have hshift : k ≤ (Magnitude.ofRank (rankOfFloat x)).shift := by
    by_contra hlt
    have hle := Nat.mul_le_mul (Nat.le_of_lt hm) (Nat.pow_le_pow_right (show 0 < 2 by decide)
      (Nat.le_of_lt (not_le.1 hlt)))
    have hlt := Nat.mul_lt_mul_of_lt_of_le hm (Nat.pow_le_pow_right (show 0 < 2 by decide)
      (Nat.le_of_lt (not_le.1 hlt))) (Nat.two_pow_pos k)
    omega
  have hmod : (Magnitude.ofRank (rankOfFloat x)).units % Magnitude.one = 0 := by
    rw [Magnitude.units, Nat.shiftLeft_eq, one_eq hk]
    exact Nat.mod_eq_zero_of_dvd ((Nat.pow_dvd_pow 2 hshift).mul_left _)
  simp only [isWhole, rankOfFloat_lt (isFinite_of_truncate? h), hmod, decide_true, Bool.true_and,
    beq_self_eq_true]

end Whole

/-- An integer as a decimal. -/
def Decimal.ofInt (i : ℤ) : Decimal :=
  ⟨i < 0, i.natAbs, 0⟩

theorem Decimal.exact_ofInt (i : ℤ) : (ofInt i).exact = i := by
  simp only [exact, ofInt, zpow_zero, mul_one, Nat.cast_natAbs]
  by_cases hi : i < 0
  · simp [hi, abs_of_neg hi]
  · simp [hi, abs_of_nonneg (not_lt.1 hi)]

theorem Decimal.rank_ofInt (i : ℤ) : (ofInt i).rank = rankOfRatio i.natAbs 1 := by
  rw [rank]
  split
  · rename_i h
    rw [show i.natAbs = 0 from h]
    rfl
  · have hexponent : (ofInt i).exponent = 0 := rfl
    rw [hexponent, if_neg (by decide), if_neg (by omega)]
    exact congrArg (rankOfRatio · 1) (Nat.mul_one _)

theorem floatOfInt_eq (i : ℤ) : floatOfInt i = (Decimal.ofInt i).toFloat := by
  rw [floatOfInt, Decimal.toFloat, Decimal.rank_ofInt]
  rfl

theorem doubleValue_floatOfInt {i : ℤ} (h : IsDouble i) :
    (floatOfInt i).isFinite = true ∧ doubleValue (floatOfInt i) = i := by
  rw [floatOfInt_eq, ← Decimal.exact_ofInt] at *
  exact Decimal.doubleValue_toFloat h

/-- An integer is the whole part of the double it becomes just if doubles have it. -/
theorem truncate?_floatOfInt_iff (i : ℤ) : truncate? (floatOfInt i) = some i ↔ IsDouble i := by
  constructor
  · intro h
    rcases Nat.le_total i.natAbs (2 ^ 53) with hi | hi
    · exact isDouble_intCast hi
    · exact ⟨_, isFinite_of_truncate? h, doubleValue_of_isWhole (isWhole_of_truncate? h hi) h⟩
  · intro h
    obtain ⟨hfinite, hvalue⟩ := doubleValue_floatOfInt h
    exact truncate?_of_doubleValue hfinite hvalue

theorem divNearest_le (n d : Nat) : divNearest n d ≤ n / d + 1 := by
  unfold divNearest
  dsimp only
  split_ifs <;> omega

theorem rankOfRatio_lt {n : Nat} (h : n < 2 ^ 64) : rankOfRatio n 1 < Magnitude.infinityRank := by
  obtain ⟨k, hk⟩ : ∃ k, k = 1074 := ⟨_, rfl⟩
  rw [rankOfRatio, one_eq hk, Nat.div_one]
  refine Nat.lt_of_le_of_lt (Nat.min_le_left ..) ?_
  have hu : n * 2 ^ k < 2 ^ (64 + k) := by
    rw [Nat.pow_add]
    exact Nat.mul_lt_mul_of_pos_right h (Nat.two_pow_pos k)
  generalize n * 2 ^ k = u at hu ⊢
  have hshift : u.log2 - 52 ≤ 1085 := by
    by_cases h0 : u = 0
    · rw [h0]
      decide
    · have := (Nat.log2_lt h0).2 hu
      omega
  have hmantissa : divNearest u (1 <<< (u.log2 - 52)) ≤ 2 ^ 53 := by
    refine (divNearest_le ..).trans (Nat.succ_le_of_lt ?_)
    rw [Nat.one_shiftLeft, Nat.div_lt_iff_lt_mul (Nat.two_pow_pos _), ← Nat.pow_add]
    exact Nat.lt_of_lt_of_le Nat.lt_log2_self (Nat.pow_le_pow_right (by decide) (by omega))
  simp only [Magnitude.rank, Magnitude.infinityRank, Magnitude.binade]
  omega

/-- Sixty-four bits are not enough to pass the largest finite double. -/
theorem isFinite_floatOfInt {i : ℤ} (h : i.natAbs < 2 ^ 64) : (floatOfInt i).isFinite = true := by
  have hr := rankOfRatio_lt h
  refine isFinite_of_rankOfFloat_lt ?_
  rwa [floatOfInt, rankOfFloat_floatOfRank hr]

end Reckoner
