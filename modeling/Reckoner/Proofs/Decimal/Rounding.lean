import Reckoner.Decimal.Shortest
import Mathlib.Tactic.Ring
import Mathlib.Tactic.Linarith

/-!
# Rounding to the nearest magnitude

The points that are said to round to a magnitude do: a ratio in its range has its rank
(`rankOfRatio_of_holds`), and so has a decimal, whose extreme exponents are settled without rounding
(`rank_of_holds`).
-/

namespace Reckoner

/-- Less than half a step away from a whole number, or half a step from an even one, the nearest is
that one. -/
theorem divNearest_eq {n d m : Nat} (hd : 0 < d) (hlow : 2 * (m * d) ≤ 2 * n + d)
    (hhigh : 2 * n ≤ 2 * (m * d) + d)
    (htie : m % 2 = 0 ∨ 2 * (m * d) < 2 * n + d ∧ 2 * n < 2 * (m * d) + d) : divNearest n d = m := by
  have hdiv : d * (n / d) + n % d = n := Nat.div_add_mod n d
  have hmod : n % d < d := Nat.mod_lt n hd
  rw [divNearest]
  generalize n / d = q at *
  generalize n % d = r at *
  obtain h | h | h | h : q + 2 ≤ m ∨ q + 1 = m ∨ q = m ∨ m + 1 ≤ q := by omega
  · have := Nat.mul_le_mul_right d h
    rw [Nat.add_mul, Nat.mul_comm q] at this
    omega
  · subst h
    rw [Nat.add_mul, Nat.mul_comm q] at hlow hhigh htie
    generalize d * q = p at *
    split
    · omega
    · split <;> omega
  · subst h
    rw [Nat.mul_comm q] at hlow hhigh htie
    generalize d * q = p at *
    split
    · rfl
    · split <;> omega
  · have := Nat.mul_le_mul_right d h
    rw [Nat.add_mul, Nat.mul_comm q] at this
    omega

namespace Around

theorem centre_ofRank (rank : Nat) : (ofRank rank).centre
    = 2 * ((Magnitude.ofRank rank).mantissa * 2 ^ (Magnitude.ofRank rank).shift) := by
  rw [ofRank, Magnitude.units, Nat.shiftLeft_eq]

theorem up_ofRank (rank : Nat) : (ofRank rank).up = 2 ^ (Magnitude.ofRank rank).shift := by
  rw [ofRank, Nat.one_shiftLeft]

/-- Below the centre, the range reaches down half a step, or half of that to a tighter binade. -/
theorem down_ofRank (rank : Nat) : (ofRank rank).down
    = if (Magnitude.ofRank rank).mantissa = Magnitude.binade ∧ 0 < (Magnitude.ofRank rank).shift
      then 2 ^ (Magnitude.ofRank rank).shift / 2 else 2 ^ (Magnitude.ofRank rank).shift := by
  rw [ofRank, Nat.one_shiftLeft]

/-- What lies in the range lies between its ends, and not at them where the mantissa is odd. -/
theorem bounds_of_holds {n d rank m s : Nat} (hm : (Magnitude.ofRank rank).mantissa = m)
    (hs : (Magnitude.ofRank rank).shift = s) (h : (ofRank rank).holds n d = true) :
    2 * (m * (2 ^ s * d)) ≤ n + (ofRank rank).down * d ∧
      n ≤ 2 * (m * (2 ^ s * d)) + 2 ^ s * d ∧
      (m % 2 = 0 ∨ 2 * (m * (2 ^ s * d)) < n + (ofRank rank).down * d ∧
        n < 2 * (m * (2 ^ s * d)) + 2 ^ s * d) := by
  have hclosed : (ofRank rank).closed = (m % 2 == 0) := by rw [ofRank, hm]
  rw [holds, hclosed, centre_ofRank, up_ofRank, hm, hs, Nat.sub_mul, Nat.add_mul,
    show 2 * (m * 2 ^ s) * d = 2 * (m * (2 ^ s * d)) by ring] at h
  split at h
  · rename_i heven
    simp only [Bool.and_eq_true, decide_eq_true_eq, beq_iff_eq] at h heven
    omega
  · simp only [Bool.and_eq_true, decide_eq_true_eq] at h
    omega

end Around

/-- A mantissa has at most fifty-three bits, and fewer only without a shift. -/
theorem mantissa_bounds (rank : Nat) : (Magnitude.ofRank rank).mantissa < 2 ^ 53 ∧
    ((Magnitude.ofRank rank).shift = 0 ∨ 2 ^ 52 ≤ (Magnitude.ofRank rank).mantissa) := by
  rw [Magnitude.ofRank]
  split
  · rename_i h
    rw [Magnitude.binade] at h
    exact ⟨by dsimp only; omega, .inl rfl⟩
  · simp only [Magnitude.binade]
    omega

section Shift

variable {u d m s down : Nat}

/-- The shift that suits a number of units below the top of a binade is no larger than the
binade's. -/
theorem log2_sub_le (hd : 0 < d) (hm : m < 2 ^ 53)
    (hhigh : 2 * u ≤ 2 * (m * (2 ^ s * d)) + 2 ^ s * d) : (u / d).log2 - 52 ≤ s := by
  have hw : 0 < 2 ^ s * d := Nat.mul_pos (Nat.two_pow_pos s) hd
  have hlt : u < 2 ^ (53 + s) * d := by
    have := Nat.mul_le_mul_right (2 ^ s * d) (Nat.le_of_lt_succ hm)
    rw [Nat.pow_add, Nat.mul_assoc]
    omega
  by_cases hq : u / d = 0
  · rw [hq]
    exact Nat.zero_le s
  · have := (Nat.log2_lt hq).2 ((Nat.div_lt_iff_lt_mul hd).2 hlt)
    omega

theorem divNearest_shift (hd : 0 < d) (hlow : 2 * (m * (2 ^ s * d)) ≤ 2 * u + 2 ^ s * d)
    (hhigh : 2 * u ≤ 2 * (m * (2 ^ s * d)) + 2 ^ s * d)
    (htie : m % 2 = 0 ∨ 2 * (m * (2 ^ s * d)) < 2 * u + 2 ^ s * d ∧
      2 * u < 2 * (m * (2 ^ s * d)) + 2 ^ s * d) : divNearest u (d <<< s) = m := by
  rw [Nat.shiftLeft_eq, Nat.mul_comm d]
  exact divNearest_eq (Nat.mul_pos (Nat.two_pow_pos s) hd) hlow hhigh htie

/-- Just below a binade, half a step is that of the binade before it, and the nearest mantissa there
is the one after its last. -/
theorem rank_of_lt_binade (hd : 0 < d) (hlow : 2 * (2 ^ 52 * (2 ^ (s + 1) * d)) ≤ 2 * u + 2 ^ s * d)
    (hlt : u < 2 ^ (53 + s) * d) :
    Magnitude.rank ⟨divNearest u (d <<< ((u / d).log2 - 52)), (u / d).log2 - 52⟩
      = Magnitude.rank ⟨2 ^ 52, s + 1⟩ := by
  have hw : 0 < 2 ^ s * d := Nat.mul_pos (Nat.two_pow_pos s) hd
  rw [Nat.pow_add, Nat.mul_assoc] at hlt
  rw [show 2 ^ (s + 1) * d = 2 * (2 ^ s * d) by ring] at hlow
  have hq : 2 ^ (52 + s) ≤ u / d := by
    rw [Nat.le_div_iff_mul_le hd, Nat.pow_add, Nat.mul_assoc]
    omega
  have hq' : u / d < 2 ^ (53 + s) := by
    rw [Nat.div_lt_iff_lt_mul hd, Nat.pow_add, Nat.mul_assoc]
    exact hlt
  have hne : u / d ≠ 0 := Nat.ne_of_gt (Nat.lt_of_lt_of_le (Nat.two_pow_pos _) hq)
  have hlog : (u / d).log2 - 52 = s := by
    have := (Nat.le_log2 hne).2 hq
    have := (Nat.log2_lt hne).2 hq'
    omega
  rw [hlog, divNearest_shift (m := 2 ^ 53) hd (by omega) (by omega) (.inl (by decide))]
  simp only [Magnitude.rank, Magnitude.binade]
  omega

/-- A number of units in the range of a magnitude is rounded to it. -/
theorem rank_divNearest (hd : 0 < d) (hm : m < 2 ^ 53) (hs : s = 0 ∨ 2 ^ 52 ≤ m)
    (hdown : down = if m = 2 ^ 52 ∧ 0 < s then 2 ^ s / 2 else 2 ^ s)
    (hlow : 2 * (m * (2 ^ s * d)) ≤ 2 * u + down * d)
    (hhigh : 2 * u ≤ 2 * (m * (2 ^ s * d)) + 2 ^ s * d)
    (htie : m % 2 = 0 ∨ 2 * (m * (2 ^ s * d)) < 2 * u + down * d ∧
      2 * u < 2 * (m * (2 ^ s * d)) + 2 ^ s * d) :
    Magnitude.rank ⟨divNearest u (d <<< ((u / d).log2 - 52)), (u / d).log2 - 52⟩
      = Magnitude.rank ⟨m, s⟩ := by
  have hdown_le : down * d ≤ 2 ^ s * d := by
    refine Nat.mul_le_mul_right d ?_
    rw [hdown]
    split
    · exact Nat.div_le_self _ _
    · exact Nat.le_refl _
  have hle := log2_sub_le hd hm hhigh
  by_cases hshift : (u / d).log2 - 52 = s
  · rw [hshift, divNearest_shift hd (by omega) hhigh (by omega)]
  -- Otherwise the number lies below the binade, which only its first magnitude reaches.
  obtain ⟨t, rfl⟩ : ∃ t, s = t + 1 := ⟨s - 1, by omega⟩
  have hm' : 2 ^ 52 ≤ m := by omega
  have hlt : u < 2 ^ (53 + t) * d := by
    rw [← Nat.div_lt_iff_lt_mul hd]
    refine Nat.lt_of_not_le fun hle' => hshift ?_
    have hne : u / d ≠ 0 := Nat.ne_of_gt (Nat.lt_of_lt_of_le (Nat.two_pow_pos _) hle')
    have := (Nat.le_log2 hne).2 hle'
    omega
  have hfirst : m = 2 ^ 52 := by
    refine Nat.le_antisymm (Nat.le_of_not_lt fun hgt => ?_) hm'
    have := Nat.mul_le_mul_right (2 ^ (t + 1) * d) hgt
    rw [show 2 ^ (53 + t) * d = 2 ^ 52 * (2 ^ (t + 1) * d) by ring] at hlt
    omega
  subst hfirst
  have hhalf : down = 2 ^ t := by
    rw [hdown, if_pos ⟨rfl, Nat.succ_pos t⟩]
    exact Nat.mul_div_cancel _ (by decide)
  rw [hhalf] at hlow
  exact rank_of_lt_binade hd hlow hlt

end Shift

/-- What lies in the range of a magnitude has its rank. -/
theorem rankOfRatio_of_holds {n d rank : Nat} (hd : 0 < d) (hrank : rank < Magnitude.infinityRank)
    (h : (Around.ofRank rank).holds (2 * (n * Magnitude.one)) d = true) : rankOfRatio n d = rank := by
  obtain ⟨hm, hs⟩ := mantissa_bounds rank
  obtain ⟨hlow, hhigh, htie⟩ := Around.bounds_of_holds rfl rfl h
  rw [rankOfRatio, rank_divNearest hd hm hs (Around.down_ofRank rank) hlow hhigh htie,
    Magnitude.rank_ofRank, Nat.min_eq_left (Nat.le_of_lt hrank)]

theorem one_eq {k : Nat} (hk : k = 1074) : Magnitude.one = 2 ^ k := by
  rw [Magnitude.one, ← hk, Nat.one_shiftLeft]

theorem mantissa_pos {rank : Nat} (h : 0 < rank) : 0 < (Magnitude.ofRank rank).mantissa := by
  rw [Magnitude.ofRank]
  split
  · exact h
  · exact Nat.add_pos_left (by decide) _

theorem shift_le {rank : Nat} (h : rank < Magnitude.infinityRank) :
    (Magnitude.ofRank rank).shift ≤ 2045 := by
  rw [Magnitude.infinityRank, Magnitude.binade] at h
  rw [Magnitude.ofRank]
  split
  · exact Nat.zero_le _
  · rw [Magnitude.binade]
    dsimp only
    omega

theorem Around.down_le (rank : Nat) :
    (Around.ofRank rank).down ≤ 2 ^ (Magnitude.ofRank rank).shift := by
  rw [Around.down_ofRank]
  split
  · exact Nat.div_le_self _ _
  · exact Nat.le_refl _

namespace Decimal

/-- The number of half units of a decimal as a ratio. -/
def Within (x : Decimal) (rank : Nat) : Prop :=
  (Around.ofRank rank).holds (2 * (x.digits * 10 ^ x.exponent.toNat * Magnitude.one))
    (10 ^ (-x.exponent).toNat) = true

variable {x : Decimal} {rank : Nat}

/-- A decimal in the range of a magnitude that is not zero is at least half a step large. -/
theorem Within.le (h : x.Within rank) (hpos : 0 < rank) :
    10 ^ (-x.exponent).toNat ≤ 2 * (x.digits * 10 ^ x.exponent.toNat * Magnitude.one) := by
  obtain ⟨hlow, -, -⟩ := Around.bounds_of_holds rfl rfl h
  have hdown := Nat.mul_le_mul_right (10 ^ (-x.exponent).toNat) (Around.down_le rank)
  have hm := Nat.mul_le_mul_right (2 ^ (Magnitude.ofRank rank).shift * 10 ^ (-x.exponent).toNat)
    (mantissa_pos hpos)
  have hw : 10 ^ (-x.exponent).toNat
      ≤ 2 ^ (Magnitude.ofRank rank).shift * 10 ^ (-x.exponent).toNat :=
    Nat.le_mul_of_pos_left _ (Nat.two_pow_pos _)
  omega

/-- A decimal in the range of a finite magnitude is no larger than the largest. -/
theorem Within.lt {k : Nat} (h : x.Within rank) (hr : rank < Magnitude.infinityRank)
    (hk : 2100 ≤ k) : 2 * (x.digits * 10 ^ x.exponent.toNat * Magnitude.one)
      < 2 ^ k * 10 ^ (-x.exponent).toNat := by
  obtain ⟨-, hhigh, -⟩ := Around.bounds_of_holds rfl rfl h
  obtain ⟨j, rfl⟩ : ∃ j, k = 55 + j := ⟨k - 55, by omega⟩
  have hw : 2 ^ (Magnitude.ofRank rank).shift * 10 ^ (-x.exponent).toNat
      ≤ 2 ^ j * 10 ^ (-x.exponent).toNat :=
    Nat.mul_le_mul_right _ (Nat.pow_le_pow_right (by decide)
      (Nat.le_trans (shift_le hr) (by omega)))
  have hm := Nat.mul_le_mul (Nat.le_of_lt (mantissa_bounds rank).1) hw
  have hpos : 0 < 2 ^ j * 10 ^ (-x.exponent).toNat :=
    Nat.mul_pos (Nat.two_pow_pos _) (Nat.pow_pos (by decide))
  rw [Nat.pow_add, Nat.mul_assoc (2 ^ 55)]
  generalize 2 ^ j * 10 ^ (-x.exponent).toNat = w at *
  generalize 2 ^ (Magnitude.ofRank rank).shift * 10 ^ (-x.exponent).toNat = v at *
  omega

theorem Within.digits_ne_zero (h : x.Within rank) (hpos : 0 < rank) : x.digits ≠ 0 := by
  intro hzero
  have hlow := h.le hpos
  have hten : 0 < 10 ^ (-x.exponent).toNat := Nat.pow_pos (by decide)
  rw [hzero, Nat.zero_mul, Nat.zero_mul] at hlow
  omega

/-- A power of ten is at least that of eight. -/
theorem two_pow_le_ten_pow {k n : Nat} (h : k ≤ 3 * n) : 2 ^ k ≤ 10 ^ n :=
  calc 2 ^ k ≤ 2 ^ (3 * n) := Nat.pow_le_pow_right (by decide) h
    _ = 8 ^ n := Nat.pow_mul 2 3 n
    _ ≤ 10 ^ n := Nat.pow_le_pow_left (by decide) n

theorem Within.exponent_lt (h : x.Within rank) (hpos : 0 < rank)
    (hr : rank < Magnitude.infinityRank) : x.exponent < 400 := by
  by_contra hlarge
  obtain ⟨k, hk⟩ : ∃ k, k = 1074 := ⟨_, rfl⟩
  have hhigh := h.lt hr (k := x.exponent.toNat + 700 + k) (by omega)
  rw [one_eq hk, show (-x.exponent).toNat = 0 by omega, Nat.pow_zero, Nat.mul_one,
    Nat.pow_add] at hhigh
  have hten : 2 ^ (x.exponent.toNat + 700) ≤ 10 ^ x.exponent.toNat :=
    two_pow_le_ten_pow (by omega)
  have hall := Nat.mul_le_mul_right (2 ^ k)
    (Nat.le_trans hten (Nat.le_mul_of_pos_left _ (Nat.pos_of_ne_zero (h.digits_ne_zero hpos))))
  omega

theorem Within.exponent_ge (h : x.Within rank) (hpos : 0 < rank) :
    0 < 3 * x.exponent + x.digits.log2 + 1100 := by
  by_contra hsmall
  have hlow := h.le hpos
  obtain ⟨k, hk⟩ : ∃ k, k = 1074 := ⟨_, rfl⟩
  rw [one_eq hk, show x.exponent.toNat = 0 by omega, Nat.pow_zero, Nat.mul_one] at hlow
  have hten : 2 ^ (x.digits.log2 + 1 + (k + 1)) ≤ 10 ^ (-x.exponent).toNat :=
    two_pow_le_ten_pow (by omega)
  have hdigits : x.digits < 2 ^ (x.digits.log2 + 1) := Nat.lt_log2_self
  have hmul := Nat.mul_lt_mul_of_pos_right hdigits (Nat.two_pow_pos (k + 1))
  rw [Nat.pow_add] at hten
  rw [show x.digits * 2 ^ (k + 1) = 2 * (x.digits * 2 ^ k) by ring] at hmul
  omega

/-- A decimal in the range of a magnitude has its rank. -/
theorem rank_of_within (hpos : 0 < rank) (hr : rank < Magnitude.infinityRank)
    (h : x.Within rank) : x.rank = rank := by
  have hlarge := h.exponent_lt hpos hr
  have hsmall := h.exponent_ge hpos
  rw [Decimal.rank, if_neg (h.digits_ne_zero hpos), if_neg (by omega), if_neg (by omega)]
  exact rankOfRatio_of_holds (Nat.pow_pos (by decide)) hr h

end Decimal

end Reckoner
