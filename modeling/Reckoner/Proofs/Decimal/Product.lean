import Reckoner.Proofs.Decimal.Bits
import Reckoner.Proofs.Decimal.Rounding

/-!
# Products of doubles

A finite double unpacks to the mantissa and the shift of its magnitude (`unpack_of_isFinite`). The
product of two mantissas is shifted to the width of one, which loses nothing if only zeros are shifted
out (`Magnitude.Normal.roundWithAccuracy`). So two doubles whose product is a double multiply to it
(`mul_eq_floatOfRank`).
-/

namespace Reckoner

open Float.Model UnpackedFloat

/-- The sign, as it is unpacked. -/
def signOf (negative : Bool) : Sign :=
  if negative then .negative else .positive

theorem signOf_mul (a b : Bool) : signOf a * signOf b = signOf (a ^^ b) := by
  cases a <;> cases b <;> rfl

theorem signOf_hasMinus {x : Float} {sign : Sign} {exponent : BitVec 11} {mantissa : BitVec 52}
    (h : x.toBits.toBitVec = packComponents .binary64 sign exponent mantissa) :
    signOf (hasMinus x) = sign := by
  have hexponent : exponent.toNat < 2 ^ 11 := exponent.isLt
  have hmantissa : mantissa.toNat < 2 ^ 52 := mantissa.isLt
  rw [hasMinus, ← UInt64.toNat_toBitVec, h, toNat_packComponents, signBit, signOf]
  cases sign with
  | negative =>
    rw [if_pos]
    rw [decide_eq_true_eq, show Sign.negative.toBitVec.toNat = 1 from rfl]
    omega
  | positive =>
    rw [if_neg]
    rw [decide_eq_true_eq, show Sign.positive.toBitVec.toNat = 0 from rfl]
    omega

/-- What a magnitude unpacks to. -/
def unpacked (negative : Bool) (m : Magnitude) : UnpackedFloat :=
  if h : m.mantissa = 0 then .zero (signOf negative)
  else .finite (signOf negative) m.mantissa (m.shift - 1074) (Nat.pos_of_ne_zero h)

theorem unpack_of_isFinite {x : Float} (h : x.isFinite = true) :
    x.toModel.unpack = unpacked (hasMinus x) (Magnitude.ofRank (rankOfFloat x)) := by
  obtain ⟨sign, exponent, mantissa, hexp, hb⟩ := exists_toBits_eq h
  have hm : mantissa.toNat < 2 ^ 52 := mantissa.isLt
  have he := toNat_lt_of_ne hexp
  show UnpackedFloat.unpack .binary64 x.toBits.toBitVec = _
  rw [hb, unpack_packComponents, ofParts, if_neg hexp]
  by_cases hzero : exponent = 0#11
  · have hrank : Magnitude.ofRank (rankOfFloat x) = ⟨mantissa.toNat, 0⟩ := by
      rw [rankOfFloat_eq hb, hzero, Magnitude.ofRank, Magnitude.binade, BitVec.toNat_zero,
        Nat.zero_mul, Nat.zero_add, if_pos (by omega)]
    rw [if_pos hzero, hrank, unpacked, signOf_hasMinus hb]
    by_cases hmantissa : mantissa = 0#52
    · rw [dif_pos hmantissa, dif_pos (by rw [hmantissa]; rfl)]
    · have hne : mantissa.toNat ≠ 0 := fun h => hmantissa (BitVec.eq_of_toNat_eq h)
      rw [dif_neg hmantissa, dif_neg hne, finite.injEq, hzero]
      exact ⟨rfl, rfl, rfl⟩
  · have hpos : exponent.toNat ≠ 0 := fun h => hzero (BitVec.eq_of_toNat_eq h)
    have hrank : Magnitude.ofRank (rankOfFloat x)
        = ⟨2 ^ 52 + mantissa.toNat, exponent.toNat - 1⟩ := by
      rw [rankOfFloat_eq hb, Magnitude.ofRank, Magnitude.binade, if_neg (by omega),
        Magnitude.mk.injEq]
      omega
    have hne : 2 ^ 52 + mantissa.toNat ≠ 0 := by omega
    have hshift : (exponent.toNat - 1075 : Int) = (exponent.toNat - 1 : Nat) - 1074 := by omega
    rw [if_neg hzero, hrank, unpacked, signOf_hasMinus hb, dif_neg hne, finite.injEq,
      toNat_one_append]
    exact ⟨rfl, rfl, hshift⟩

/-- Magnitudes as doubles write them: with no shift where the mantissa is small. -/
structure Magnitude.Normal (m : Magnitude) : Prop where
  mantissa_lt : m.mantissa < 2 ^ 53
  shift_eq_or : m.shift = 0 ∨ 2 ^ 52 ≤ m.mantissa
  shift_le : m.shift ≤ 2045

namespace Magnitude

namespace Normal

variable {m : Magnitude}

theorem rank_lt (h : m.Normal) : m.rank < infinityRank := by
  have := h.mantissa_lt
  have := h.shift_le
  rw [rank, infinityRank, binade]
  omega

theorem ofRank_rank (h : m.Normal) : ofRank m.rank = m := by
  obtain ⟨m, k⟩ := m
  obtain ⟨hm, hs, -⟩ := h
  dsimp only at hm hs
  rw [rank, ofRank, binade]
  dsimp only
  split
  · obtain rfl : k = 0 := by omega
    rw [Nat.zero_mul, Nat.zero_add]
  · rw [mk.injEq]
    omega

end Normal

theorem normal_ofRank {rank : Nat} (h : rank < infinityRank) : (ofRank rank).Normal := by
  obtain ⟨hm, hs⟩ := mantissa_bounds rank
  exact ⟨hm, hs, shift_le h⟩

end Magnitude

theorem pack_unpacked {m : Magnitude} (h : m.Normal) (negative : Bool) :
    Float.ofModel (Float.Model.pack (unpacked negative m)) = floatOfRank negative m.rank := by
  have hr : rankOfFloat (floatOfRank negative m.rank) = m.rank := rankOfFloat_floatOfRank h.rank_lt
  have hfinite : (floatOfRank negative m.rank).isFinite = true :=
    isFinite_of_rankOfFloat_lt (hr.symm ▸ h.rank_lt)
  have hunpack := unpack_of_isFinite hfinite
  rw [hasMinus_floatOfRank h.rank_lt, hr, h.ofRank_rank] at hunpack
  rw [← hunpack, ofModel_pack_unpack hfinite]

theorem shiftRight_mul_two_pow (m j : Nat) :
    ExtendedMantissa.mk (m * 2 ^ j) false false >>> j = ExtendedMantissa.mk m false false := by
  induction j generalizing m with
  | zero =>
    rw [Nat.pow_zero, Nat.mul_one]
    rfl
  | succ j ih =>
    rw [Nat.pow_succ', ← Nat.mul_assoc]
    show ExtendedMantissa.shiftRightOne (ExtendedMantissa.mk (m * 2 * 2 ^ j) false false >>> j) = _
    rw [ih, ExtendedMantissa.shiftRightOne]
    simp

theorem log2_mul_two_pow {m : Nat} (h : m ≠ 0) (j : Nat) : (m * 2 ^ j).log2 = m.log2 + j := by
  have hpos := Nat.two_pow_pos j
  rw [Nat.log2_eq_iff (Nat.mul_ne_zero h hpos.ne'), Nat.pow_add, Nat.add_right_comm, Nat.pow_add]
  exact ⟨Nat.mul_le_mul_right _ (Nat.log2_self_le h),
    Nat.mul_lt_mul_of_pos_right Nat.lt_log2_self hpos⟩

theorem Magnitude.Normal.targetExponent {m : Magnitude} (h : m.Normal) (hne : m.mantissa ≠ 0)
    (j : Nat) : Format.binary64.targetExponent
      (totalExponent (m.mantissa * 2 ^ j) (m.shift - 1074 - j)) = m.shift - 1074 := by
  have hlog : m.mantissa.log2 < 53 := (Nat.log2_lt hne).2 h.mantissa_lt
  have hnormal : m.shift = 0 ∨ 52 ≤ m.mantissa.log2 :=
    h.shift_eq_or.imp_right (Nat.le_log2 hne).2
  rw [Format.targetExponent, totalExponent, log2_mul_two_pow hne,
    show Format.binary64.mantissaBits = 53 from rfl,
    show Format.binary64.minExponent = -1074 from rfl]
  omega

theorem Magnitude.Normal.shiftToTargetExponent {m : Magnitude} (h : m.Normal) (hne : m.mantissa ≠ 0)
    (j : Nat) :
    shiftToTargetExponent .binary64 (m.mantissa * 2 ^ j) (m.shift - 1074 - j) .exact
      = (ExtendedMantissa.mk m.mantissa false false, (m.shift - 1074 : Int)) := by
  rw [UnpackedFloat.shiftToTargetExponent, shiftToExponent, h.targetExponent hne]
  simp only [show ((m.shift - 1074 : Int) - (m.shift - 1074 - j)).toNat = j by omega]
  rw [ExtendedMantissa.ofMantissaAndAccuracy, shiftRight_mul_two_pow, Int.sub_add_cancel]

/-- A mantissa that has been shifted to its place. -/
def ofShifted (sign : Sign) (p : ExtendedMantissa × Int) : UnpackedFloat :=
  if h : p.1.mantissa = 0 then .zero sign
  else .finite sign p.1.mantissa p.2 (Nat.pos_of_ne_zero h)

/-- A mantissa is shifted to its place, rounded there, and shifted again if it has become too long. -/
theorem roundWithAccuracy_eq {sign : Sign} {mantissa : Nat} {exponent : Int} {accuracy : Accuracy}
    {p : ExtendedMantissa × Int}
    (h : shiftToTargetExponent .binary64 mantissa exponent accuracy = p) :
    roundWithAccuracy .binary64 sign mantissa exponent accuracy
      = ofShifted sign (shiftToTargetExponent .binary64 p.1.roundedMantissa p.2 .exact) := by
  subst h
  rfl

/-- Where only zeros are shifted out, nothing is rounded. -/
theorem Magnitude.Normal.roundWithAccuracy {m : Magnitude} (h : m.Normal) (hne : m.mantissa ≠ 0)
    (negative : Bool) (j : Nat) :
    roundWithAccuracy .binary64 (signOf negative) (m.mantissa * 2 ^ j) (m.shift - 1074 - j) .exact
      = unpacked negative m := by
  have hagain := h.shiftToTargetExponent hne 0
  rw [Nat.pow_zero, Nat.mul_one, Int.natCast_zero, Int.sub_zero] at hagain
  have hround : (ExtendedMantissa.mk m.mantissa false false).roundedMantissa = m.mantissa := rfl
  rw [roundWithAccuracy_eq (h.shiftToTargetExponent hne j), hround, hagain, ofShifted, unpacked]

theorem mul_finite {s t : Sign} {m n : Nat} {e f : Int} (hm : 0 < m) (hn : 0 < n) :
    UnpackedFloat.mul .binary64 (.finite s m e hm) (.finite t n f hn)
      = roundWithAccuracy .binary64 (s * t) (m * n) (e + f) .exact :=
  rfl

section Product

variable {a b c : Magnitude} {k : Nat}

/-- Where two magnitudes multiply to a third, their mantissas do, up to zeros in the end. -/
theorem Magnitude.Normal.exists_shift (ha : a.Normal) (hb : b.Normal) (hc : c.Normal)
    (ha0 : a.mantissa ≠ 0) (hb0 : b.mantissa ≠ 0) (hk : 0 < k)
    (h : a.mantissa * b.mantissa * 2 ^ (a.shift + b.shift) = c.mantissa * 2 ^ (c.shift + k)) :
    ∃ j, a.shift + b.shift + j = c.shift + k ∧ a.mantissa * b.mantissa = c.mantissa * 2 ^ j := by
  have hle : a.shift + b.shift ≤ c.shift + k := by
    by_contra hlt
    obtain ⟨i, hi⟩ : ∃ i, a.shift + b.shift = i + 1 + (c.shift + k) :=
      ⟨a.shift + b.shift - (c.shift + k) - 1, by omega⟩
    rw [hi, Nat.pow_add, ← Nat.mul_assoc, Nat.mul_left_inj (Nat.two_pow_pos _).ne'] at h
    -- One of the two is shifted, so that its mantissa is large.
    have hlarge : 2 ^ 52 ≤ a.mantissa * b.mantissa := by
      rcases ha.shift_eq_or with hs | hs
      · have hs : 2 ^ 52 ≤ b.mantissa := hb.shift_eq_or.resolve_left (by omega)
        exact hs.trans (Nat.le_mul_of_pos_left _ (Nat.pos_of_ne_zero ha0))
      · exact hs.trans (Nat.le_mul_of_pos_right _ (Nat.pos_of_ne_zero hb0))
    have htwo := Nat.mul_le_mul hlarge (Nat.pow_le_pow_right (show 0 < 2 by decide)
      (Nat.le_add_left 1 i))
    have := hc.mantissa_lt
    omega
  obtain ⟨j, hj⟩ := Nat.exists_eq_add_of_le hle
  refine ⟨j, hj.symm, ?_⟩
  rw [hj, Nat.add_comm _ j, Nat.pow_add 2 j, ← Nat.mul_assoc] at h
  exact Nat.eq_of_mul_eq_mul_right (Nat.two_pow_pos _) h

theorem mul_unpacked (ha : a.Normal) (hb : b.Normal) (hc : c.Normal) (hk : k = 1074) (s t : Bool)
    (h : a.mantissa * b.mantissa * 2 ^ (a.shift + b.shift) = c.mantissa * 2 ^ (c.shift + k)) :
    UnpackedFloat.mul .binary64 (unpacked s a) (unpacked t b) = unpacked (s ^^ t) c := by
  have hzero : a.mantissa = 0 ∨ b.mantissa = 0 ↔ c.mantissa = 0 := by
    have hpow : ∀ i, 2 ^ i ≠ 0 := fun i => (Nat.two_pow_pos i).ne'
    simpa only [Nat.mul_eq_zero, hpow, or_false] using iff_of_eq (congrArg (· = 0) h)
  by_cases ha0 : a.mantissa = 0
  · rw [unpacked, dif_pos ha0, unpacked, unpacked, dif_pos (hzero.1 (.inl ha0)), ← signOf_mul]
    by_cases hb0 : b.mantissa = 0
    · rw [dif_pos hb0]
      rfl
    · rw [dif_neg hb0]
      rfl
  by_cases hb0 : b.mantissa = 0
  · rw [unpacked, dif_neg ha0, unpacked, dif_pos hb0, unpacked, dif_pos (hzero.1 (.inr hb0)),
      ← signOf_mul]
    rfl
  have hc0 : c.mantissa ≠ 0 := fun h => (hzero.2 h).elim ha0 hb0
  obtain ⟨j, hj, hprod⟩ := ha.exists_shift hb hc ha0 hb0 (by omega) h
  rw [unpacked, dif_neg ha0, unpacked, dif_neg hb0, mul_finite, signOf_mul, hprod,
    show ((a.shift : Int) - 1074 + (b.shift - 1074)) = c.shift - 1074 - j by omega,
    hc.roundWithAccuracy hc0]

end Product

/-- Doubles whose product is a double multiply to it. -/
theorem mul_eq_floatOfRank {x y z : Float} (hx : x.isFinite = true) (hy : y.isFinite = true)
    (hz : z.isFinite = true) (h : (Magnitude.ofRank (rankOfFloat x)).units
      * (Magnitude.ofRank (rankOfFloat y)).units
      = (Magnitude.ofRank (rankOfFloat z)).units * Magnitude.one) :
    x * y = floatOfRank (hasMinus x ^^ hasMinus y) (rankOfFloat z) := by
  have ha := Magnitude.normal_ofRank (rankOfFloat_lt hx)
  have hb := Magnitude.normal_ofRank (rankOfFloat_lt hy)
  have hc := Magnitude.normal_ofRank (rankOfFloat_lt hz)
  obtain ⟨k, hk⟩ : ∃ k, k = 1074 := ⟨_, rfl⟩
  rw [one_eq hk] at h
  simp only [Magnitude.units, Nat.shiftLeft_eq] at h
  rw [Nat.mul_mul_mul_comm, ← Nat.pow_add, Nat.mul_assoc _ (2 ^ _) (2 ^ k), ← Nat.pow_add] at h
  calc x * y = Float.ofModel (Float.Model.pack
      (UnpackedFloat.mul .binary64 x.toModel.unpack y.toModel.unpack)) := rfl
    _ = floatOfRank (hasMinus x ^^ hasMinus y) (rankOfFloat z) := by
      rw [unpack_of_isFinite hx, unpack_of_isFinite hy, mul_unpacked ha hb hc hk _ _ h,
        pack_unpacked hc, Magnitude.rank_ofRank]

end Reckoner
