import Mathlib.Algebra.Group.Nat.Defs
import Reckoner.Decimal.Magnitude

/-!
# Doubles and their bits

The bits of a double are a sign, an exponent and a mantissa in a row, and the double unpacks to what
these stand for (`unpack_packComponents`). A finite double is settled by its sign and its rank
(`floatOfRank_rankOfFloat`), its rank lies below infinity's (`rankOfFloat_lt`), and it equals itself
(`beq_self_of_isFinite`).
-/

namespace Reckoner

open Float.Model UnpackedFloat

theorem toBitVec_ofBitVec : ∀ s : BitVec 1, (Sign.ofBitVec s).toBitVec = s := by
  decide

theorem ofBitVec_toBitVec (sign : Sign) : Sign.ofBitVec sign.toBitVec = sign := by
  cases sign <;> rfl

variable {sign : Sign} {exponent : BitVec 11} {mantissa : BitVec 52}

theorem toNat_packComponents : (packComponents .binary64 sign exponent mantissa).toNat
    = sign.toBitVec.toNat * 2 ^ 63 + exponent.toNat * 2 ^ 52 + mantissa.toNat := by
  rw [packComponents, BitVec.toNat_append, BitVec.toNat_append,
    ← Nat.shiftLeft_add_eq_or_of_lt mantissa.isLt, ← Nat.shiftLeft_add_eq_or_of_lt exponent.isLt,
    Nat.shiftLeft_eq, Nat.shiftLeft_eq, Nat.add_mul, Nat.mul_assoc, ← Nat.pow_add]

theorem toNat_unpackSign (b : BitVec Format.binary64.numBits) :
    (unpackSign b).toNat = b.toNat / 2 ^ 63 % 2 :=
  congrArg (· % 2) (Nat.shiftRight_eq_div_pow b.toNat 63)

theorem toNat_unpackExponent (b : BitVec Format.binary64.numBits) :
    (unpackExponent b).toNat = b.toNat / 2 ^ 52 % 2 ^ 11 :=
  congrArg (· % 2 ^ 11) (Nat.shiftRight_eq_div_pow b.toNat 52)

theorem toNat_unpackMantissa (b : BitVec Format.binary64.numBits) :
    (unpackMantissa b).toNat = b.toNat % 2 ^ 52 :=
  rfl

/-- A bit pattern is a sign, an exponent and a mantissa in a row. -/
theorem exists_packComponents (b : BitVec Format.binary64.numBits) :
    ∃ sign exponent mantissa, b = packComponents .binary64 sign exponent mantissa := by
  have hb : b.toNat < 2 ^ 64 := b.isLt
  refine ⟨.ofBitVec (unpackSign b), unpackExponent b, unpackMantissa b, ?_⟩
  rw [← BitVec.toNat_inj, toNat_packComponents, toBitVec_ofBitVec, toNat_unpackSign,
    toNat_unpackExponent, toNat_unpackMantissa]
  omega

theorem unpackSign_packComponents :
    Sign.ofBitVec (unpackSign (packComponents .binary64 sign exponent mantissa)) = sign := by
  have hsign : sign.toBitVec.toNat < 2 := sign.toBitVec.isLt
  have hexponent : exponent.toNat < 2 ^ 11 := exponent.isLt
  have hmantissa : mantissa.toNat < 2 ^ 52 := mantissa.isLt
  have h : unpackSign (packComponents .binary64 sign exponent mantissa) = sign.toBitVec := by
    rw [← BitVec.toNat_inj, toNat_unpackSign, toNat_packComponents]
    omega
  rw [h, ofBitVec_toBitVec]

/-- A mantissa with its implicit bit. -/
theorem toNat_one_append (mantissa : BitVec 52) :
    (1#1 ++ mantissa).toNat = 2 ^ 52 + mantissa.toNat := by
  rw [BitVec.toNat_append, ← Nat.shiftLeft_add_eq_or_of_lt mantissa.isLt]
  rfl

/-- What a sign, an exponent and a mantissa stand for. -/
def ofParts (sign : Sign) (exponent : BitVec 11) (mantissa : BitVec 52) : UnpackedFloat :=
  if exponent = -1#11 then
    if mantissa = 0#52 then .infinity sign else .notANumber
  else if exponent = 0#11 then
    if h : mantissa = 0#52 then .zero sign
    else .finite sign mantissa.toNat (exponent.toNat - 1075 + 1)
      (Nat.pos_of_ne_zero fun hzero => h (BitVec.toNat_inj.1 hzero))
  else .finite sign (1#1 ++ mantissa).toNat (exponent.toNat - 1075)
    (toNat_one_append mantissa ▸ Nat.add_pos_left (by decide) _)

theorem unpack_eq (b : BitVec Format.binary64.numBits) :
    unpack .binary64 b = ofParts (.ofBitVec (unpackSign b)) (unpackExponent b) (unpackMantissa b) :=
  rfl

theorem unpack_packComponents :
    unpack .binary64 (packComponents .binary64 sign exponent mantissa)
      = ofParts sign exponent mantissa := by
  rw [unpack_eq, unpackSign_packComponents, unpackExponent_packComponents,
    unpackMantissa_packComponents]

theorem pack_finite {e : Int} {m : Nat} (h : 0 < m) :
    pack .binary64 (.finite sign m e h) =
      if 2 ^ 11 ≤ (e + 1023 + 52).toNat + 1 then packedInfinity .binary64 sign
      else if m.log2 + 1 = 53 then
        packComponents .binary64 sign (BitVec.ofNat _ (e + 1023 + 52).toNat) (BitVec.ofNat _ m)
      else packComponents .binary64 sign 0#11 (BitVec.ofNat _ m) :=
  rfl

theorem toNat_lt_of_ne (h : exponent ≠ -1#11) : exponent.toNat < 2047 := by
  have := exponent.isLt
  have : exponent.toNat ≠ 2047 := fun he => h (by rw [← BitVec.toNat_inj, he]; rfl)
  omega

/-- Packing gives a finite bit pattern back. -/
theorem pack_ofParts (h : exponent ≠ -1#11) : pack .binary64 (ofParts sign exponent mantissa)
    = packComponents .binary64 sign exponent mantissa := by
  have hm : mantissa.toNat < 2 ^ 52 := mantissa.isLt
  have hle := toNat_lt_of_ne h
  rw [ofParts, if_neg h]
  by_cases hzero : exponent = 0#11
  · rw [if_pos hzero]
    subst hzero
    by_cases hmantissa : mantissa = 0#52
    · rw [dif_pos hmantissa, hmantissa]
      rfl
    · have hpos : mantissa.toNat ≠ 0 := fun hnat => hmantissa (BitVec.toNat_inj.1 hnat)
      have hlog : mantissa.toNat.log2 < 52 := (Nat.log2_lt hpos).2 hm
      rw [dif_neg hmantissa, pack_finite, if_neg (by decide), if_neg (by omega), BitVec.ofNat_toNat,
        BitVec.setWidth_eq]
  · have hlog : (1#1 ++ mantissa).toNat.log2 = 52 := by
      rw [toNat_one_append, Nat.log2_eq_iff (by omega)]
      omega
    have hexponent : (exponent.toNat - 1075 + 1023 + 52 : Int).toNat = exponent.toNat := by omega
    rw [if_neg hzero, pack_finite, hexponent, if_neg (by omega), if_pos (by omega),
      BitVec.ofNat_toNat, BitVec.setWidth_eq, toNat_one_append]
    congr 1
    refine BitVec.eq_of_toNat_eq ?_
    show (2 ^ 52 + mantissa.toNat) % 2 ^ 52 = mantissa.toNat
    omega

theorem pack_unpack_packComponents (h : exponent ≠ -1#11) :
    pack .binary64 (unpack .binary64 (packComponents .binary64 sign exponent mantissa))
      = packComponents .binary64 sign exponent mantissa := by
  rw [unpack_packComponents, pack_ofParts h]

/-- Only the largest exponent gives infinity's rank or one above it. -/
theorem exponent_ne_of_toNat_lt
    (h : (packComponents .binary64 sign exponent mantissa).toNat % signBit
      < Magnitude.infinityRank) : exponent ≠ -1#11 := by
  rintro rfl
  have hsign : sign.toBitVec.toNat < 2 := sign.toBitVec.isLt
  have hmantissa : mantissa.toNat < 2 ^ 52 := mantissa.isLt
  rw [toNat_packComponents, show (-1#11).toNat = 2047 from rfl, signBit, Magnitude.infinityRank,
    Magnitude.binade] at h
  omega

section Finite

variable {x y : Float} {negative : Bool} {rank : Nat}

theorem eq_of_toBits (h : x.toBits.toNat = y.toBits.toNat) : x = y := by
  obtain ⟨⟨bits, hbits⟩⟩ := x
  obtain ⟨⟨bits', hbits'⟩⟩ := y
  have h : bits = bits' := UInt64.toNat_inj.1 h
  subst h
  rfl

theorem rankOfFloat_eq (h : x.toBits.toBitVec = packComponents .binary64 sign exponent mantissa) :
    rankOfFloat x = exponent.toNat * 2 ^ 52 + mantissa.toNat := by
  have hsign : sign.toBitVec.toNat < 2 := sign.toBitVec.isLt
  have hmantissa : mantissa.toNat < 2 ^ 52 := mantissa.isLt
  have hexponent : exponent.toNat < 2 ^ 11 := exponent.isLt
  rw [rankOfFloat, ← UInt64.toNat_toBitVec, h, toNat_packComponents, signBit]
  omega

theorem isFinite_ofParts : (ofParts sign exponent mantissa).isFinite = true ↔ exponent ≠ -1#11 := by
  rw [ofParts]
  constructor
  · rintro h rfl
    rw [if_pos rfl] at h
    split at h <;> cases h
  · intro h
    rw [if_neg h]
    by_cases hzero : exponent = 0#11
    · rw [if_pos hzero]
      by_cases hmantissa : mantissa = 0#52
      · rw [dif_pos hmantissa]
        rfl
      · rw [dif_neg hmantissa]
        rfl
    · rw [if_neg hzero]
      rfl

/-- A double is finite if its exponent is not the largest. -/
theorem isFinite_iff (h : x.toBits.toBitVec = packComponents .binary64 sign exponent mantissa) :
    x.isFinite = true ↔ exponent ≠ -1#11 := by
  show (unpack .binary64 x.toBits.toBitVec).isFinite = true ↔ exponent ≠ -1#11
  rw [h, unpack_packComponents, isFinite_ofParts]

/-- The bits of a finite double, whose exponent is not the largest. -/
theorem exists_toBits_eq (h : x.isFinite = true) :
    ∃ (sign : Sign) (exponent : BitVec 11) (mantissa : BitVec 52), exponent ≠ -1#11 ∧
      x.toBits.toBitVec = packComponents .binary64 sign exponent mantissa := by
  obtain ⟨sign, exponent, mantissa, hb⟩ := exists_packComponents x.toBits.toBitVec
  exact ⟨sign, exponent, mantissa, (isFinite_iff hb).1 h, hb⟩

/-- The exponent of a finite double is not the largest, so its rank lies below infinity's. -/
theorem rankOfFloat_lt (h : x.isFinite = true) : rankOfFloat x < Magnitude.infinityRank := by
  obtain ⟨sign, exponent, mantissa, hexp, hb⟩ := exists_toBits_eq h
  have hle := toNat_lt_of_ne hexp
  have hm := mantissa.isLt
  rw [rankOfFloat_eq hb, Magnitude.infinityRank, Magnitude.binade]
  omega

/-- Packing gives a finite double back. -/
theorem ofModel_pack_unpack (h : x.isFinite = true) :
    Float.ofModel (Float.Model.pack x.toModel.unpack) = x := by
  obtain ⟨sign, exponent, mantissa, hexp, hb⟩ := exists_toBits_eq h
  refine eq_of_toBits ?_
  show (pack .binary64 (unpack .binary64 x.toBits.toBitVec)).toNat = _
  rw [hb, pack_unpack_packComponents hexp, ← hb, UInt64.toNat_toBitVec]

/-- The bits of the double of a sign and a finite rank. -/
theorem toBits_floatOfRank (h : rank < Magnitude.infinityRank) :
    (floatOfRank negative rank).toBits.toNat = (if negative then signBit else 0) + rank := by
  have hn : (if negative then signBit else 0) + rank < 2 ^ 64 ∧
      ((if negative then signBit else 0) + rank) % signBit = rank := by
    rw [Magnitude.infinityRank, Magnitude.binade] at h
    rw [signBit]
    split <;> omega
  rw [floatOfRank]
  generalize (if negative then signBit else 0) + rank = n at *
  obtain ⟨sign, exponent, mantissa, hb⟩ := exists_packComponents (UInt64.ofNat n).toBitVec
  have htoNat : (packComponents .binary64 sign exponent mantissa).toNat = n := by
    rw [← hb, UInt64.toNat_toBitVec, UInt64.toNat_ofNat_of_lt' hn.1]
  have hlt : (packComponents .binary64 sign exponent mantissa).toNat % signBit
      < Magnitude.infinityRank := by rwa [htoNat, hn.2]
  calc (Float.ofBits (UInt64.ofNat n)).toBits.toNat
      = (pack .binary64 (unpack .binary64 (UInt64.ofNat n).toBitVec)).toNat := rfl
    _ = n := by rw [hb, pack_unpack_packComponents (exponent_ne_of_toNat_lt hlt), htoNat]

theorem rankOfFloat_floatOfRank (h : rank < Magnitude.infinityRank) :
    rankOfFloat (floatOfRank negative rank) = rank := by
  rw [rankOfFloat, toBits_floatOfRank h]
  rw [Magnitude.infinityRank, Magnitude.binade] at h
  rw [signBit]
  split <;> omega

theorem hasMinus_floatOfRank (h : rank < Magnitude.infinityRank) :
    hasMinus (floatOfRank negative rank) = negative := by
  rw [hasMinus, toBits_floatOfRank h]
  rw [Magnitude.infinityRank, Magnitude.binade] at h
  rw [signBit]
  cases negative
  · rw [decide_eq_false_iff_not, if_neg (by decide)]
    omega
  · rw [decide_eq_true_eq, if_pos rfl]
    omega

theorem isFinite_of_rankOfFloat_lt (h : rankOfFloat x < Magnitude.infinityRank) :
    x.isFinite = true := by
  obtain ⟨sign, exponent, mantissa, hb⟩ := exists_packComponents x.toBits.toBitVec
  have hlt : (packComponents .binary64 sign exponent mantissa).toNat % signBit
      < Magnitude.infinityRank := by rwa [← hb, UInt64.toNat_toBitVec]
  exact (isFinite_iff hb).2 (exponent_ne_of_toNat_lt hlt)

/-- A finite double is the one of its sign and rank. -/
theorem floatOfRank_rankOfFloat (h : x.isFinite = true) :
    floatOfRank (hasMinus x) (rankOfFloat x) = x := by
  refine eq_of_toBits ?_
  rw [toBits_floatOfRank (rankOfFloat_lt h), hasMinus, rankOfFloat]
  have hlt := x.toBits.toNat_lt
  by_cases hsign : signBit ≤ x.toBits.toNat
  · rw [if_pos (decide_eq_true hsign), signBit] at *
    omega
  · rw [if_neg (by rw [decide_eq_false hsign]; decide), signBit] at *
    omega

theorem beq_self_of_isFinite (h : x.isFinite = true) : (x == x) = true := by
  have h : x.toModel.unpack.isFinite = true := h
  show (x.toModel.unpack.compare x.toModel.unpack == some .eq) = true
  rcases hu : x.toModel.unpack with _ | s | s | ⟨s, m, e, hm⟩
  · rw [hu] at h
    cases h
  · rw [hu] at h
    cases h
  · rfl
  · have hcompare : (compare e e).then (compare m m) = .eq :=
      Ordering.then_eq_eq.2 ⟨Std.ReflCmp.compare_self, Std.ReflCmp.compare_self⟩
    cases s with
    | positive =>
      show (some ((compare e e).then (compare m m)) == some .eq) = true
      rw [hcompare]
      rfl
    | negative =>
      show (some ((compare e e).then (compare m m)).swap == some .eq) = true
      rw [hcompare]
      rfl

end Finite

end Reckoner
