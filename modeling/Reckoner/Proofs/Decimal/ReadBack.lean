import Reckoner.Proofs.Decimal.Bits
import Reckoner.Proofs.Decimal.Rounding
import Reckoner.Proofs.Literal.Numeral

/-!
# The text of a double reads back

The shortest decimal of a magnitude lies in its range (`within_ofRank`), as the last grid always has
a point there. Written out it is a numeral, and the numeral has the value of the double
(`exists_numeral_of_text`).
-/

namespace Reckoner

namespace Around

/-- A point of the grid of `10 ^ exponent` in the range. -/
def Hit (a : Around) (p : Nat × Int) : Prop :=
  a.holds (2 * (p.1 * 10 ^ p.2.toNat * Magnitude.one)) (10 ^ (-p.2).toNat) = true

theorem hit_of_onGrid {a : Around} {exponent : Int} {k : Nat} (h : a.onGrid exponent = some k) :
    a.Hit (k, exponent) := by
  have hunits : ∀ j, j * (2 * Magnitude.one * Nat.pow 10 exponent.toNat)
      = 2 * (j * 10 ^ exponent.toNat * Magnitude.one) := by
    intro j
    rw [Nat.pow_eq]
    ring
  rw [Hit, ← hunits]
  rw [onGrid] at h
  split at h <;> rename_i hlow hhigh
  · split at h <;> cases h
    · exact hlow
    · exact hhigh
  · cases h
    exact hlow
  · cases h
    exact hhigh
  · cases h

theorem down_pos (rank : Nat) : 0 < (ofRank rank).down := by
  rw [down_ofRank]
  split
  · rename_i h
    obtain ⟨t, ht⟩ : ∃ t, (Magnitude.ofRank rank).shift = t + 1 := ⟨_, (Nat.succ_pred h.2.ne').symm⟩
    rw [ht, Nat.pow_succ, Nat.mul_div_cancel _ (by decide)]
    exact Nat.two_pow_pos t
  · exact Nat.two_pow_pos _

theorem down_le_centre {rank : Nat} (hpos : 0 < rank) :
    (ofRank rank).down ≤ (ofRank rank).centre := by
  have := Nat.le_mul_of_pos_left (2 ^ (Magnitude.ofRank rank).shift) (mantissa_pos hpos)
  have := down_le rank
  rw [centre_ofRank]
  omega

/-- On a grid finer than the distance down, the last point up to the centre lies in the range. -/
theorem holds_of_lt {rank n d : Nat} (hpos : 0 < rank) (hn : 0 < n) (hnd : n < d) :
    (ofRank rank).holds ((ofRank rank).centre * d / n * n) d = true := by
  have hfloor : n * ((ofRank rank).centre * d / n) + (ofRank rank).centre * d % n
      = (ofRank rank).centre * d := Nat.div_add_mod _ n
  have hmod := Nat.mod_lt ((ofRank rank).centre * d) hn
  have hcentre := Nat.mul_le_mul_right d (down_le_centre hpos)
  have hdown := Nat.le_mul_of_pos_left d (down_pos rank)
  have hup : 0 < (ofRank rank).up * d := by
    rw [up_ofRank]
    exact Nat.mul_pos (Nat.two_pow_pos _) (Nat.lt_trans hn hnd)
  rw [Nat.mul_comm n] at hfloor
  rw [holds, Nat.sub_mul, Nat.add_mul]
  split
  · simp only [Bool.and_eq_true, decide_eq_true_eq]
    omega
  · simp only [Bool.and_eq_true, decide_eq_true_eq]
    omega

section Last

variable {e : Int}

/-- The last grid is finer than the smallest double. -/
theorem units_lt_last (he : e = -324) :
    2 * Magnitude.one * 10 ^ e.toNat < 10 ^ (-e).toNat := by
  obtain ⟨k, hk⟩ : ∃ k, k = 1074 := ⟨_, rfl⟩
  obtain ⟨n, hn⟩ : ∃ n, n = 4 := ⟨_, rfl⟩
  have hfive : 2 ^ (188 * n) ≤ 5 ^ (81 * n) := by
    rw [Nat.pow_mul, Nat.pow_mul]
    exact Nat.pow_le_pow_left (by decide) n
  rw [one_eq hk, show e.toNat = 0 by omega, Nat.pow_zero, Nat.mul_one,
    show (-e).toNat = 81 * n by omega]
  calc 2 * 2 ^ k = 2 ^ (k + 1) := (Nat.pow_succ' ..).symm
    _ < 2 ^ (81 * n + 188 * n) := Nat.pow_lt_pow_right (by decide) (by omega)
    _ = 2 ^ (81 * n) * 2 ^ (188 * n) := Nat.pow_add 2 _ _
    _ ≤ 2 ^ (81 * n) * 5 ^ (81 * n) := Nat.mul_le_mul_left _ hfive
    _ = 10 ^ (81 * n) := (Nat.mul_pow 2 5 _).symm

/-- The range of a magnitude that is not zero is wider than the last grid. -/
theorem exists_onGrid {rank : Nat} (hpos : 0 < rank) (he : e = -324) :
    ∃ k, (ofRank rank).onGrid e = some k := by
  have hunits : 0 < 2 * Magnitude.one * 10 ^ e.toNat := by
    obtain ⟨k, hk⟩ : ∃ k, k = 1074 := ⟨_, rfl⟩
    rw [one_eq hk]
    exact Nat.mul_pos (Nat.mul_pos (by decide) (Nat.two_pow_pos _)) (Nat.pow_pos (by decide))
  have hlow := holds_of_lt hpos hunits (units_lt_last he)
  rw [onGrid]
  split <;> rename_i h _
  · exact ⟨_, rfl⟩
  · exact ⟨_, rfl⟩
  · exact ⟨_, rfl⟩
  · exact absurd (h.symm.trans hlow) (by decide)

end Last

theorem hit_shortest {rank : Nat} (hpos : 0 < rank) (steps : Nat) :
    (ofRank rank).Hit ((ofRank rank).shortest steps) := by
  induction steps with
  | zero =>
    obtain ⟨k, hk⟩ := exists_onGrid hpos rfl
    rw [shortest, hk]
    exact hit_of_onGrid hk
  | succ steps ih =>
    rw [shortest]
    split
    · rename_i digits h
      exact hit_of_onGrid h
    · exact ih

end Around

namespace Decimal

theorem within_ofRank {rank : Nat} (hpos : 0 < rank) (negative : Bool) :
    (ofRank negative rank).Within rank := by
  rw [ofRank, if_neg (Nat.ne_of_gt hpos)]
  exact Around.hit_shortest hpos _

/-- The decimal as it is read from its digits in full, with no power of ten above one. -/
def spelled (d : Decimal) : Decimal :=
  ⟨d.negative, d.digits * 10 ^ d.exponent.toNat, min d.exponent 0⟩

theorem Within.spelled {d : Decimal} {rank : Nat} (h : d.Within rank) : d.spelled.Within rank := by
  have hup : (min d.exponent 0).toNat = 0 := by omega
  have hdown : (-min d.exponent 0).toNat = (-d.exponent).toNat := by omega
  rw [Within] at h ⊢
  simp only [Decimal.spelled]
  rwa [hup, hdown, Nat.pow_zero, Nat.mul_one]

theorem rank_spelled_ofRank {rank : Nat} (hr : rank < Magnitude.infinityRank) (negative : Bool) :
    (ofRank negative rank).spelled.rank = rank := by
  rcases Nat.eq_zero_or_pos rank with rfl | hpos
  · rfl
  · exact rank_of_within hpos hr (within_ofRank hpos negative).spelled

theorem natOfDigits_eq (ds : List Char) : natOfDigits ds = Nat.ofDigitChars 10 ds 0 := rfl

/-- Digits, or digits around a point. -/
inductive Written : List Char → Nat → Int → Prop
  | whole {w : List Char} : w ≠ [] → (∀ c ∈ w, c.isDigit = true) → Written w (natOfDigits w) 0
  | point {w p : List Char} : w ≠ [] → (∀ c ∈ w, c.isDigit = true) → (∀ c ∈ p, c.isDigit = true) →
    Written (w ++ '.' :: p) (natOfDigits (w ++ p)) (-p.length)

section Written

variable {cs : List Char} {n : Nat} {e : Int}

theorem Written.readUnsigned? (h : Written cs n e) : readUnsigned? cs = some (n, e) := by
  cases h with
  | whole hne hw =>
    rw [Decimal.readUnsigned?, ← List.append_nil cs, List.takeWhile_append_of_pos hw,
      List.dropWhile_append_of_pos hw]
    simp [hne]
  | @point w p hne hw hp =>
    rw [Decimal.readUnsigned?, List.takeWhile_append_of_pos hw, List.dropWhile_append_of_pos hw]
    simp [hne, List.all_eq_true.2 hp]

theorem Written.head (h : Written cs n e) : ∃ x rest, cs = x :: rest ∧ x.isDigit = true := by
  cases h with
  | whole hne hw => 
    obtain ⟨x, rest, rfl⟩ := List.exists_cons_of_ne_nil hne
    exact ⟨x, rest, rfl, hw x List.mem_cons_self⟩
  | point hne hw hp =>
    obtain ⟨x, rest, rfl⟩ := List.exists_cons_of_ne_nil hne
    exact ⟨x, _, rfl, hw x List.mem_cons_self⟩

theorem count_point_of_isDigit {w : List Char} (hw : ∀ c ∈ w, c.isDigit = true) :
    w.count '.' = 0 :=
  List.count_eq_zero.2 fun h => absurd (hw _ h) (by decide)

theorem inNumeral_of_isDigit {c : Char} (h : c.isDigit = true) : inNumeral c = true := by
  rw [inNumeral, h, Bool.true_or]

theorem Written.isNumeral (h : Written cs n e) :
    cs.all inNumeral = true ∧ cs.count '.' ≤ 1 ∧ cs.any Char.isDigit = true := by
  obtain ⟨x, rest, hcs, hx⟩ := h.head
  refine ⟨List.all_eq_true.2 ?_, ?_, by rw [hcs, List.any_cons, hx, Bool.true_or]⟩
  · cases h with
    | whole hne hw => exact fun c hc => inNumeral_of_isDigit (hw c hc)
    | point hne hw hp =>
      intro c hc
      rcases List.mem_append.1 hc with hc | hc
      · exact inNumeral_of_isDigit (hw c hc)
      · rcases List.mem_cons.1 hc with rfl | hc
        · rfl
        · exact inNumeral_of_isDigit (hp c hc)
  · cases h with
    | whole hne hw => rw [count_point_of_isDigit hw]; exact Nat.zero_le 1
    | point hne hw hp =>
      rw [List.count_append, List.count_cons_self, count_point_of_isDigit hw,
        count_point_of_isDigit hp]

theorem isDigit_of_mem_zeros {k : Nat} : ∀ c ∈ List.replicate k '0', c.isDigit = true := by
  intro c hc
  rw [List.eq_of_mem_replicate hc]
  rfl

/-- Whatever the exponent, digits are written as digits with at most one point. -/
theorem written_positional {ds : List Char} (hne : ds ≠ []) (hds : ∀ c ∈ ds, c.isDigit = true)
    (e : Int) : Written (positional ds e) (natOfDigits ds * 10 ^ e.toNat) (min e 0) := by
  rw [positional]
  split
  · rename_i he
    have hvalue : natOfDigits ds * 10 ^ e.toNat
        = natOfDigits (ds ++ List.replicate e.toNat '0') := by
      rw [natOfDigits_eq, natOfDigits_eq, Nat.ofDigitChars_append,
        Nat.ofDigitChars_replicate_zero, Nat.mul_comm]
    rw [hvalue, Int.min_eq_right he]
    refine .whole (by simp [hne]) fun c hc => ?_
    exact (List.mem_append.1 hc).elim (hds c) (isDigit_of_mem_zeros c)
  · rename_i he
    have hzero : e.toNat = 0 := by omega
    rw [hzero, Nat.pow_zero, Nat.mul_one, Int.min_eq_left (by omega)]
    dsimp only
    split
    · rename_i hlt
      have hexp : e = -((ds.drop (ds.length - (-e).toNat)).length : Int) := by
        rw [List.length_drop]
        omega
      have hsplit := List.take_append_drop (ds.length - (-e).toNat) ds
      have h : Written _ (natOfDigits (ds.take (ds.length - (-e).toNat) ++
          ds.drop (ds.length - (-e).toNat))) _ :=
        .point (w := ds.take (ds.length - (-e).toNat)) (p := ds.drop (ds.length - (-e).toNat))
          (List.ne_nil_of_length_pos (by rw [List.length_take]; omega))
          (fun c hc => hds c (List.mem_of_mem_take hc)) (fun c hc => hds c (List.mem_of_mem_drop hc))
      rwa [hsplit, ← hexp] at h
    · rename_i hge
      have hexp : e = -((List.replicate ((-e).toNat - ds.length) '0' ++ ds).length : Int) := by
        rw [List.length_append, List.length_replicate]
        omega
      have h : Written _ _ _ := .point (w := ['0'])
        (p := List.replicate ((-e).toNat - ds.length) '0' ++ ds) (by simp) (by simp) fun c hc =>
          (List.mem_append.1 hc).elim (isDigit_of_mem_zeros c) (hds c)
      rw [← hexp, natOfDigits_eq, Nat.ofDigitChars_append, Nat.ofDigitChars_append,
        Nat.ofDigitChars_replicate_zero] at h
      exact h

end Written

theorem isSign_of_isDigit {c : Char} (h : c.isDigit = true) : isSign c = false := by
  by_contra hs
  simp only [isSign, Bool.not_eq_false, Bool.or_eq_true, decide_eq_true_eq] at hs
  rcases hs with rfl | rfl <;> exact absurd h (by decide)

/-- Written out, a decimal is a numeral that reads as the decimal spelled. -/
theorem exists_numeral_of_chars (d : Decimal) :
    ∃ n : Numeral, ∃ x rest, d.chars = n.chars ∧ n.value = d.spelled.toFloat ∧
      n.chars = x :: rest ∧ (x.isDigit || x = '-') = true := by
  have hdigits : ∀ c ∈ Nat.toDigits 10 d.digits, c.isDigit = true := fun c hc =>
    Nat.isDigit_of_mem_toDigits (by decide) (by decide) hc
  have hw := written_positional Nat.toDigits_ne_nil hdigits d.exponent
  rw [natOfDigits_eq, Nat.ofDigitChars_ten_toDigits] at hw
  obtain ⟨x, rest, hcs, hx⟩ := hw.head
  obtain ⟨hall, hcount, hany⟩ := hw.isNumeral
  have hsplit : splitSign d.chars
      = (d.negative, positional (Nat.toDigits 10 d.digits) d.exponent) := by
    rw [Decimal.chars]
    cases d.negative with
    | false => exact hcs ▸ splitSign_of_not_isSign (isSign_of_isDigit hx) rest
    | true => rfl
  have hn : isNumeral d.chars = true := by
    simp only [Reckoner.isNumeral, hsplit, hall, hcount, hany, decide_true, Bool.and_self]
  have hvalue : (⟨d.chars, hn⟩ : Numeral).value = d.spelled.toFloat := by
    have := (⟨d.chars, hn⟩ : Numeral).readPlain?_chars
    rw [readPlain?, hsplit] at this
    simp only [hw.readUnsigned?] at this
    exact (Option.some.inj this).symm
  have hhead : ∃ y rest, d.chars = y :: rest ∧ (y.isDigit || y = '-') = true := by
    rw [Decimal.chars]
    cases d.negative with
    | false => exact ⟨x, rest, hcs, by simp [hx]⟩
    | true => exact ⟨'-', _, rfl, rfl⟩
  obtain ⟨y, rest', hchars, hy⟩ := hhead
  exact ⟨⟨d.chars, hn⟩, y, rest', rfl, hvalue, hchars, hy⟩

theorem toList_text {v : Float} (h : v.isFinite = true) :
    (text v).toList = (ofRank (hasMinus v) (rankOfFloat v)).chars := by
  have hr := rankOfFloat_lt h
  rw [text, if_neg (by omega), if_neg (by omega), String.toList_ofList]

end Decimal

/-- The text of a finite double is a numeral, from a digit or a minus sign on, and has its value. -/
theorem exists_numeral_of_text {v : Float} (h : v.isFinite = true) :
    ∃ n : Numeral, ∃ x rest, (Decimal.text v).toList = n.chars ∧ n.value = v ∧
      n.chars = x :: rest ∧ (x.isDigit || x = '-') = true := by
  have hr := rankOfFloat_lt h
  obtain ⟨n, x, rest, hchars, hvalue, hn⟩ :=
    Decimal.exists_numeral_of_chars (Decimal.ofRank (hasMinus v) (rankOfFloat v))
  refine ⟨n, x, rest, (Decimal.toList_text h).trans hchars, ?_, hn⟩
  rw [hvalue, Decimal.toFloat, Decimal.rank_spelled_ofRank hr]
  have hsign : (Decimal.ofRank (hasMinus v) (rankOfFloat v)).spelled.negative = hasMinus v := by
    rw [Decimal.spelled, Decimal.ofRank]
    split <;> rfl
  rw [hsign, floatOfRank_rankOfFloat h]

end Reckoner
