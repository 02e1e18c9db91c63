import Mathlib.Algebra.Order.BigOperators.Group.List
import Reckoner.Proofs.Grade.Fitting
import Reckoner.Proofs.Grade.Shares

/-!
# Portions

Each grade beneath a term is multiplied by something and divided by something, and carries just that,
in no other terms (`Term.Holds`). Within limits sums of such terms can be made
(`Term.HoldsAll.exists_total`), and multiplying and dividing them go through
(`Term.Holds.exists_multiply`, `Term.Holds.exists_divide`).
-/

namespace Reckoner

/-- A grade, with what multiplies it and what divides it. -/
structure Portion where
  name : String
  multiplier : ℕ
  divisor : ℕ

namespace Portion

def share (p : Portion) : String × ℚ :=
  (p.name, p.multiplier / p.divisor)

/-- Multiplied and divided by more. -/
def scale (m n : ℕ) (p : Portion) : Portion :=
  ⟨p.name, p.multiplier * m, p.divisor * n⟩

theorem scale_one : scale 1 1 = id := by
  funext p
  rw [scale, Nat.mul_one, Nat.mul_one, id]

theorem scale_comp_scale (m n : ℕ) : scale 1 n ∘ scale m 1 = scale m n := by
  funext p
  simp only [Function.comp, scale, Nat.mul_one]

/-- The grade is multiplied by at most `M` and divided by a divisor of `Q`. -/
structure Fits (M Q : ℕ) (p : Portion) : Prop where
  multiplier_le : p.multiplier ≤ M
  divisor_pos : 0 < p.divisor
  divisor_dvd : p.divisor ∣ Q

/-- The weight is what multiplies the grade over what divides it, in no other terms. -/
structure IsWeight (p : Portion) (w : Fraction) : Prop where
  numerator_eq : w.numerator.toInt = p.multiplier
  denominator_eq : w.denominator.toInt = p.divisor

/-- The change multiplies and divides the weight of any portion that still fits then. -/
def Scales (M Q m n : ℕ) (change : Fraction → Except GradeError Fraction) : Prop :=
  ∀ (w : Fraction) (p : Portion), p.IsWeight w → (p.scale m n).Fits M Q →
    ∃ w', change w = .ok w' ∧ (p.scale m n).IsWeight w'

end Portion

/-- The shares that portions are. -/
def Shares.ofPortions (ps : List Portion) : Shares :=
  ps.map Portion.share

/-- At most `L` portions, none of them multiplied by more than `M` and all divided by divisors of
`Q`, stay far from the largest integer. -/
structure Limits (L M Q : ℕ) : Prop where
  divisor_pos : 0 < Q
  divisor_lt : Q < 2 ^ 31
  multiplier_lt : M < 2 ^ 31
  product_lt : L * M * Q < 2 ^ 31

variable {L M Q : ℕ} {ps qs : List Portion}

/-- The portions are few, and each of them fits. -/
structure Modest (L M Q : ℕ) (ps : List Portion) : Prop where
  length_le : ps.length ≤ L
  fits : ∀ p ∈ ps, p.Fits M Q

theorem Modest.append (h : Modest L M Q (ps ++ qs)) : Modest L M Q ps ∧ Modest L M Q qs := by
  have hlength := h.length_le
  rw [List.length_append] at hlength
  obtain ⟨hps, hqs⟩ := List.forall_mem_append.1 h.fits
  exact ⟨⟨by omega, hps⟩, by omega, hqs⟩

/-- Portions that fit when they are scaled fit before. -/
theorem Modest.of_scale {m n : ℕ} (hm : 0 < m) (h : Modest L M Q (ps.map (Portion.scale m n))) :
    Modest L M Q ps := by
  refine ⟨by simpa using h.length_le, fun p hp => ?_⟩
  obtain ⟨hmul, hdiv, hdvd⟩ := h.fits _ (List.mem_map_of_mem hp)
  exact ⟨(Nat.le_mul_of_pos_right _ hm).trans hmul, Nat.pos_of_mul_pos_right hdiv,
    (Nat.dvd_mul_right _ _).trans hdvd⟩

theorem total_ofPortions_nonneg (ps : List Portion) : 0 ≤ (Shares.ofPortions ps).total := by
  refine List.sum_nonneg ?_
  simp only [Shares.ofPortions, List.map_map, List.forall_mem_map]
  intro p _
  simp only [Function.comp, Portion.share]
  positivity

theorem total_ofPortions_append (ps qs : List Portion) : (Shares.ofPortions (ps ++ qs)).total
    = (Shares.ofPortions ps).total + (Shares.ofPortions qs).total := by
  rw [Shares.ofPortions, List.map_append, Shares.total_append]
  rfl

theorem Modest.total_le (h : Modest L M Q ps) : (Shares.ofPortions ps).total ≤ L * M := by
  have hle : ∀ x ∈ (Shares.ofPortions ps).map Prod.snd, x ≤ (M : ℚ) := by
    simp only [Shares.ofPortions, List.map_map, List.forall_mem_map]
    intro p hp
    obtain ⟨hmul, hdiv, -⟩ := h.fits p hp
    have hmul : (p.multiplier : ℚ) ≤ M := by exact_mod_cast hmul
    have hdiv : (1 : ℚ) ≤ p.divisor := by exact_mod_cast hdiv
    exact (div_le_self p.multiplier.cast_nonneg hdiv).trans hmul
  have hlength : (ps.length : ℚ) ≤ L := by exact_mod_cast h.length_le
  calc (Shares.ofPortions ps).total
      ≤ ((Shares.ofPortions ps).map Prod.snd).length • (M : ℚ) := List.sum_le_card_nsmul _ _ hle
    _ = ps.length * M := by simp [Shares.ofPortions]
    _ ≤ L * M := by gcongr

theorem Modest.total_mul_lt (h : Modest L M Q ps) (hlim : Limits L M Q) :
    (Shares.ofPortions ps).total * Q < 2 ^ 31 := by
  calc (Shares.ofPortions ps).total * Q ≤ L * M * Q := by
        gcongr
        exact h.total_le
    _ < 2 ^ 31 := by exact_mod_cast hlim.product_lt

namespace Term

mutual

/-- The grades beneath the term are the portions, with numerators and denominators as they are, and
each sum has the sum of those beneath it, over a divisor of `Q`. -/
inductive Holds (Q : ℕ) : Term → List Portion → Prop
  | grade {w : Fraction} {p : Portion} : p.IsWeight w → Holds Q (.grade p.name w) [p]
  | sum {w : Fraction} {members : List Term} {ps : List Portion} : members ≠ [] →
    HoldsAll Q members ps → w.DenotesOver Q (Shares.ofPortions ps).total → Holds Q (.sum w members) ps

/-- The grades beneath the terms in order are the portions. -/
inductive HoldsAll (Q : ℕ) : List Term → List Portion → Prop
  | nil : HoldsAll Q [] []
  | cons {t : Term} {ts : List Term} {ps qs : List Portion} : Holds Q t ps → HoldsAll Q ts qs →
    HoldsAll Q (t :: ts) (ps ++ qs)

end

variable {t : Term} {ts : List Term}

theorem Holds.weighting (h : Holds Q t ps) (hps : Modest L M Q ps) :
    t.weighting.DenotesOver Q (Shares.ofPortions ps).total := by
  cases h with
  | @grade w p hw =>
    obtain ⟨hnum, hden⟩ := hw
    obtain ⟨-, hpos, hdvd⟩ := hps.fits p (List.mem_singleton_self p)
    have hdiv : (p.divisor : ℚ) ≠ 0 := Nat.cast_ne_zero.2 hpos.ne'
    refine ⟨⟨?_, ?_⟩, ?_, ?_⟩ <;> simp only [Term.weighting, hden]
    · exact Int.natCast_ne_zero.2 hpos.ne'
    · simp [hnum, Shares.total, Shares.ofPortions, Portion.share, hdiv]
    · exact Int.natCast_pos.2 hpos
    · exact Int.natCast_dvd_natCast.2 hdvd
  | sum _ _ hw => exact hw

/-- Adding on goes through as long as what has been added stays within the limits. -/
theorem HoldsAll.exists_foldlM_add (hlim : Limits L M Q) {acc : Fraction} {p : ℚ}
    (hacc : acc.DenotesOver Q p) (hp : 0 ≤ p) : {ts : List Term} → {qs : List Portion} →
    HoldsAll Q ts qs → Modest L M Q qs → (p + (Shares.ofPortions qs).total) * Q < 2 ^ 31 →
    ∃ w, ts.foldlM (fun acc t => acc.add t.weighting) acc = .ok w ∧
      w.DenotesOver Q (p + (Shares.ofPortions qs).total)
  | [], _, .nil, _, _ => ⟨acc, rfl, by simpa [Shares.ofPortions] using hacc⟩
  | t :: ts, _, @HoldsAll.cons _ _ _ ps qs ht hts, hmodest, hlt => by
    obtain ⟨hps, hqs⟩ := hmodest.append
    have hps0 := total_ofPortions_nonneg ps
    have hqs0 := total_ofPortions_nonneg qs
    rw [total_ofPortions_append, ← add_assoc] at hlt ⊢
    have hlt' : (p + (Shares.ofPortions ps).total) * Q < 2 ^ 31 :=
      lt_of_le_of_lt (mul_le_mul_of_nonneg_right (le_add_of_nonneg_right hqs0) Q.cast_nonneg) hlt
    obtain ⟨s, hs, hsum⟩ := hacc.add (ht.weighting hps) hp hps0 hlim.divisor_pos hlim.divisor_lt hlt'
    obtain ⟨w, hw, hall⟩ := hts.exists_foldlM_add hlim hsum (add_nonneg hp hps0) hqs hlt
    exact ⟨w, by rw [List.foldlM_cons, hs, ok_bind, hw], hall⟩

theorem HoldsAll.exists_total (hlim : Limits L M Q) (h : HoldsAll Q ts ps) (hne : ts ≠ [])
    (hps : Modest L M Q ps) : ∃ w, total ts = .ok w ∧ w.DenotesOver Q (Shares.ofPortions ps).total := by
  cases h with
  | nil => exact absurd rfl hne
  | @cons t ts ps qs ht hts =>
    have hlt := hps.total_mul_lt hlim
    obtain ⟨hps, hqs⟩ := hps.append
    rw [total_ofPortions_append] at hlt ⊢
    exact hts.exists_foldlM_add hlim (ht.weighting hps) (total_ofPortions_nonneg ps) hqs hlt

section Rescale

variable {change : Fraction → Except GradeError Fraction} {m n : ℕ}

mutual

/-- A change that goes through for the portions goes through for a term, and nothing else changes. -/
theorem Holds.exists_rescale (hlim : Limits L M Q) (hchange : Portion.Scales M Q m n change) :
    {t : Term} → {ps : List Portion} → Holds Q t ps → Modest L M Q (ps.map (Portion.scale m n)) →
    ∃ t', t.rescale change = .ok t' ∧ Holds Q t' (ps.map (Portion.scale m n))
  | .grade _ w, _, .grade (p := p) hw, hps => by
    obtain ⟨w', hw', hweight⟩ := hchange w p hw (hps.fits _ (List.mem_singleton_self _))
    exact ⟨.grade p.name w', by rw [Term.rescale, hw']; rfl, .grade hweight⟩
  | .sum _ members, ps, .sum hne hms _, hps => by
    obtain ⟨members', hms', hall, hlength⟩ := hms.exists_rescaleAll hlim hchange hps
    have hne' : members' ≠ [] := by
      rw [← List.length_pos_iff] at hne ⊢
      omega
    obtain ⟨w, hw, hsum⟩ := hall.exists_total hlim hne' hps
    exact ⟨.sum w members', by rw [Term.rescale, hms', ok_bind, hw]; rfl, .sum hne' hall hsum⟩

theorem HoldsAll.exists_rescaleAll (hlim : Limits L M Q) (hchange : Portion.Scales M Q m n change) :
    {ts : List Term} → {ps : List Portion} → HoldsAll Q ts ps →
    Modest L M Q (ps.map (Portion.scale m n)) →
    ∃ ts', rescaleAll change ts = .ok ts' ∧ HoldsAll Q ts' (ps.map (Portion.scale m n)) ∧
      ts'.length = ts.length
  | [], _, .nil, _ => ⟨[], rfl, .nil, rfl⟩
  | t :: ts, _, .cons ht hts, hps => by
    rw [List.map_append] at hps ⊢
    obtain ⟨hps, hqs⟩ := hps.append
    obtain ⟨t', ht', hone⟩ := ht.exists_rescale hlim hchange hps
    obtain ⟨ts', hts', hall, hlength⟩ := hts.exists_rescaleAll hlim hchange hqs
    exact ⟨t' :: ts', by rw [rescaleAll, ht', ok_bind, hts']; rfl, .cons hone hall, by simp [hlength]⟩

end

end Rescale

section Scale

variable {n : Int64} {k : ℕ}

theorem scales_scaleUp (hlim : Limits L M Q) (hn : n.toInt = k) :
    Portion.Scales M Q k 1 (·.scaleUp n) := by
  intro w p hw hfits
  have hprod : w.numerator.toInt * n.toInt = (p.scale k 1).multiplier := by
    rw [hw.numerator_eq, hn, ← Int.natCast_mul]
    rfl
  have hle := hfits.multiplier_le
  have hlt := hlim.multiplier_lt
  obtain ⟨w', hw', hnum, hden⟩ := Fraction.exists_scaleUp (f := w) (n := n) (by omega) (by omega)
  refine ⟨w', hw', hnum.trans hprod, ?_⟩
  rw [hden, hw.denominator_eq, Portion.scale, mul_one]

theorem scales_scaleDown (hlim : Limits L M Q) (hn : n.toInt = k) (hne : n ≠ 0) :
    Portion.Scales M Q 1 k (·.scaleDown n) := by
  intro w p hw hfits
  have hprod : w.denominator.toInt * n.toInt = (p.scale 1 k).divisor := by
    rw [hw.denominator_eq, hn, ← Int.natCast_mul]
    rfl
  have hle := Nat.le_of_dvd hlim.divisor_pos hfits.divisor_dvd
  have hlt := hlim.divisor_lt
  obtain ⟨w', hw', hnum, hden⟩ := Fraction.exists_scaleDown (f := w) hne (by omega) (by omega)
  refine ⟨w', hw', ?_, hden.trans hprod⟩
  rw [hnum, hw.numerator_eq, Portion.scale, mul_one]

theorem Holds.exists_multiply (hlim : Limits L M Q) (hn : n.toInt = k) (hk : 0 < k)
    (h : t.Holds Q ps) (hps : Modest L M Q (ps.map (Portion.scale k 1))) :
    ∃ t', t.multiply n = .ok t' ∧ t'.Holds Q (ps.map (Portion.scale k 1)) := by
  have hne : n ≠ 0 := Fraction.toInt_ne_zero.1 (by omega)
  rw [multiply, if_neg hne]
  exact h.exists_rescale hlim (scales_scaleUp hlim hn) hps

theorem Holds.exists_divide (hlim : Limits L M Q) (hn : n.toInt = k) (hk : 0 < k)
    (h : t.Holds Q ps) (hps : Modest L M Q (ps.map (Portion.scale 1 k))) :
    ∃ t', t.divide n = .ok t' ∧ t'.Holds Q (ps.map (Portion.scale 1 k)) := by
  have hne : n ≠ 0 := Fraction.toInt_ne_zero.1 (by omega)
  rw [divide, if_neg hne]
  exact h.exists_rescale hlim (scales_scaleDown hlim hn hne) hps

end Scale

end Term

end Reckoner
