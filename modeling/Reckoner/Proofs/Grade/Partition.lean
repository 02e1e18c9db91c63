import Mathlib.Algebra.BigOperators.Group.List.Basic
import Reckoner.Proofs.Grade.Shares

/-!
# Weightings in proportion to shares

A calculator is made of terms that each are a grade (`Term.toCalculator_eq_ok`). Their shares are
brought to one denominator, the product of those that occur (`Fraction.Denotes.align`), so the
weightings are the shares of the formula in order, each multiplied by that denominator, and the shares
make up the whole (`Term.Carries.toCalculator`).
-/

namespace Reckoner

theorem nodup_eraseDups {α : Type} [BEq α] [LawfulBEq α] : (l : List α) → l.eraseDups.Nodup
  | [] => by simp
  | a :: l => by
    rw [List.eraseDups_cons, List.nodup_cons]
    exact ⟨by simp, nodup_eraseDups _⟩
  termination_by l => l.length
  decreasing_by exact Nat.lt_succ_of_le (List.length_filter_le ..)

variable {dens : List Int64} {w w' : Fraction} {q : ℚ}

theorem Fraction.Denotes.foldlM_expand : {ds : List Int64} → {w : Fraction} → (∀ d ∈ ds, d ≠ 0) →
    w.Denotes q → ds.foldlM (fun acc d => acc.expand d) w = .ok w' →
    w'.Denotes q ∧ w'.denominator.toInt = w.denominator.toInt * (ds.map Int64.toInt).prod
  | [], w, _, hw, h => by
    obtain rfl := Except.ok.inj h
    exact ⟨hw, by simp⟩
  | d :: ds, w, hne, hw, h => by
    rw [List.foldlM_cons] at h
    obtain ⟨v, hv, h⟩ := bind_eq_ok.1 h
    obtain ⟨hd, hds⟩ := List.forall_mem_cons.1 hne
    obtain ⟨hv, hden⟩ := hw.expand hd hv
    obtain ⟨hw', hden'⟩ := foldlM_expand hds hv h
    exact ⟨hw', by rw [hden', hden, List.map_cons, List.prod_cons, mul_assoc]⟩

theorem Term.align_eq (hdens : dens.Nodup) (w : Fraction) :
    align dens w = (dens.erase w.denominator).foldlM (fun acc d => acc.expand d) w := by
  have hfilter : dens.filter (· ≠ w.denominator) = dens.erase w.denominator := by
    simp [hdens.erase_eq_filter, bne, beq_eq_decide]
  rw [align, hfilter]

/-- A share is brought to the product of all denominators, its own among them. -/
theorem Fraction.Denotes.align (hw : w.Denotes q) (hdens : dens.Nodup) (hne : ∀ d ∈ dens, d ≠ 0)
    (hmem : w.denominator ∈ dens) (h : Term.align dens w = .ok w') :
    (w'.numerator.toInt : ℚ) = q * (dens.map Int64.toInt).prod := by
  rw [Term.align_eq hdens] at h
  obtain ⟨hw', hden⟩ := hw.foldlM_expand (fun d hd => hne d (List.mem_of_mem_erase hd)) h
  rw [hw'.numerator_eq, hden, List.prod_map_erase _ hmem]

/-- The names of the grades with their weightings. -/
def Calculator.weightings {ν : Type} (c : Calculator ν) : Shares :=
  c.grades.map fun g => (g.name, (g.weighting.toInt : ℚ))

namespace Term

variable {ν : Type} {t : Term} {ls : Shares}

theorem CarriesAll.weighting {ts : List Term} : {ls : Shares} → CarriesAll ts ls → ∀ t ∈ ts,
    ∃ q, t.weighting.Denotes q
  | _, .nil, _, ht => by cases ht
  | _, .cons hu hus, t, ht => by
    rcases List.mem_cons.1 ht with rfl | ht
    · exact ⟨_, hu.weighting⟩
    · exact hus.weighting t ht

/-- The denominators of the terms that become grades. -/
def denominators (t : Term) : List Int64 :=
  (t.gradeTerms.map fun u => u.weighting.denominator).eraseDups

/-- The term becomes the grade when its weight is brought to the denominators. -/
def Aligns (dens : List Int64) (t : Term) (g : Grade ν) : Prop :=
  ∃ name w w', t = .grade name w ∧ align dens w = .ok w' ∧ g = .unset name w'.numerator

/-- A calculator is made if the formula makes up the whole and each term that becomes a grade is one
already. -/
theorem toCalculator_eq_ok {c : Calculator ν} : t.toCalculator = .ok c ↔
    (∃ whole, t.weighting.reduced = .ok whole ∧ whole.isOne = true) ∧
      List.Forall₂ (Aligns t.denominators) t.gradeTerms c.grades := by
  constructor
  · intro h
    rw [toCalculator] at h
    obtain ⟨whole, hwhole, h⟩ := bind_eq_ok.1 h
    have hone : whole.isOne = true := by
      by_contra hne
      rw [if_neg hne] at h
      cases h
    rw [if_pos hone] at h
    obtain ⟨gs, hgs, h⟩ := bind_eq_ok.1 h
    obtain rfl := Except.ok.inj h
    refine ⟨⟨whole, hwhole, hone⟩, (mapM_eq_ok.1 hgs).imp fun u g hu => ?_⟩
    obtain ⟨w', hw', hu⟩ := bind_eq_ok.1 hu
    cases u with
    | grade name w => exact ⟨name, w, w', rfl, hw', (Except.ok.inj hu).symm⟩
    | sum w members => cases hu
  · rintro ⟨⟨whole, hwhole, hone⟩, h⟩
    rw [toCalculator, hwhole, ok_bind]
    simp only [if_pos hone]
    refine bind_eq_ok.2 ⟨c.grades, mapM_eq_ok.2 (h.imp fun u g hu => ?_), rfl⟩
    obtain ⟨name, w, w', rfl, hw', rfl⟩ := hu
    exact bind_eq_ok.2 ⟨w', hw', rfl⟩

/-- Terms that are each a grade and are aligned give the shares, multiplied. -/
theorem CarriesAll.weightings_eq (hdens : dens.Nodup) (hne : ∀ d ∈ dens, d ≠ 0) {ts : List Term}
    {ls : Shares} {gs : List (Grade ν)} (hc : CarriesAll ts ls)
    (hmem : ∀ t ∈ ts, t.weighting.denominator ∈ dens) (h : List.Forall₂ (Aligns dens) ts gs) :
    (Calculator.mk gs).weightings = ls.scale (dens.map Int64.toInt).prod := by
  induction h generalizing ls with
  | nil =>
    cases hc
    rfl
  | @cons t g ts gs hg _ ih =>
    cases hc with
    | cons ht hts =>
      obtain ⟨hmemt, hmemts⟩ := List.forall_mem_cons.1 hmem
      obtain ⟨name, w, w', rfl, hw', rfl⟩ := hg
      have ih := ih hts hmemts
      cases ht with
      | grade hw =>
        have hnum := hw.align hdens hne hmemt hw'
        rw [Shares.scale_append, ← ih]
        simp only [Calculator.weightings, Shares.scale, List.map_cons, List.map_nil, Grade.unset,
          hnum, List.singleton_append]

theorem denominator_mem_denominators {u : Term} (hu : u ∈ t.gradeTerms) :
    u.weighting.denominator ∈ t.denominators := by
  rw [denominators, List.mem_eraseDups]
  exact List.mem_map_of_mem hu

/-- The shares of a formula that becomes a calculator make up the whole, and its weightings are the
shares brought to one denominator. -/
theorem Carries.toCalculator {c : Calculator ν} (h : t.Carries ls) (hc : t.toCalculator = .ok c) :
    ls.total = 1 ∧ ∃ D : ℤ, D ≠ 0 ∧ c.weightings = ls.scale D := by
  obtain ⟨⟨whole, hwhole, hone⟩, hgs⟩ := toCalculator_eq_ok.1 hc
  have htotal : ls.total = 1 := (h.weighting.reduced hwhole).eq_one_of_isOne hone
  have hterms := h.gradeTerms
  have hne : ∀ d ∈ t.denominators, d ≠ 0 := by
    intro d hd
    rw [denominators, List.mem_eraseDups, List.mem_map] at hd
    obtain ⟨u, hu, rfl⟩ := hd
    obtain ⟨q, hq⟩ := hterms.weighting u hu
    exact Fraction.toInt_ne_zero.1 hq.denominator_ne
  refine ⟨htotal, (t.denominators.map Int64.toInt).prod, ?_,
    hterms.weightings_eq (nodup_eraseDups _) hne (fun u => denominator_mem_denominators) hgs⟩
  rw [Ne, List.prod_eq_zero_iff, List.mem_map]
  rintro ⟨d, hd, h0⟩
  exact Fraction.toInt_ne_zero.2 (hne d hd) h0

end Term

end Reckoner
