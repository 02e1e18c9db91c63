import Mathlib.Algebra.BigOperators.Group.List.Lemmas
import Mathlib.Algebra.BigOperators.Ring.Finset
import Mathlib.Algebra.Order.BigOperators.GroupWithZero.List
import Reckoner.Proofs.Grade.Portion
import Reckoner.Proofs.Grade.Shape

/-!
# Terms that make a calculator

A term that holds portions of the whole, with none of them near the largest integer even over all
denominators at once, makes a calculator if its shape is shallow (`Term.Holds.exists_toCalculator`).
-/

namespace Reckoner

section Align

variable {dens : List Int64} {w : Fraction}

theorem one_le_prod (h : ∀ d ∈ dens, 0 < d.toInt) : 1 ≤ (dens.map Int64.toInt).prod :=
  Int.add_one_le_of_lt (List.prod_pos (List.forall_mem_map.2 h))

theorem Fraction.exists_foldlM_expand : {dens : List Int64} → {w : Fraction} →
    (∀ d ∈ dens, 0 < d.toInt) → 0 ≤ w.numerator.toInt → 0 < w.denominator.toInt →
    w.numerator.toInt * (dens.map Int64.toInt).prod < 2 ^ 63 →
    w.denominator.toInt * (dens.map Int64.toInt).prod < 2 ^ 63 →
    ∃ w', dens.foldlM (fun acc d => acc.expand d) w = .ok w'
  | [], w, _, _, _, _, _ => ⟨w, rfl⟩
  | d :: dens, w, hpos, hnum, hden, hnumlt, hdenlt => by
    obtain ⟨hd, hdens⟩ := List.forall_mem_cons.1 hpos
    have hrest := one_le_prod hdens
    have hne : d ≠ 0 := toInt_ne_zero.1 hd.ne'
    rw [List.map_cons, List.prod_cons, ← mul_assoc] at hnumlt hdenlt
    have hnum' := mul_nonneg hnum hd.le
    have hden' := mul_pos hden hd
    have hnumle := le_mul_of_one_le_right hnum' hrest
    have hdenle := le_mul_of_one_le_right hden'.le hrest
    obtain ⟨v, hv, hvnum, hvden⟩ :=
      exists_expand (f := w) hne ⟨by omega, by omega⟩ ⟨by omega, by omega⟩
    rw [← hvnum] at hnum' hnumlt
    rw [← hvden] at hden' hdenlt
    obtain ⟨w', hw'⟩ := exists_foldlM_expand hdens hnum' hden' hnumlt hdenlt
    exact ⟨w', by rw [List.foldlM_cons, hv, ok_bind, hw']⟩

/-- A weight fits over all denominators at once if their product does and its numerator times it. -/
theorem Fraction.exists_align (hpos : ∀ d ∈ dens, 0 < d.toInt) (hdens : dens.Nodup)
    (hmem : w.denominator ∈ dens) (hnum : 0 ≤ w.numerator.toInt)
    (hnumlt : w.numerator.toInt * (dens.map Int64.toInt).prod < 2 ^ 63)
    (hlt : (dens.map Int64.toInt).prod < 2 ^ 63) : ∃ w', Term.align dens w = .ok w' := by
  have hothers : ∀ d ∈ dens.erase w.denominator, 0 < d.toInt :=
    fun d hd => hpos d (List.mem_of_mem_erase hd)
  have hprod := List.prod_map_erase Int64.toInt hmem
  have hle : ((dens.erase w.denominator).map Int64.toInt).prod ≤ (dens.map Int64.toInt).prod := by
    rw [← hprod]
    exact le_mul_of_one_le_left (by linarith [one_le_prod hothers]) (hpos _ hmem)
  -- The weight has its own denominator, so the others make up the product.
  rw [Term.align_eq hdens]
  refine exists_foldlM_expand hothers hnum (hpos _ hmem) ?_ ?_
  · exact lt_of_le_of_lt (mul_le_mul_of_nonneg_left hle hnum) hnumlt
  · rwa [hprod]

end Align

theorem exists_forall₂ {α β : Type} {R : α → β → Prop} {as : List α} (h : ∀ a ∈ as, ∃ b, R a b) :
    ∃ bs, List.Forall₂ R as bs := by
  induction as with
  | nil => exact ⟨[], .nil⟩
  | cons a as ih =>
    obtain ⟨⟨b, hb⟩, has⟩ := List.forall_mem_cons.1 h
    obtain ⟨bs, hbs⟩ := ih has
    exact ⟨b :: bs, .cons hb hbs⟩

namespace Term

variable {ν : Type} {L M Q : ℕ} {t u : Term} {ts : List Term} {ps : List Portion}

theorem HoldsAll.exists_of_mem (h : HoldsAll Q ts ps) (hu : u ∈ ts) :
    ∃ qs, u.Holds Q qs ∧ qs ⊆ ps := by
  induction ts generalizing ps with
  | nil => cases hu
  | cons t ts ih =>
    cases h with
    | @cons _ _ ps qs ht hts =>
      rcases List.mem_cons.1 hu with rfl | hu
      · exact ⟨ps, ht, List.subset_append_left ..⟩
      · obtain ⟨rs, hrs, hsub⟩ := ih hts hu
        exact ⟨rs, hrs, List.Subset.trans hsub (List.subset_append_right ..)⟩

mutual

theorem Holds.exists_of_mem_leaves : (t : Term) → {ps : List Portion} → t.Holds Q ps →
    u ∈ t.leaves → ∃ qs, u.Holds Q qs ∧ qs ⊆ ps
  | .grade name w, ps, h, hu => by
    rw [leaves, List.mem_singleton] at hu
    exact ⟨ps, hu ▸ h, List.Subset.refl _⟩
  | .sum w [], _, .sum hne _ _, _ => absurd rfl hne
  | .sum w [t], _, .sum _ (@HoldsAll.cons _ _ _ ps _ ht .nil) _, hu => by
    rw [leaves] at hu
    rw [List.append_nil]
    exact Holds.exists_of_mem_leaves t ht hu
  | .sum w (t :: v :: ts), _, .sum _ h _, hu => by
    rw [leaves] at hu
    · exact h.exists_of_mem hu
    · simp
    · simp

theorem HoldsAll.exists_of_mem_leavesAll : (ts : List Term) → {ps : List Portion} →
    HoldsAll Q ts ps → u ∈ leavesAll ts → ∃ qs, u.Holds Q qs ∧ qs ⊆ ps
  | [], _, _, hu => by
    rw [leavesAll] at hu
    cases hu
  | t :: ts, _, @HoldsAll.cons _ _ _ ps qs ht hts, hu => by
    rw [leavesAll, List.mem_append] at hu
    rcases hu with hu | hu
    · obtain ⟨rs, hrs, hsub⟩ := Holds.exists_of_mem_leaves t ht hu
      exact ⟨rs, hrs, List.Subset.trans hsub (List.subset_append_left ..)⟩
    · obtain ⟨rs, hrs, hsub⟩ := HoldsAll.exists_of_mem_leavesAll ts hts hu
      exact ⟨rs, hrs, List.Subset.trans hsub (List.subset_append_right ..)⟩

end

theorem Holds.exists_of_mem_gradeTerms (h : t.Holds Q ps) (hu : u ∈ t.gradeTerms) :
    ∃ qs, u.Holds Q qs ∧ qs ⊆ ps := by
  cases h with
  | grade hw =>
    rw [gradeTerms, List.mem_singleton] at hu
    exact ⟨_, hu ▸ .grade hw, List.Subset.refl _⟩
  | sum _ hms _ => exact hms.exists_of_mem_leavesAll _ hu

/-- In a shallow formula the terms that become grades each are one of the portions. -/
theorem Holds.exists_portion (h : t.Holds Q ps) (hshape : t.shape.shallow = true)
    (hu : u ∈ t.gradeTerms) : ∃ name w, u = .grade name w ∧
      ∃ p ∈ ps, p.IsWeight w := by
  rw [← all_isGrade_gradeTerms, List.all_eq_true] at hshape
  have hgrade := hshape u hu
  obtain ⟨qs, hholds, hsub⟩ := h.exists_of_mem_gradeTerms hu
  cases hholds with
  | @grade w p hw => exact ⟨p.name, w, rfl, p, hsub (List.mem_singleton_self p), hw⟩
  | sum => cases hgrade

/-- The denominators that are brought together are among those of the portions. -/
theorem Holds.prod_denominators_dvd (h : t.Holds Q ps) (hshape : t.shape.shallow = true) :
    (t.denominators.map Int64.toInt).prod ∣ ((ps.map Portion.divisor).dedup.prod : ℕ) := by
  have hdiv : ∀ d ∈ t.denominators, ∃ p ∈ ps, d.toInt = p.divisor := by
    intro d hd
    rw [denominators, List.mem_eraseDups, List.mem_map] at hd
    obtain ⟨u, hu, rfl⟩ := hd
    obtain ⟨name, w, rfl, p, hp, hw⟩ := h.exists_portion hshape hu
    exact ⟨p, hp, hw.denominator_eq⟩
  have hnodup : (t.denominators.map Int64.toInt).Nodup :=
    (nodup_eraseDups _).map fun _ _ => Int64.toInt_inj.1
  have hsub : t.denominators.map Int64.toInt ⊆ (ps.map Portion.divisor).dedup.map Nat.cast := by
    intro k hk
    obtain ⟨d, hd, rfl⟩ := List.mem_map.1 hk
    obtain ⟨p, hp, hden⟩ := hdiv d hd
    rw [hden]
    exact List.mem_map_of_mem (List.mem_dedup.2 (List.mem_map_of_mem hp))
  obtain ⟨ks, hperm, hks⟩ := hnodup.subperm hsub
  rw [Nat.cast_list_prod, ← hperm.prod_eq]
  exact hks.prod_dvd_prod

/-- Portions that make up the whole make a calculator if the shape is shallow and no numerator over
all denominators at once comes near the largest integer. -/
theorem Holds.exists_toCalculator (hps : Modest L M Q ps) (h : t.Holds Q ps)
    (htotal : (Shares.ofPortions ps).total = 1) (hshape : t.shape.shallow = true)
    (hlt : M * (ps.map Portion.divisor).dedup.prod < 2 ^ 31)
    (hdens : (ps.map Portion.divisor).dedup.prod < 2 ^ 31) :
    ∃ c : Calculator ν, t.toCalculator = .ok c := by
  have hwhole : ∃ whole, t.weighting.reduced = .ok whole ∧ whole.isOne = true := by
    have hw := h.weighting hps
    rw [htotal] at hw
    obtain ⟨g, hg, hgw⟩ := Fraction.exists_reduced hw.toDenotes (hw.numerator_nonneg zero_le_one)
      hw.denominator_pos (z := Q) (one_mul _)
    exact ⟨g, hg, hgw.isOne⟩
  have hpos : ∀ d ∈ t.denominators, 0 < d.toInt := by
    intro d hd
    rw [denominators, List.mem_eraseDups, List.mem_map] at hd
    obtain ⟨u, hu, rfl⟩ := hd
    obtain ⟨name, w, rfl, p, hp, hw⟩ := h.exists_portion hshape hu
    exact hw.denominator_eq ▸ Int.natCast_pos.2 (hps.fits p hp).divisor_pos
  have hprod : (t.denominators.map Int64.toInt).prod ≤ (ps.map Portion.divisor).dedup.prod := by
    refine Int.le_of_dvd (Int.natCast_pos.2 ?_) (h.prod_denominators_dvd hshape)
    refine List.prod_pos fun k hk => ?_
    obtain ⟨p, hp, rfl⟩ := List.mem_map.1 (List.mem_dedup.1 hk)
    exact (hps.fits p hp).divisor_pos
  have hgrades : ∀ u ∈ t.gradeTerms, ∃ g : Grade ν, Aligns t.denominators u g := by
    intro u hu
    obtain ⟨name, w, rfl, p, hp, hnum, -⟩ := h.exists_portion hshape hu
    have hmul : (p.multiplier : ℤ) ≤ M := Int.ofNat_le.2 (hps.fits p hp).multiplier_le
    have hnum0 : 0 ≤ w.numerator.toInt := hnum ▸ Int.natCast_nonneg _
    have hnumlt : w.numerator.toInt * (t.denominators.map Int64.toInt).prod < 2 ^ 63 := by
      have hone := one_le_prod hpos
      calc w.numerator.toInt * (t.denominators.map Int64.toInt).prod
          ≤ M * (ps.map Portion.divisor).dedup.prod := by
            rw [hnum]
            gcongr
        _ < 2 ^ 63 := by
            have hcast : ((M * (ps.map Portion.divisor).dedup.prod : ℕ) : ℤ) < 2 ^ 63 := by omega
            rwa [Int.natCast_mul] at hcast
    obtain ⟨w', hw'⟩ := Fraction.exists_align hpos (nodup_eraseDups _)
      (denominator_mem_denominators hu) hnum0 hnumlt (by omega)
    exact ⟨.unset name w'.numerator, name, w, w', rfl, hw', rfl⟩
  obtain ⟨gs, hgs⟩ := exists_forall₂ hgrades
  exact ⟨⟨gs⟩, toCalculator_eq_ok.2 ⟨hwhole, hgs⟩⟩

end Term

end Reckoner
