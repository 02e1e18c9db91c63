import Reckoner.Proofs.Grade.Operations

/-!
# When reducing fails

Reducing a fraction refuses those whose lowest terms do not fit, and two more: it makes the greatest
common divisor of the terms fit first, and that of zero and the smallest integer, or of the smallest
integer and itself, does not (`Fraction.reduces_make_and_reduced`).
-/

namespace Reckoner

namespace Fraction

variable {f : Fraction}

/-- The result is the number of the fraction in lowest terms, unless these do not fit or the smallest
integer divides the terms of the fraction. -/
structure Reduces (f : Fraction) (r : Except GradeError Fraction) : Prop where
  lowest : Representable f.value → ¬ f.Extreme → ∃ g, r = .ok g ∧ g.Lowest ∧ g.value = f.value
  outOfRange : ¬ Representable f.value ∨ f.Extreme → r = .error .weightingOutOfRange
  refused : Representable f.value ∧ (∀ g, r ≠ .ok g) ↔ f.Extreme

theorem reduces_reduced (h : f.denominator.toInt ≠ 0) : Reduces f f.reduced := by
  have hok : (∃ g, f.reduced = .ok g) ↔ Representable f.value ∧ ¬ f.Extreme := by
    constructor
    · rintro ⟨g, hg⟩
      obtain ⟨hfits, hlow, hval⟩ := (reduced_eq_ok_iff h).1 hg
      exact ⟨hval ▸ hlow.representable, (fits_gcd_iff h).1 hfits⟩
    · rintro ⟨⟨hnum, hden⟩, hne⟩
      obtain ⟨n, hn⟩ := narrow_of_fits hnum
      obtain ⟨d, hd⟩ := narrow_of_fits hden
      obtain ⟨k, hk⟩ := narrow_of_fits ((fits_gcd_iff h).2 hne)
      exact ⟨⟨n, d⟩, by rw [reduced_eq h, hk, ok_bind, hn, ok_bind, hd, ok_bind]⟩
  refine ⟨fun hrep hne => ?_, fun hrefused => ?_, ?_⟩
  · obtain ⟨g, hg⟩ := hok.2 ⟨hrep, hne⟩
    exact ⟨g, hg, ((reduced_eq_ok_iff h).1 hg).2⟩
  · have hnone : ¬ ∃ g, f.reduced = .ok g := by
      rw [hok]
      tauto
    rcases checked_reduced h with ⟨-, hsome⟩ | ⟨-, he⟩
    · exact absurd hsome hnone
    · exact he
  · rw [← not_exists, hok]
    constructor
    · rintro ⟨hrep, hne⟩
      by_contra hx
      exact hne ⟨hrep, hx⟩
    · intro hx
      exact ⟨hx.representable, fun hne => hne.2 hx⟩

/-- Making and reducing fractions give lowest terms whenever these fit, but for zero and the smallest
integer over the smallest integer. -/
theorem reduces_make_and_reduced {n d : Int64} (hd : d ≠ 0) (hf : f.Reachable) :
    Reduces ⟨n, d⟩ (make n d) ∧ Reduces f f.reduced := by
  rw [make, if_neg hd]
  exact ⟨reduces_reduced (toInt_ne_zero.2 hd), reduces_reduced hf.denominator_ne⟩

/-- Sixths with the sign below, and a sign that does not fit above. -/
theorem reduces_make_and_reduced_sixths :
    (∃ g, make 2 (-6) = .ok g ∧ g.Lowest ∧ g.value = value ⟨2, -6⟩) ∧
    Reachable ⟨1, Int64.minValue⟩ ∧ ¬ Representable (value ⟨1, Int64.minValue⟩) ∧
    reduced ⟨1, Int64.minValue⟩ = .error .weightingOutOfRange := by
  have hreachable : Reachable ⟨1, Int64.minValue⟩ :=
    .apply (.scaleDown Int64.minValue) .one (by simp [Operation.operand?]) (by decide)
  have hlarge : ¬ Representable (value ⟨1, Int64.minValue⟩) := by decide +kernel
  have hne : (-6 : Int64) ≠ 0 := by decide
  obtain ⟨hsixths, hsmallest⟩ := reduces_make_and_reduced hne hreachable
  exact ⟨hsixths.lowest (by decide +kernel) (by rintro ⟨h, -⟩; cases h), hreachable, hlarge,
    hsmallest.outOfRange (.inl hlarge)⟩

/-- Zero and one have lowest terms that fit, and are refused over the smallest integer. -/
theorem make_minValue :
    Representable (((0 : Int64).toInt : ℚ) / Int64.minValue.toInt) ∧
    make 0 Int64.minValue = .error .weightingOutOfRange ∧
    Representable ((Int64.minValue.toInt : ℚ) / Int64.minValue.toInt) ∧
    make Int64.minValue Int64.minValue = .error .weightingOutOfRange ∧
    ∃ f : Fraction, f.Reachable ∧ Representable f.value ∧ f.reduced = .error .weightingOutOfRange := by
  have hzero : Extreme ⟨0, Int64.minValue⟩ := ⟨rfl, .inl rfl⟩
  have hone : Extreme ⟨Int64.minValue, Int64.minValue⟩ := ⟨rfl, .inr rfl⟩
  have hreachable : Reachable ⟨Int64.minValue, Int64.minValue⟩ :=
    .apply (.expand Int64.minValue) .one (by simp [Operation.operand?]) (by decide)
  exact ⟨hzero.representable, by decide +kernel, hone.representable, by decide +kernel, _, hreachable,
    hone.representable, by decide +kernel⟩

end Fraction

end Reckoner
