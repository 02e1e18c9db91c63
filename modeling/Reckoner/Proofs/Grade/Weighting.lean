import Mathlib.Algebra.BigOperators.Ring.Finset
import Reckoner.Proofs.Grade.Partition
import Reckoner.Proofs.Grade.Reading
import Reckoner.Proofs.Grade.Recognition

/-!
# Formulas partition the average

A formula that is accepted gives each name in it a weighting, and the weightings are in proportion
to the coefficients that the whole numbers around the names make
(`Calculator.partitions_of_read`). No weighting is zero, so every grade can be solved for.
-/

namespace Reckoner

open Text Cursor Grammar

variable {ν : Type}

namespace Calculator

theorem weightings_map_fst (c : Calculator ν) :
    c.weightings.map Prod.fst = c.grades.map Grade.name := by
  simp [weightings]

theorem total_weightings (c : Calculator ν) :
    c.weightings.total = (c.grades.map fun g => g.weighting.toInt).sum := by
  rw [Shares.total, weightings, List.map_map, Int.cast_list_sum, List.map_map]
  rfl

/-- A grade that carries weight can be solved for, and so can others under its name. -/
theorem exists_required [Weighable ν] {c : Calculator ν} (h : ∀ g ∈ c.grades, g.weighting ≠ 0)
    {g : Grade ν} (hg : g ∈ c.grades) (target : ν) : ∃ x, c.required g.name target = .ok x := by
  have hsome : (c.grade? g.name).isSome = true := by
    rw [grade?, List.find?_isSome]
    exact ⟨g, hg, by simp⟩
  obtain ⟨f, hf⟩ := Option.isSome_iff_exists.1 hsome
  simp only [required, hf, if_neg (h f (List.mem_of_find?_eq_some hf))]
  exact ⟨_, rfl⟩

/-- The weightings of the calculator divide the average exactly as the formula does, where the numbers
around a term count for the whole numbers that they come to, zero passed over. -/
structure Partitions [Weighable ν] (c : Calculator ν) (d : Term.Derivation) : Prop where
  names : c.grades.map Grade.name = d.names
  shares : ∃ value : List Numeral → Int64,
    (∀ ns ∈ d.factors, Term.wholeFactor ns = .ok (value ns)) ∧
    ∃ D : ℤ, D ≠ 0 ∧ (c.grades.map fun g => g.weighting.toInt).sum = D ∧
      (c.grades.map fun g => (g.weighting.toInt : ℚ) / D)
        = (d.coefficients fun ns => Term.effect (value ns)).map Prod.snd
  weighting_ne : ∀ g ∈ c.grades, g.weighting ≠ 0
  solvable : ∀ g ∈ c.grades, ∀ target, ∃ x, c.required g.name target = .ok x

/-- The weightings are the coefficients of the formula, brought to one denominator. -/
theorem weightings_of_build {d : Term.Derivation} {t : Term} {c : Calculator ν}
    (ht : d.build = .ok t) (hc : t.toCalculator = .ok c) :
    (d.coefficients fun ns => Term.effect (Term.whole ns)).total = 1 ∧ ∃ D : ℤ, D ≠ 0 ∧
      c.weightings = (d.coefficients fun ns => Term.effect (Term.whole ns)).scale D :=
  (d.carries_build ht).2.toCalculator hc

theorem partitions_of_build [Weighable ν] {d : Term.Derivation} {t : Term} {c : Calculator ν}
    (ht : d.build = .ok t) (hc : t.toCalculator = .ok c) : c.Partitions d := by
  obtain ⟨htotal, D, hD, hw⟩ := weightings_of_build ht hc
  have hD' : (D : ℚ) ≠ 0 := Int.cast_ne_zero.2 hD
  have hne : ∀ g ∈ c.grades, g.weighting ≠ 0 := by
    intro g hg h0
    have hmem : (g.name, (g.weighting.toInt : ℚ)) ∈ c.weightings := List.mem_map_of_mem hg
    rw [hw, Shares.scale, List.mem_map] at hmem
    obtain ⟨l, hl, heq⟩ := hmem
    have hl := d.coefficients_ne_zero (fun ns => Term.effect_ne_zero (Term.whole ns)) l hl
    refine mul_ne_zero hl hD' ?_
    rw [(Prod.mk.inj heq).2, h0]
    rfl
  refine ⟨?_, ⟨Term.whole, (d.carries_build ht).1, D, hD, ?_, ?_⟩, hne, fun g hg => exists_required hne hg⟩
  · rw [← weightings_map_fst, hw, Shares.names_scale, d.names_coefficients]
  · have hsum := total_weightings c
    rw [hw, Shares.total_scale, htotal, one_mul] at hsum
    exact_mod_cast hsum.symm
  · have hmap : (c.grades.map fun g => (g.weighting.toInt : ℚ) / D)
        = c.weightings.map fun l : String × ℚ => l.2 / D := by
      simp [weightings]
    rw [hmap, hw, Shares.scale, List.map_map]
    exact List.map_congr_left fun l _ => mul_div_cancel_right₀ l.2 hD'

/-- Whatever formula is accepted in front of a text, its weightings divide the average exactly as the
formula does. -/
theorem partitions_of_read [Weighable ν] {cs : List Char} {c : Calculator ν} {rest : Cursor}
    (h : Calculator.read (ofList cs) = (.ok c, rest)) :
    ∃ d : Term.Derivation, Passed d.lexemes cs rest.remaining ∧ c.Partitions d := by
  obtain ⟨d, t, post, hp, hpost, hbuild, hc⟩ := exists_derivation_of_read h
  exact ⟨d, by rwa [hpost.remaining], partitions_of_build hbuild hc⟩

/-- A factor of zero counts for nothing, wherever it stands. -/
theorem partitions_of_read_nested : ∃ c : Calculator Float, ∃ rest,
    Calculator.read (ofList "((A + 2*B)/3 + 0*C)/2 + D".toList) = (.ok c, rest) ∧
    (c.grades.map fun g => (g.name, g.weighting)) = [("A", 2), ("B", 4), ("C", 6)] ∧
    ∃ d : Term.Derivation,
      Passed d.lexemes "((A + 2*B)/3 + 0*C)/2 + D".toList rest.remaining ∧ c.Partitions d := by
  let number (x : Char) (h : isNumeral [x] = true) : Numeral := ⟨[x], h⟩
  let name (x : Char) (h : isWord [x] = true) : Word := ⟨[x], h⟩
  let first : Term.Derivation := .grade ⟨none, []⟩ (name 'A' rfl) none
  let second : Term.Derivation :=
    .grade ⟨some (number '2' rfl), [none]⟩ (name 'B' rfl) none
  let third : Term.Derivation :=
    .grade ⟨some (number '0' rfl), [none]⟩ (name 'C' rfl) none
  let inner : Term.Derivation :=
    .group ⟨none, []⟩ (.cons first (.last second)) none (some (some (number '3' rfl)))
  let d : Term.Derivation :=
    .group ⟨none, []⟩ (.cons inner (.last third)) none (some (some (number '2' rfl)))
  have hp : Passed d.lexemes "((A + 2*B)/3 + 0*C)/2 + D".toList " + D".toList :=
    ⟨"((A + 2*B)/3 + 0*C)/2".toList, rfl, spaced_of_spells (by decide)⟩
  obtain ⟨rest, hread, -⟩ := read_of_passed (ν := Float) hp (by decide) (by decide)
  have hbuild : (d.build >>= Term.toCalculator (ν := Float)).map
      (fun c => c.grades.map fun g => (g.name, g.weighting)) =
      .ok [("A", 2), ("B", 4), ("C", 6)] := by decide +kernel
  obtain ⟨c, hc, hgrades⟩ := map_eq_ok.1 hbuild
  rw [hc] at hread
  exact ⟨c, rest, hread, hgrades, partitions_of_read hread⟩

end Calculator

end Reckoner
