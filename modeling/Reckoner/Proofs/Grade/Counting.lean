import Mathlib.Algebra.Order.BigOperators.GroupWithZero.List
import Reckoner.Proofs.Decimal.Integer
import Reckoner.Proofs.Grade.Meaning
import Reckoner.Proofs.Grade.Portion

/-!
# Formulas with counts

Where every number in a formula is written in digits and is not zero, numbers that stand together come
to their product (`Term.Counted.exists_wholeFactor`), and each grade is multiplied by a product of
some of the numbers and divided by a product of others (`Term.Derivation.portions`). The term of the
formula is built as long as no grade comes near the largest integer, and holds just these portions
(`Term.Derivation.exists_build`).
-/

namespace Reckoner

/-- The number that the digits spell. -/
def Numeral.count (n : Numeral) : ℕ :=
  Decimal.natOfDigits n.chars

/-- Digits and nothing else, not all of them zero. -/
structure Numeral.IsCount (n : Numeral) : Prop where
  digits : ∀ x ∈ n.chars, x.isDigit = true
  pos : 0 < n.count

instance (n : Numeral) : Decidable n.IsCount :=
  decidable_of_iff (n.chars.all Char.isDigit = true ∧ 0 < n.count)
    ⟨fun h => ⟨List.all_eq_true.1 h.1, h.2⟩, fun h => ⟨List.all_eq_true.2 h.1, h.2⟩⟩

theorem Numeral.IsCount.exact_eq {n : Numeral} (h : n.IsCount) : n.exact = n.count := by
  obtain ⟨x, xs, hn, -⟩ := n.chars_eq_cons
  have hx : x.isDigit = true := h.digits x (hn ▸ .head xs)
  have hread : Decimal.readPlain? n.chars = some ⟨false, n.count, 0⟩ := by
    have hsplit : Decimal.splitSign n.chars = (false, n.chars) := by
      rw [hn, Decimal.splitSign_of_not_isSign (Decimal.isSign_of_isDigit hx)]
    rw [Decimal.readPlain?, hsplit]
    simp only [(Decimal.Written.whole n.chars_ne_nil h.digits).readUnsigned?, Option.map_some]
    rfl
  rw [Numeral.exact_eq hread]
  simp [Decimal.exact]

namespace Term

/-- The product of the numbers. -/
def count (ns : List Numeral) : ℕ :=
  (ns.map Numeral.count).prod

variable {ns ms : List Numeral}

theorem count_pos (h : ∀ n ∈ ns, n.IsCount) : 0 < count ns :=
  List.prod_pos fun k hk => by
    obtain ⟨n, hn, rfl⟩ := List.mem_map.1 hk
    exact (h n hn).pos

theorem exactProduct_eq_count (h : ∀ n ∈ ns, n.IsCount) : exactProduct ns = count ns := by
  rw [exactProduct, count, Nat.cast_list_prod, List.map_map]
  exact congrArg List.prod (List.map_congr_left fun n hn => (h n hn).exact_eq)

theorem exists_factor {x : Float} {i : ℤ} (hx : x.isFinite = true) (h : doubleValue x = i)
    (hlow : -2 ^ 63 ≤ i) (hhigh : i < 2 ^ 63) : ∃ n, factor x = .ok n ∧ n.toInt = i := by
  have hi : truncateTo? 64 x = some i := by
    rw [truncateTo?, truncate?_of_doubleValue hx h, Option.filter_eq_some_iff]
    exact ⟨rfl, by simpa using ⟨hlow, hhigh⟩⟩
  refine ⟨.ofInt i, ?_, Int64.toInt_ofInt_of_le hlow hhigh⟩
  rw [factor, if_pos (isWhole_of_doubleValue hx h), hi]

/-- Counts with a product that a mantissa holds. -/
structure Counted (ns : List Numeral) : Prop where
  counts : ∀ n ∈ ns, n.IsCount
  count_le : count ns ≤ 2 ^ 53

theorem Counted.exists_wholeFactor (h : Counted ns) :
    ∃ n, wholeFactor ns = .ok n ∧ n.toInt = count ns := by
  have heq := exactProduct_eq_count h.counts
  have hle := h.count_le
  have hexact : Exact ns := by
    refine exact_of_whole (fun n hn => ?_) ?_
    · have hcount := h.counts n hn
      exact ⟨n.count, Int.natCast_ne_zero.2 hcount.pos.ne', hcount.exact_eq⟩
    · rw [heq, Nat.abs_cast]
      exact_mod_cast hle
  cases ns with
  | nil => exact ⟨1, rfl, rfl⟩
  | cons n ns =>
    obtain ⟨m, hm, hfinite, hvalue⟩ := hexact.exists_carried
    rw [heq] at hvalue
    obtain ⟨k, hk, hint⟩ := exists_factor (i := count (n :: ns)) hfinite hvalue (by omega) (by omega)
    exact ⟨k, by rw [wholeFactor, hm]; exact hk, hint⟩

theorem wholeFactor_cons (n : Numeral) (ns : List Numeral) :
    wholeFactor (n :: ns) = factor (ns.foldl (fun m n => m * n.value) n.value) := by
  rw [wholeFactor, carried_cons]

section Around

variable {L M Q : ℕ} {t : Term} {ps : List Portion}

theorem Holds.exists_scaleBy (hlim : Limits L M Q) (hns : Counted ns) (h : t.Holds Q ps)
    (hps : Modest L M Q (ps.map (Portion.scale (count ns) 1))) :
    ∃ t', scaleBy (carried ns) t = .ok t' ∧ t'.Holds Q (ps.map (Portion.scale (count ns) 1)) := by
  obtain ⟨k, hk, hint⟩ := hns.exists_wholeFactor
  cases ns with
  | nil =>
    refine ⟨t, rfl, ?_⟩
    rwa [count, List.map_nil, List.prod_nil, Portion.scale_one, List.map_id]
  | cons n ns =>
    rw [wholeFactor_cons] at hk
    obtain ⟨t', ht', hholds⟩ := h.exists_multiply hlim hint (count_pos hns.counts) hps
    exact ⟨t', by rw [carried_cons, scaleBy, hk, ok_bind, ht'], hholds⟩

theorem Holds.exists_divideBy (hlim : Limits L M Q) (hns : Counted ns) (h : t.Holds Q ps)
    (hps : Modest L M Q (ps.map (Portion.scale 1 (count ns)))) :
    ∃ t', divideBy (carried ns) t = .ok t' ∧ t'.Holds Q (ps.map (Portion.scale 1 (count ns))) := by
  obtain ⟨k, hk, hint⟩ := hns.exists_wholeFactor
  cases ns with
  | nil =>
    refine ⟨t, rfl, ?_⟩
    rwa [count, List.map_nil, List.prod_nil, Portion.scale_one, List.map_id]
  | cons n ns =>
    rw [wholeFactor_cons] at hk
    obtain ⟨t', ht', hholds⟩ := h.exists_divide hlim hint (count_pos hns.counts) hps
    refine ⟨t', ?_, hholds⟩
    rw [carried_cons, divideBy, hk]
    exact ht'

/-- The numbers around a term scale the portions beneath it. -/
theorem Holds.exists_around (hlim : Limits L M Q) (hms : Counted ms) (hns : Counted ns)
    (h : t.Holds Q ps) (hps : Modest L M Q (ps.map (Portion.scale (count ms) (count ns)))) :
    ∃ t', (scaleBy (carried ms) t >>= divideBy (carried ns)) = .ok t' ∧
      t'.Holds Q (ps.map (Portion.scale (count ms) (count ns))) := by
  rw [← Portion.scale_comp_scale, ← List.map_map] at hps ⊢
  obtain ⟨t₁, ht₁, hholds⟩ := h.exists_scaleBy hlim hms (hps.of_scale Nat.one_pos)
  obtain ⟨t', ht', hholds⟩ := hholds.exists_divideBy hlim hns hps
  exact ⟨t', by rw [ht₁, ok_bind, ht'], hholds⟩

end Around

mutual

/-- The names with what multiplies and what divides each. -/
def Derivation.portions : Derivation → List Portion
  | .grade before name divisor => [⟨name.text, count before.numbers, count divisor.numbers⟩]
  | .group before members after divisor => members.portions.map
    (Portion.scale (count (before.numbers ++ after.toList)) (count divisor.numbers))

def Row.portions : Row → List Portion
  | .last t => t.portions
  | .cons t rest => t.portions ++ rest.portions

end

mutual

theorem Derivation.ofPortions_portions : (d : Derivation) →
    Shares.ofPortions d.portions = d.coefficients fun ns => count ns
  | .grade .. => rfl
  | .group _ members _ _ => by
    rw [Derivation.coefficients, ← members.ofPortions_portions, Derivation.portions,
      Shares.ofPortions, Shares.ofPortions, Shares.scale, List.map_map, List.map_map]
    refine List.map_congr_left fun p _ => ?_
    simp only [Function.comp, Portion.share, Portion.scale, Nat.cast_mul, mul_div_mul_comm]

theorem Row.ofPortions_portions : (ts : Row) →
    Shares.ofPortions ts.portions = ts.coefficients fun ns => count ns
  | .last t => t.ofPortions_portions
  | .cons t rest => by
    rw [Row.coefficients, ← t.ofPortions_portions, ← rest.ofPortions_portions, Row.portions,
      Shares.ofPortions, List.map_append]
    rfl

end

theorem Derivation.names_portions (d : Derivation) : d.portions.map Portion.name = d.names := by
  have hnames : (d.coefficients fun ns => (count ns : ℚ)).map Prod.fst = d.names :=
    d.names_coefficients
  rw [← hnames, ← d.ofPortions_portions, Shares.ofPortions, List.map_map]
  rfl

mutual

/-- The factors are those that multiply and those that divide. -/
theorem Derivation.exists_bounds : (d : Derivation) → ∃ M Q, M * Q = (d.factors.map count).prod ∧
    ∀ p ∈ d.portions, p.multiplier ∣ M ∧ p.divisor ∣ Q
  | .grade before name divisor => by
    refine ⟨count before.numbers, count divisor.numbers, ?_, ?_⟩
    · simp [Derivation.factors]
    · simp [Derivation.portions]
  | .group before members after divisor => by
    obtain ⟨M, Q, hprod, hdvd⟩ := members.exists_bounds
    refine ⟨M * count (before.numbers ++ after.toList), Q * count divisor.numbers, ?_, ?_⟩
    · rw [Derivation.factors, List.map_cons, List.map_cons, List.prod_cons, List.prod_cons, ← hprod]
      ring
    · rw [Derivation.portions, List.forall_mem_map]
      intro p hp
      obtain ⟨hmul, hdiv⟩ := hdvd p hp
      exact ⟨Nat.mul_dvd_mul_right hmul _, Nat.mul_dvd_mul_right hdiv _⟩

theorem Row.exists_bounds : (ts : Row) → ∃ M Q, M * Q = (ts.factors.map count).prod ∧
    ∀ p ∈ ts.portions, p.multiplier ∣ M ∧ p.divisor ∣ Q
  | .last t => t.exists_bounds
  | .cons t rest => by
    obtain ⟨M, Q, hprod, hdvd⟩ := t.exists_bounds
    obtain ⟨M', Q', hprod', hdvd'⟩ := rest.exists_bounds
    refine ⟨M * M', Q * Q', ?_, fun p hp => ?_⟩
    · rw [Row.factors, List.map_append, List.prod_append, ← hprod, ← hprod', mul_mul_mul_comm]
    · rcases List.mem_append.1 hp with hp | hp
      · exact ⟨(hdvd p hp).1.mul_right _, (hdvd p hp).2.mul_right _⟩
      · exact ⟨(hdvd' p hp).1.mul_left _, (hdvd' p hp).2.mul_left _⟩

end

section Build

variable {L M Q : ℕ}

mutual

/-- Where all portions are within the limits, the term is built and holds them. -/
theorem Derivation.exists_build (hlim : Limits L M Q) : (d : Derivation) →
    (∀ ns ∈ d.factors, Counted ns) → Modest L M Q d.portions →
    ∃ t, d.build = .ok t ∧ t.Holds Q d.portions
  | .grade before name divisor, hns, hps => by
    rw [Derivation.factors, List.forall_mem_cons, List.forall_mem_cons] at hns
    obtain ⟨hms, hns, -⟩ := hns
    have hone : (Term.grade name.text .one).Holds Q [⟨name.text, 1, 1⟩] :=
      .grade (p := ⟨name.text, 1, 1⟩) ⟨rfl, rfl⟩
    have hportions : (Derivation.grade before name divisor).portions = [⟨name.text, 1, 1⟩].map
        (Portion.scale (count before.numbers) (count divisor.numbers)) := by
      simp [Derivation.portions, Portion.scale]
    rw [hportions] at hps ⊢
    exact hone.exists_around hlim hms hns hps
  | .group before members after divisor, hns, hps => by
    rw [Derivation.factors, List.forall_mem_cons, List.forall_mem_cons] at hns
    obtain ⟨hms, hns, hmembers⟩ := hns
    -- The limits go down: what fits with the numbers around the group fits without them.
    have hwithin := hps.of_scale (count_pos hms.counts)
    obtain ⟨ts, hts, hall, hne⟩ := members.exists_build hlim hmembers hwithin
    obtain ⟨w, hw, hsum⟩ := hall.exists_total hlim hne hwithin
    obtain ⟨t, ht, hholds⟩ :=
      (Holds.sum hne hall hsum).exists_around hlim hms hns hps
    refine ⟨t, ?_, hholds⟩
    rw [Derivation.build, hts, ok_bind, ofMembers, hw]
    exact ht

theorem Row.exists_build (hlim : Limits L M Q) : (row : Row) →
    (∀ ns ∈ row.factors, Counted ns) → Modest L M Q row.portions →
    ∃ ts, row.build = .ok ts ∧ HoldsAll Q ts row.portions ∧ ts ≠ []
  | .last t, hns, hps => by
    obtain ⟨u, hu, hholds⟩ := t.exists_build hlim hns hps
    refine ⟨[u], by rw [Row.build, hu]; rfl, ?_, by simp⟩
    have := HoldsAll.cons hholds .nil
    rwa [List.append_nil] at this
  | .cons t rest, hns, hps => by
    rw [Row.factors, List.forall_mem_append] at hns
    obtain ⟨hps, hqs⟩ := hps.append
    obtain ⟨u, hu, hholds⟩ := t.exists_build hlim hns.1 hps
    obtain ⟨us, hus, hall, -⟩ := rest.exists_build hlim hns.2 hqs
    exact ⟨u :: us, by rw [Row.build, hu, ok_bind, hus]; rfl, .cons hholds hall, by simp⟩

end

end Build

end Term

end Reckoner
