import Reckoner.Proofs.Grade.Signs

/-!
# Terms in balance

Scaling multiplies the shares of grades as they are carried and adds up those of sums anew, in lowest
terms. As numbers the two agree: a term whose sums have what their members come to keeps this, and every
share in it, of a grade or of a sum, is multiplied by the same number (`Term.Balanced.rescale`).
-/

namespace Reckoner

namespace Term

/-- The share is a number, and for a sum, which has a member, what the members' shares come to. -/
def AddsUp : Term → Prop
  | grade _ w => w.denominator ≠ 0
  | sum w members => w.denominator ≠ 0 ∧ members ≠ [] ∧
      w.value = (members.map fun t => t.weighting.value).sum

instance : DecidablePred AddsUp
  | grade _ w => inferInstanceAs (Decidable (w.denominator ≠ 0))
  | sum _ _ => inferInstanceAs (Decidable (_ ∧ _ ∧ _))

/-- Every sum beneath the term has the share that its members come to. -/
def Balanced (t : Term) : Prop :=
  ∀ u ∈ t.subterms, u.AddsUp

instance (t : Term) : Decidable t.Balanced :=
  inferInstanceAs (Decidable (∀ u ∈ t.subterms, u.AddsUp))

/-- The terms have one shape and the same names in it, and each share is `r` times what it was. -/
inductive Scaled (r : ℚ) : Term → Term → Prop
  | grade {name : String} {v w : Fraction} : w.value = v.value * r →
    Scaled r (.grade name v) (.grade name w)
  | sum {v w : Fraction} {ts us : List Term} : w.value = v.value * r →
    List.Forall₂ (Scaled r) ts us → Scaled r (.sum v ts) (.sum w us)

variable {t t' : Term} {ts ts' : List Term} {w : Fraction} {r : ℚ}

theorem AddsUp.denominator_ne (h : t.AddsUp) : t.weighting.denominator.toInt ≠ 0 := by
  rw [Fraction.toInt_ne_zero]
  cases t with
  | grade name w => exact h
  | sum w members => exact h.1

theorem Balanced.denominator_ne (h : t.Balanced) : t.weighting.denominator.toInt ≠ 0 :=
  (h t t.mem_subterms_self).denominator_ne

theorem balanced_sum : (sum w ts).Balanced ↔ (sum w ts).AddsUp ∧ ∀ t ∈ ts, t.Balanced := by
  rw [Balanced, subterms, List.forall_mem_cons]
  refine and_congr_right fun _ => ⟨fun h t ht u hu => h u (mem_subtermsAll.2 ⟨t, ht, hu⟩), ?_⟩
  intro h u hu
  obtain ⟨t, ht, hu⟩ := mem_subtermsAll.1 hu
  exact h t ht u hu

theorem Scaled.value_weighting (h : Scaled r t t') : t'.weighting.value = t.weighting.value * r := by
  cases h with
  | grade h => exact h
  | sum h _ => exact h

theorem sum_map_of_scaled (h : List.Forall₂ (Scaled r) ts ts') :
    (ts'.map fun t => t.weighting.value).sum = (ts.map fun t => t.weighting.value).sum * r := by
  induction h with
  | nil => rw [List.map_nil, List.sum_nil, zero_mul]
  | cons h _ ih =>
    rw [List.map_cons, List.sum_cons, List.map_cons, List.sum_cons, ih, h.value_weighting, add_mul]

/-- Members that were scaled add up to the scaled share of the sum. -/
theorem scaled_sum {v : Fraction} (hscaled : List.Forall₂ (Scaled r) ts ts')
    (hsum : (sum v ts).AddsUp) (hts' : ∀ t ∈ ts', t.Balanced) (hw : total ts' = .ok w) :
    Scaled r (sum v ts) (sum w ts') ∧ (sum w ts').Balanced := by
  obtain ⟨-, hne, hv⟩ := hsum
  have hne' : ts' ≠ [] := by
    rintro rfl
    exact hne (List.forall₂_nil_right_iff.1 hscaled)
  have hdenotes := denotes_total hne' (fun t ht => (hts' t ht).denominator_ne) hw
  have hvalue : w.value = v.value * r := by
    rw [hdenotes.value_eq, sum_map_of_scaled hscaled, hv]
  exact ⟨.sum hvalue hscaled,
    balanced_sum.2 ⟨⟨Fraction.toInt_ne_zero.1 hdenotes.denominator_ne, hne', hdenotes.value_eq⟩, hts'⟩⟩

section Rescale

variable {change : Fraction → Except GradeError Fraction}

mutual

/-- A change that multiplies the share of every grade multiplies every share and keeps the balance. -/
theorem Balanced.rescale (hchange : ∀ {f g : Fraction} {q : ℚ}, f.Denotes q → change f = .ok g →
    g.Denotes (q * r)) : {t t' : Term} → t.Balanced → t.rescale change = .ok t' →
    Scaled r t t' ∧ t'.Balanced
  | .grade name v, _, h, ht => by
    obtain ⟨w, hw, rfl⟩ := rescale_grade_eq_ok.1 ht
    have hdenotes : w.Denotes (v.value * r) := hchange (Fraction.denotes_value h.denominator_ne) hw
    refine ⟨.grade hdenotes.value_eq, fun u hu => ?_⟩
    obtain rfl := List.mem_singleton.1 hu
    exact Fraction.toInt_ne_zero.1 hdenotes.denominator_ne
  | .sum v members, _, h, ht => by
    obtain ⟨members', w, hms, hw, rfl⟩ := rescale_sum_eq_ok.1 ht
    obtain ⟨hsum, hmembers⟩ := balanced_sum.1 h
    obtain ⟨hscaled, hbalanced⟩ := balanced_rescaleAll hchange hmembers hms
    exact scaled_sum hscaled hsum hbalanced hw

theorem balanced_rescaleAll (hchange : ∀ {f g : Fraction} {q : ℚ}, f.Denotes q →
    change f = .ok g → g.Denotes (q * r)) : {ts ts' : List Term} → (∀ t ∈ ts, t.Balanced) →
    rescaleAll change ts = .ok ts' → List.Forall₂ (Scaled r) ts ts' ∧ ∀ t ∈ ts', t.Balanced
  | [], _, _, hts => by
    obtain rfl := rescaleAll_nil_eq_ok.1 hts
    exact ⟨.nil, List.forall_mem_nil _⟩
  | t :: ts, _, h, hts => by
    obtain ⟨t', ts', ht', hts', rfl⟩ := rescaleAll_cons_eq_ok.1 hts
    obtain ⟨ht, hrest⟩ := List.forall_mem_cons.1 h
    obtain ⟨hscaled, hbalanced⟩ := ht.rescale hchange ht'
    obtain ⟨hscaledAll, hbalancedAll⟩ := balanced_rescaleAll hchange hrest hts'
    exact ⟨.cons hscaled hscaledAll, List.forall_mem_cons.2 ⟨hbalanced, hbalancedAll⟩⟩

end

end Rescale

/-- Multiplying and dividing are exact at every level of a term in balance, if they give a term. -/
theorem scaling_exact_throughout {n : Int64} (ht : t.Balanced) (hn : n ≠ 0) :
    (∀ t', t.multiply n = .ok t' → Scaled n.toInt t t' ∧ t'.Balanced) ∧
      ∀ t', t.divide n = .ok t' → Scaled (1 / n.toInt) t t' ∧ t'.Balanced := by
  rw [multiply, divide, if_neg hn, if_neg hn]
  refine ⟨fun t' => ht.rescale fun hf hg => hf.scaleUp hg, fun t' => ht.rescale fun hf hg => ?_⟩
  rw [mul_one_div]
  exact hf.scaleDown hn hg

/-- The group of one is carried at the denominator of its member, the whole in lowest terms. -/
theorem scaling_exact_nested :
    let t := sum ⟨5, 6⟩ [sum ⟨2, 4⟩ [grade "A" ⟨2, 4⟩], grade "B" ⟨-1, -3⟩]
    let u := sum ⟨-5, 1⟩ [sum ⟨-12, 4⟩ [grade "A" ⟨-12, 4⟩], grade "B" ⟨6, -3⟩]
    let v := sum ⟨-5, 36⟩ [sum ⟨2, -24⟩ [grade "A" ⟨2, -24⟩], grade "B" ⟨-1, 18⟩]
    (t.Balanced ∧ (-6 : Int64) ≠ 0) ∧
      (t.multiply (-6) = .ok u ∧ Scaled (-6 : Int64).toInt t u ∧ u.Balanced) ∧
      t.divide (-6) = .ok v ∧ Scaled (1 / (-6 : Int64).toInt) t v ∧ v.Balanced := by
  intro t u v
  have ht : t.Balanced := by decide +kernel
  have hn : (-6 : Int64) ≠ 0 := by decide
  have hu : t.multiply (-6) = .ok u := by
    have hsum : total [sum ⟨-12, 4⟩ [grade "A" ⟨-12, 4⟩], grade "B" ⟨6, -3⟩] = .ok ⟨-5, 1⟩ := by
      decide +kernel
    rw [multiply, if_neg hn]
    exact rescale_sum_eq_ok.2 ⟨_, _, rfl, hsum, rfl⟩
  have hv : t.divide (-6) = .ok v := by
    have hsum : total [sum ⟨2, -24⟩ [grade "A" ⟨2, -24⟩], grade "B" ⟨-1, 18⟩] = .ok ⟨-5, 36⟩ := by
      decide +kernel
    rw [divide, if_neg hn]
    exact rescale_sum_eq_ok.2 ⟨_, _, rfl, hsum, rfl⟩
  obtain ⟨hmultiply, hdivide⟩ := scaling_exact_throughout ht hn
  exact ⟨⟨ht, hn⟩, ⟨hu, hmultiply u hu⟩, hv, hdivide v hv⟩

end Term

end Reckoner
