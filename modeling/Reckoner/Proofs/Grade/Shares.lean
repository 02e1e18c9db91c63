import Mathlib.Algebra.BigOperators.Ring.List
import Reckoner.Grade.Term
import Reckoner.Proofs.Grade.Lowest

/-!
# Shares of the average

A term carries shares for the grades beneath it if each of these has its own, and each sum the sum of
those beneath it (`Term.Carries`). Sums of terms are made so, multiplying and dividing a term scale
all shares beneath it (`Term.Carries.multiply`, `Term.Carries.divide`), and the terms that become
grades carry what the whole formula carries (`Term.Carries.gradeTerms`).
-/

namespace Reckoner

/-- Names with their shares. -/
abbrev Shares : Type := List (String × ℚ)

namespace Shares

/-- What the shares come to. -/
def total (ls : Shares) : ℚ :=
  (ls.map Prod.snd).sum

/-- The shares, each multiplied. -/
def scale (r : ℚ) (ls : Shares) : Shares :=
  ls.map fun l => (l.1, l.2 * r)

@[simp] theorem total_nil : total [] = 0 := rfl

theorem total_append (ks ls : Shares) : total (ks ++ ls) = total ks + total ls := by
  rw [total, List.map_append, List.sum_append]
  rfl

theorem total_scale (r : ℚ) (ls : Shares) : total (scale r ls) = total ls * r := by
  rw [total, scale, List.map_map, total, ← List.sum_map_mul_right]
  rfl

theorem scale_append (r : ℚ) (ks ls : Shares) : scale r (ks ++ ls) = scale r ks ++ scale r ls :=
  List.map_append

theorem scale_one (ls : Shares) : scale 1 ls = ls := by
  simp [scale]

theorem scale_scale (r s : ℚ) (ls : Shares) : scale s (scale r ls) = scale (r * s) ls := by
  simp [scale, mul_assoc]

theorem names_scale (r : ℚ) (ls : Shares) : (scale r ls).map Prod.fst = ls.map Prod.fst := by
  simp [scale]

end Shares

namespace Term

mutual

/-- The grades beneath the term have the shares, and each sum has the sum of those beneath it. -/
inductive Carries : Term → Shares → Prop
  | grade {name : String} {w : Fraction} {q : ℚ} : w.Denotes q → Carries (.grade name w) [(name, q)]
  | sum {w : Fraction} {members : List Term} {ls : Shares} : members ≠ [] →
    CarriesAll members ls → w.Denotes ls.total → Carries (.sum w members) ls

/-- The grades beneath the terms in order have the shares. -/
inductive CarriesAll : List Term → Shares → Prop
  | nil : CarriesAll [] []
  | cons {t : Term} {ts : List Term} {ks ls : Shares} : Carries t ks → CarriesAll ts ls →
    CarriesAll (t :: ts) (ks ++ ls)

end

theorem Carries.weighting {t : Term} {ls : Shares} (h : Carries t ls) :
    t.weighting.Denotes ls.total := by
  cases h with
  | grade hw => simpa [Shares.total, Term.weighting] using hw
  | sum _ _ hw => exact hw

theorem denotes_foldlM_add {acc w : Fraction} {p : ℚ} {ts : List Term} (hacc : acc.Denotes p)
    (hts : ∀ t ∈ ts, t.weighting.denominator.toInt ≠ 0)
    (h : ts.foldlM (fun acc t => acc.add t.weighting) acc = .ok w) :
    w.Denotes (p + (ts.map fun t => t.weighting.value).sum) := by
  induction ts generalizing acc p with
  | nil =>
    obtain rfl := Except.ok.inj h
    rwa [List.map_nil, List.sum_nil, add_zero]
  | cons t ts ih =>
    rw [List.foldlM_cons] at h
    obtain ⟨sum, hsum, h⟩ := bind_eq_ok.1 h
    obtain ⟨ht, hts⟩ := List.forall_mem_cons.1 hts
    rw [List.map_cons, List.sum_cons, ← add_assoc]
    exact ih (hacc.add (Fraction.denotes_value ht) hsum) hts h

/-- What terms come to is the sum of the numbers that their shares stand for. -/
theorem denotes_total {ts : List Term} {w : Fraction} (hne : ts ≠ [])
    (hts : ∀ t ∈ ts, t.weighting.denominator.toInt ≠ 0) (h : total ts = .ok w) :
    w.Denotes (ts.map fun t => t.weighting.value).sum := by
  cases ts with
  | nil => exact absurd rfl hne
  | cons t ts =>
    obtain ⟨ht, hts⟩ := List.forall_mem_cons.1 hts
    exact denotes_foldlM_add (Fraction.denotes_value ht) hts h

theorem CarriesAll.weightings : {ts : List Term} → {ls : Shares} → CarriesAll ts ls →
    (∀ t ∈ ts, t.weighting.denominator.toInt ≠ 0) ∧
      (ts.map fun t => t.weighting.value).sum = ls.total
  | [], _, .nil => ⟨List.forall_mem_nil _, rfl⟩
  | _ :: _, _, .cons ht hts => by
    obtain ⟨hne, hsum⟩ := hts.weightings
    refine ⟨List.forall_mem_cons.2 ⟨ht.weighting.denominator_ne, hne⟩, ?_⟩
    rw [List.map_cons, List.sum_cons, Shares.total_append, hsum, ht.weighting.value_eq]

/-- Terms add up to the sum of the shares beneath them. -/
theorem CarriesAll.total {ts : List Term} {ls : Shares} {w : Fraction} (h : CarriesAll ts ls)
    (hne : ts ≠ []) (hw : total ts = .ok w) : w.Denotes ls.total := by
  obtain ⟨hts, hsum⟩ := h.weightings
  rw [← hsum]
  exact denotes_total hne hts hw

theorem CarriesAll.ofMembers {ts : List Term} {ls : Shares} {t : Term} (h : CarriesAll ts ls)
    (hne : ts ≠ []) (ht : ofMembers ts = .ok t) : t.Carries ls := by
  obtain ⟨w, hw, ht⟩ := bind_eq_ok.1 ht
  obtain rfl := Except.ok.inj ht
  exact .sum hne h (h.total hne hw)

section Rescale

variable {change : Fraction → Except GradeError Fraction} {r : ℚ}

theorem rescale_grade_eq_ok {name : String} {w : Fraction} {t' : Term} :
    (Term.grade name w).rescale change = .ok t' ↔ ∃ w', change w = .ok w' ∧ t' = .grade name w' := by
  rw [Term.rescale]
  constructor
  · intro h
    obtain ⟨w', hw', h⟩ := bind_eq_ok.1 h
    exact ⟨w', hw', (Except.ok.inj h).symm⟩
  · rintro ⟨w', hw', rfl⟩
    exact bind_eq_ok.2 ⟨w', hw', rfl⟩

/-- The members are changed and their shares added up anew. -/
theorem rescale_sum_eq_ok {w : Fraction} {members : List Term} {t' : Term} :
    (Term.sum w members).rescale change = .ok t' ↔ ∃ members' w',
      rescaleAll change members = .ok members' ∧ Term.total members' = .ok w' ∧
        t' = .sum w' members' := by
  rw [Term.rescale]
  constructor
  · intro h
    obtain ⟨members', hms, h⟩ := bind_eq_ok.1 h
    obtain ⟨w', hw', h⟩ := bind_eq_ok.1 h
    exact ⟨members', w', hms, hw', (Except.ok.inj h).symm⟩
  · rintro ⟨members', w', hms, hw', rfl⟩
    exact bind_eq_ok.2 ⟨members', hms, bind_eq_ok.2 ⟨w', hw', rfl⟩⟩

theorem rescaleAll_nil_eq_ok {ts' : List Term} : rescaleAll change [] = .ok ts' ↔ ts' = [] := by
  rw [rescaleAll, Except.ok.injEq, eq_comm]

theorem rescaleAll_cons_eq_ok {t : Term} {ts ts' : List Term} :
    rescaleAll change (t :: ts) = .ok ts' ↔ ∃ u us, t.rescale change = .ok u ∧
      rescaleAll change ts = .ok us ∧ ts' = u :: us := by
  rw [rescaleAll]
  constructor
  · intro h
    obtain ⟨u, hu, h⟩ := bind_eq_ok.1 h
    obtain ⟨us, hus, h⟩ := bind_eq_ok.1 h
    exact ⟨u, us, hu, hus, (Except.ok.inj h).symm⟩
  · rintro ⟨u, us, hu, hus, rfl⟩
    exact bind_eq_ok.2 ⟨u, hu, bind_eq_ok.2 ⟨us, hus, rfl⟩⟩

mutual

/-- A change that multiplies the share of every grade multiplies every share of the term. -/
theorem Carries.rescale (hchange : ∀ {f g : Fraction} {q : ℚ}, f.Denotes q → change f = .ok g →
    g.Denotes (q * r)) : {t t' : Term} → {ls : Shares} → t.Carries ls → t.rescale change = .ok t' →
    t'.Carries (ls.scale r)
  | .grade name w, t', _, .grade hw, h => by
    obtain ⟨w', hw', rfl⟩ := rescale_grade_eq_ok.1 h
    exact .grade (hchange hw hw')
  | .sum _ members, t', ls, .sum hne hms _, h => by
    obtain ⟨members', w', hms', hw', rfl⟩ := rescale_sum_eq_ok.1 h
    obtain ⟨hcarries, hlength⟩ := hms.rescaleAll hchange hms'
    have hne' : members' ≠ [] := by
      intro hnil
      rw [hnil, List.length_nil, eq_comm, List.length_eq_zero_iff] at hlength
      exact hne hlength
    exact .sum hne' hcarries (hcarries.total hne' hw')

theorem CarriesAll.rescaleAll (hchange : ∀ {f g : Fraction} {q : ℚ}, f.Denotes q →
    change f = .ok g → g.Denotes (q * r)) : {ts ts' : List Term} → {ls : Shares} →
    CarriesAll ts ls → Term.rescaleAll change ts = .ok ts' →
    CarriesAll ts' (ls.scale r) ∧ ts'.length = ts.length
  | [], _, _, .nil, h => by
    obtain rfl := rescaleAll_nil_eq_ok.1 h
    exact ⟨.nil, rfl⟩
  | t :: ts, _, _, .cons ht hts, h => by
    obtain ⟨t', ts', ht', hts', rfl⟩ := rescaleAll_cons_eq_ok.1 h
    obtain ⟨hcarries, hlength⟩ := hts.rescaleAll hchange hts'
    rw [Shares.scale_append]
    exact ⟨.cons (ht.rescale hchange ht') hcarries, by simp [hlength]⟩

end

end Rescale

/-- What an integer counts for as a factor: zero is passed over. -/
def effect (n : Int64) : ℚ :=
  if n = 0 then 1 else n.toInt

theorem effect_ne_zero (n : Int64) : effect n ≠ 0 := by
  rw [effect]
  split
  · exact one_ne_zero
  · exact Int.cast_ne_zero.2 (Fraction.toInt_ne_zero.2 ‹_›)

variable {t t' : Term} {ls : Shares} {n : Int64}

theorem Carries.multiply (h : t.Carries ls) (ht : t.multiply n = .ok t') :
    t'.Carries (ls.scale (effect n)) := by
  rw [Term.multiply] at ht
  rw [effect]
  split at ht
  · rename_i hn
    obtain rfl := Except.ok.inj ht
    rwa [if_pos hn, Shares.scale_one]
  · rename_i hn
    rw [if_neg hn]
    exact h.rescale (fun hf hg => hf.scaleUp hg) ht

theorem Carries.divide (h : t.Carries ls) (ht : t.divide n = .ok t') :
    t'.Carries (ls.scale (effect n)⁻¹) := by
  rw [Term.divide] at ht
  rw [effect]
  split at ht
  · rename_i hn
    obtain rfl := Except.ok.inj ht
    rwa [if_pos hn, inv_one, Shares.scale_one]
  · rename_i hn
    rw [if_neg hn]
    exact h.rescale (fun hf hg => div_eq_mul_inv _ (n.toInt : ℚ) ▸ hf.scaleDown hn hg) ht

section GradeTerms

theorem CarriesAll.append {ts us : List Term} : {ks ls : Shares} → CarriesAll ts ks →
    CarriesAll us ls → CarriesAll (ts ++ us) (ks ++ ls)
  | _, _, .nil, hu => hu
  | _, _, .cons ht hts, hu => by
    rw [List.append_assoc]
    exact .cons ht (hts.append hu)

theorem Carries.singleton (h : t.Carries ls) : CarriesAll [t] ls := by
  simpa using CarriesAll.cons h .nil

mutual

theorem Carries.leaves : (t : Term) → {ls : Shares} → t.Carries ls → CarriesAll t.leaves ls
  | .grade name w, _, h => by
    rw [Term.leaves]
    exact h.singleton
  | .sum w [], _, .sum hne _ _ => absurd rfl hne
  | .sum w [t], _, .sum _ (.cons ht .nil) _ => by
    rw [Term.leaves, List.append_nil]
    exact Carries.leaves t ht
  | .sum w (t :: u :: ts), _, .sum _ h _ => by
    rw [Term.leaves]
    · exact h
    · simp
    · simp

theorem CarriesAll.leavesAll : (ts : List Term) → {ls : Shares} → CarriesAll ts ls →
    CarriesAll (Term.leavesAll ts) ls
  | [], _, .nil => by
    rw [Term.leavesAll]
    exact .nil
  | t :: ts, _, .cons ht hts => by
    rw [Term.leavesAll]
    exact (Carries.leaves t ht).append (CarriesAll.leavesAll ts hts)

end

theorem Carries.gradeTerms (h : t.Carries ls) : CarriesAll t.gradeTerms ls := by
  cases h with
  | grade hw => exact (Carries.grade hw).singleton
  | sum _ hms _ => exact hms.leavesAll

end GradeTerms

end Term

end Reckoner
