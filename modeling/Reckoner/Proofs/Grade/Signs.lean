import Mathlib.Algebra.Order.Field.Rat
import Reckoner.Proofs.Grade.Held
import Reckoner.Proofs.Grade.Partition
import Reckoner.Proofs.Grade.Reading
import Reckoner.Proofs.Grade.Recognition

/-!
# The signs of shares

The reader of formulas divides shares by the numbers that are written behind slashes. The grades of all
terms that it makes on the way have shares with positive denominators just if none of these numbers is
negative, and then the shares of sums and those that are brought to one denominator have them, too
(`Term.Derivation.signs_build`).
-/

namespace Reckoner

open Text Cursor Grammar

namespace Term

mutual

/-- The term and all terms beneath it. -/
def subterms : Term → List Term
  | grade name w => [grade name w]
  | sum w members => sum w members :: subtermsAll members

def subtermsAll : List Term → List Term
  | [] => []
  | t :: ts => t.subterms ++ subtermsAll ts

end

theorem mem_subterms_self (t : Term) : t ∈ t.subterms := by
  cases t with
  | grade name w => exact .head _
  | sum w members => exact .head _

theorem mem_subtermsAll {u : Term} {ts : List Term} :
    u ∈ subtermsAll ts ↔ ∃ t ∈ ts, u ∈ t.subterms := by
  induction ts with
  | nil => simp [subtermsAll]
  | cons t ts ih => simp [subtermsAll, ih]

mutual

theorem leaves_subset_subterms : (t : Term) → t.leaves ⊆ t.subterms
  | .grade name w => by
    rw [leaves, subterms]
    exact List.Subset.refl _
  | .sum w [] => by
    rw [leaves]
    exact List.nil_subset _
  | .sum w [t] => by
    rw [leaves, subterms, subtermsAll, subtermsAll, List.append_nil]
    exact List.Subset.trans (leaves_subset_subterms t) (List.subset_cons_self ..)
  | .sum w (t :: u :: ts) => by
    intro v hv
    rw [leaves] at hv
    · rw [subterms]
      exact .tail _ (mem_subtermsAll.2 ⟨v, hv, mem_subterms_self v⟩)
    · simp
    · simp

theorem leavesAll_subset_subtermsAll : (ts : List Term) → leavesAll ts ⊆ subtermsAll ts
  | [] => by
    rw [leavesAll]
    exact List.nil_subset _
  | t :: ts => by
    rw [leavesAll, subtermsAll]
    exact List.append_subset.2 ⟨List.Subset.trans (leaves_subset_subterms t) (List.subset_append_left ..),
      List.Subset.trans (leavesAll_subset_subtermsAll ts) (List.subset_append_right ..)⟩

end

theorem gradeTerms_subset_subterms (t : Term) : t.gradeTerms ⊆ t.subterms := by
  cases t with
  | grade name w => exact List.Subset.refl _
  | sum w members =>
    rw [gradeTerms, subterms]
    exact List.Subset.trans (leavesAll_subset_subtermsAll members) (List.subset_cons_self ..)

/-- All shares in the term have positive denominators. -/
def Positive (t : Term) : Prop :=
  ∀ u ∈ t.subterms, 0 < u.weighting.denominator.toInt

/-- The shares of the grades in the term have positive denominators. -/
def GradesPositive (t : Term) : Prop :=
  ∀ name w, grade name w ∈ t.subterms → 0 < w.denominator.toInt

theorem Positive.gradesPositive {t : Term} (h : t.Positive) : t.GradesPositive :=
  fun _ _ hw => h _ hw

/-- The operations that bring the share of a term to the denominators of the others. -/
def alignment (t u : Term) : List Fraction.Operation :=
  (t.denominators.filter (· ≠ u.weighting.denominator)).map .expand

theorem Positive.held_alignment {t u : Term} (h : t.Positive) (hu : u ∈ t.gradeTerms) :
    ∀ g ∈ Fraction.held u.weighting (t.alignment u), 0 < g.denominator.toInt := by
  have hterms : ∀ v ∈ t.gradeTerms, 0 < v.weighting.denominator.toInt :=
    fun v hv => h v (gradeTerms_subset_subterms t hv)
  refine Fraction.held_expand_pos (hterms u hu) fun d hd => ?_
  have hmem := (List.mem_filter.1 hd).1
  rw [denominators, List.mem_eraseDups, List.mem_map] at hmem
  obtain ⟨v, hv, rfl⟩ := hmem
  exact hterms v hv

section Sums

variable {ts : List Term} {t : Term} {w : Fraction}

theorem foldlM_add_pos {acc : Fraction} (hacc : 0 < acc.denominator.toInt)
    (hts : ∀ t ∈ ts, 0 < t.weighting.denominator.toInt)
    (h : ts.foldlM (fun acc t => acc.add t.weighting) acc = .ok w) : 0 < w.denominator.toInt := by
  induction ts generalizing acc with
  | nil =>
    obtain rfl := Except.ok.inj h
    exact hacc
  | cons t ts ih =>
    rw [List.foldlM_cons] at h
    obtain ⟨sum, hsum, h⟩ := bind_eq_ok.1 h
    obtain ⟨ht, hts⟩ := List.forall_mem_cons.1 hts
    exact ih (Fraction.add_pos hacc ht hsum) hts h

theorem total_pos (hts : ∀ t ∈ ts, 0 < t.weighting.denominator.toInt) (h : total ts = .ok w) :
    0 < w.denominator.toInt := by
  cases ts with
  | nil =>
    obtain rfl := Except.ok.inj h
    decide
  | cons t ts =>
    obtain ⟨ht, hts⟩ := List.forall_mem_cons.1 hts
    exact foldlM_add_pos ht hts h

theorem positive_sum (hts : ∀ t ∈ ts, t.Positive) (h : total ts = .ok w) : (sum w ts).Positive := by
  intro u hu
  rw [subterms] at hu
  rcases List.mem_cons.1 hu with rfl | hu
  · exact total_pos (fun t ht => hts t ht t (mem_subterms_self t)) h
  · obtain ⟨t, ht, hu⟩ := mem_subtermsAll.1 hu
    exact hts t ht u hu

end Sums

section Rescale

variable {change : Fraction → Except GradeError Fraction}

mutual

theorem Positive.rescale (hchange : ∀ {f g : Fraction}, 0 < f.denominator.toInt → change f = .ok g →
    0 < g.denominator.toInt) : {t t' : Term} → t.Positive → t.rescale change = .ok t' → t'.Positive
  | .grade name w, _, h, ht => by
    obtain ⟨w', hw', rfl⟩ := rescale_grade_eq_ok.1 ht
    intro u hu
    obtain rfl := List.mem_singleton.1 hu
    exact hchange (h _ (.head _)) hw'
  | .sum w members, _, h, ht => by
    obtain ⟨members', w', hms, hw', rfl⟩ := rescale_sum_eq_ok.1 ht
    refine positive_sum (positive_rescaleAll hchange (fun t ht u hu => ?_) hms) hw'
    rw [Positive, subterms] at h
    exact h u (.tail _ (mem_subtermsAll.2 ⟨t, ht, hu⟩))

theorem positive_rescaleAll (hchange : ∀ {f g : Fraction}, 0 < f.denominator.toInt →
    change f = .ok g → 0 < g.denominator.toInt) : {ts ts' : List Term} → (∀ t ∈ ts, t.Positive) →
    rescaleAll change ts = .ok ts' → ∀ t ∈ ts', t.Positive
  | [], _, _, hts => by
    obtain rfl := rescaleAll_nil_eq_ok.1 hts
    simp
  | t :: ts, _, h, hts => by
    obtain ⟨t', ts', ht, hts', rfl⟩ := rescaleAll_cons_eq_ok.1 hts
    obtain ⟨hpos, hall⟩ := List.forall_mem_cons.1 h
    exact List.forall_mem_cons.2 ⟨hpos.rescale hchange ht, positive_rescaleAll hchange hall hts'⟩

end

variable {name : String} {w : Fraction}

mutual

/-- The share of every grade is changed. -/
theorem exists_grade_rescale : {t t' : Term} → t.rescale change = .ok t' →
    grade name w ∈ t.subterms → ∃ w', change w = .ok w' ∧ grade name w' ∈ t'.subterms
  | .grade _ _, _, h, hw => by
    obtain ⟨w', hw', rfl⟩ := rescale_grade_eq_ok.1 h
    rw [subterms, List.mem_singleton, Term.grade.injEq] at hw
    obtain ⟨rfl, rfl⟩ := hw
    exact ⟨w', hw', .head _⟩
  | .sum _ members, _, h, hw => by
    obtain ⟨members', v, hms, -, rfl⟩ := rescale_sum_eq_ok.1 h
    rw [subterms] at hw
    rcases List.mem_cons.1 hw with hw | hw
    · cases hw
    · obtain ⟨w', hw', hmem⟩ := exists_grade_rescaleAll hms hw
      exact ⟨w', hw', by rw [subterms]; exact .tail _ hmem⟩

theorem exists_grade_rescaleAll : {ts ts' : List Term} → rescaleAll change ts = .ok ts' →
    grade name w ∈ subtermsAll ts → ∃ w', change w = .ok w' ∧ grade name w' ∈ subtermsAll ts'
  | [], _, _, hw => by
    rw [subtermsAll] at hw
    cases hw
  | t :: ts, _, h, hw => by
    obtain ⟨t', ts', ht, hts, rfl⟩ := rescaleAll_cons_eq_ok.1 h
    rw [subtermsAll, List.mem_append] at hw
    rw [subtermsAll]
    rcases hw with hw | hw
    · obtain ⟨w', hw', hmem⟩ := exists_grade_rescale ht hw
      exact ⟨w', hw', List.mem_append_left _ hmem⟩
    · obtain ⟨w', hw', hmem⟩ := exists_grade_rescaleAll hts hw
      exact ⟨w', hw', List.mem_append_right _ hmem⟩

end

end Rescale

section Around

variable {t t' : Term} {ns : List Numeral} {name : String} {w : Fraction}

theorem scaleUp_denominator {n : Int64} {f g : Fraction} (h : f.scaleUp n = .ok g) :
    g.denominator = f.denominator := by
  obtain ⟨i, -, h⟩ := bind_eq_ok.1 h
  obtain rfl := Except.ok.inj h
  rfl

theorem exists_grade_scaleBy {k : Option Float} (h : scaleBy k t = .ok t')
    (hw : grade name w ∈ t.subterms) :
    ∃ w', grade name w' ∈ t'.subterms ∧ w'.denominator = w.denominator := by
  rcases eq_or_rescale_of_scaleBy h with rfl | ⟨n, h⟩
  · exact ⟨w, hw, rfl⟩
  · obtain ⟨w', hw', hmem⟩ := exists_grade_rescale h hw
    exact ⟨w', hmem, scaleUp_denominator hw'⟩

theorem Positive.scaleBy {k : Option Float} (ht : t.Positive) (h : scaleBy k t = .ok t') :
    t'.Positive := by
  rcases eq_or_rescale_of_scaleBy h with rfl | ⟨n, h⟩
  · exact ht
  · exact ht.rescale (fun hf hg => scaleUp_denominator hg ▸ hf) h

theorem effect_pos_iff {n : Int64} : 0 < effect n ↔ 0 ≤ n.toInt := by
  rw [effect]
  split
  · rename_i hn
    simp [hn]
  · rename_i hn
    have hne := Fraction.toInt_ne_zero.2 hn
    rw [Int.cast_pos]
    omega

theorem scaleDown_denominator {n : Int64} {f g : Fraction} (h : f.scaleDown n = .ok g) :
    g.denominator.toInt = f.denominator.toInt * n.toInt := by
  have h : (Fraction.Operation.scaleDown n).apply f = .ok g := h
  exact Fraction.Operation.denominator_of_mem_below? rfl h

theorem exists_grade_divideBy (h : divideBy (carried ns) t = .ok t')
    (hw : grade name w ∈ t.subterms) : ∃ w', grade name w' ∈ t'.subterms ∧
      (w'.denominator.toInt : ℚ) = w.denominator.toInt * effect (whole ns) := by
  rcases eq_or_rescale_of_divideBy h with ⟨hone, rfl⟩ | ⟨-, heffect, h⟩
  · exact ⟨w, hw, by rw [hone, mul_one]⟩
  · obtain ⟨w', hw', hmem⟩ := exists_grade_rescale h hw
    exact ⟨w', hmem, by rw [heffect, scaleDown_denominator hw', Int.cast_mul]⟩

theorem Positive.divideBy (ht : t.Positive) (hns : 0 ≤ (whole ns).toInt)
    (h : divideBy (carried ns) t = .ok t') : t'.Positive := by
  rcases eq_or_rescale_of_divideBy h with ⟨-, rfl⟩ | ⟨hne, -, h⟩
  · exact ht
  · have hpos : 0 < (whole ns).toInt := lt_of_le_of_ne hns (Fraction.toInt_ne_zero.2 hne).symm
    refine ht.rescale (fun hf hg => ?_) h
    rw [scaleDown_denominator hg]
    exact mul_pos hf hpos

end Around

mutual

/-- The derivation and all those in its groups. -/
def Derivation.parts : Derivation → List Derivation
  | .grade before name divisor => [.grade before name divisor]
  | .group before members after divisor =>
    .group before members after divisor :: members.parts

def Row.parts : Row → List Derivation
  | .last t => t.parts
  | .cons t rest => t.parts ++ rest.parts

end

mutual

/-- The numbers behind slashes, for all terms. -/
def Derivation.divisors : Derivation → List (List Numeral)
  | .grade _ _ divisor => [divisor.numbers]
  | .group _ members _ divisor => divisor.numbers :: members.divisors

def Row.divisors : Row → List (List Numeral)
  | .last t => t.divisors
  | .cons t rest => t.divisors ++ rest.divisors

end

/-- The numbers come to whole ones that are not negative. -/
def Nonnegative (nss : List (List Numeral)) : Prop :=
  ∀ ns ∈ nss, 0 ≤ (whole ns).toInt

/-- Terms that are made of some of the derivations: their grades have positive denominators just if no
divisor is negative, and then all shares have. -/
structure Signs (ts : List Term) (parts : List Derivation) (divisors : List (List Numeral)) :
    Prop where
  made : ∀ t ∈ ts, ∃ x ∈ parts, x.build = .ok t
  grade : ∃ name w, grade name w ∈ subtermsAll ts
  nonnegative : (∀ x ∈ parts, ∀ t, x.build = .ok t → t.GradesPositive) → Nonnegative divisors
  positive : Nonnegative divisors → ∀ x ∈ parts, ∀ t, x.build = .ok t → t.Positive

section Signs

variable {ts us : List Term} {ps qs : List Derivation} {ms ns : List (List Numeral)}

theorem Signs.append (h : Signs ts ps ms) (h' : Signs us qs ns) :
    Signs (ts ++ us) (ps ++ qs) (ms ++ ns) := by
  obtain ⟨name, w, hw⟩ := h.grade
  obtain ⟨t, ht, hw⟩ := mem_subtermsAll.1 hw
  refine ⟨fun u hu => ?_, ⟨name, w, mem_subtermsAll.2 ⟨t, List.mem_append_left _ ht, hw⟩⟩,
    fun hpos => ?_, fun hns => ?_⟩
  · rcases List.mem_append.1 hu with hu | hu
    · obtain ⟨x, hx, hbuild⟩ := h.made u hu
      exact ⟨x, List.mem_append_left _ hx, hbuild⟩
    · obtain ⟨x, hx, hbuild⟩ := h'.made u hu
      exact ⟨x, List.mem_append_right _ hx, hbuild⟩
  · rw [List.forall_mem_append] at hpos
    exact List.forall_mem_append.2 ⟨h.nonnegative hpos.1, h'.nonnegative hpos.2⟩
  · obtain ⟨hms, hns⟩ := List.forall_mem_append.1 hns
    exact List.forall_mem_append.2 ⟨h.positive hms, h'.positive hns⟩

variable {d : Derivation} {k : Option Float} {t t₀ t₁ : Term} {numbers : List Numeral}

/-- The numbers around a term, of which only the divisor can turn signs. -/
theorem signs_around (hd : d.build = .ok t) (h₁ : scaleBy k t₀ = .ok t₁)
    (h : divideBy (carried numbers) t₁ = .ok t) (hgrade : ∃ name w, grade name w ∈ t₀.subterms)
    (hnonneg : (∀ x ∈ ps, ∀ u, x.build = .ok u → u.GradesPositive) →
      t₀.GradesPositive ∧ Nonnegative ns)
    (hpos : Nonnegative ns → t₀.Positive ∧ ∀ x ∈ ps, ∀ u, x.build = .ok u → u.Positive) :
    Signs [t] (d :: ps) (numbers :: ns) := by
  obtain ⟨name, w, hw⟩ := hgrade
  obtain ⟨w₁, hw₁, hden₁⟩ := exists_grade_scaleBy h₁ hw
  obtain ⟨w', hw', hden⟩ := exists_grade_divideBy h hw₁
  refine ⟨?_, ⟨name, w', mem_subtermsAll.2 ⟨t, .head _, hw'⟩⟩, fun hparts => ?_, fun hns => ?_⟩
  · intro u hu
    obtain rfl := List.mem_singleton.1 hu
    exact ⟨d, .head _, hd⟩
  · -- One grade shows the sign of the divisor: its share is positive inside and outside.
    obtain ⟨hself, hparts⟩ := List.forall_mem_cons.1 hparts
    obtain ⟨ht₀, hns⟩ := hnonneg hparts
    refine List.forall_mem_cons.2 ⟨effect_pos_iff.1 ?_, hns⟩
    have hbefore : (0 : ℚ) < w₁.denominator.toInt := Int.cast_pos.2 (hden₁ ▸ ht₀ name w hw)
    have hafter : (0 : ℚ) < w'.denominator.toInt := Int.cast_pos.2 (hself t hd name w' hw')
    rw [hden] at hafter
    exact (mul_pos_iff_of_pos_left hbefore).1 hafter
  · obtain ⟨hnumbers, hns⟩ := List.forall_mem_cons.1 hns
    obtain ⟨ht₀, hparts⟩ := hpos hns
    refine List.forall_mem_cons.2 ⟨fun u hu => ?_, hparts⟩
    obtain rfl := Except.ok.inj (hd.symm.trans hu)
    exact (ht₀.scaleBy h₁).divideBy hnumbers h

mutual

theorem Derivation.signs_build : (d : Derivation) → {t : Term} → d.build = .ok t →
    Signs [t] d.parts d.divisors
  | .grade before name divisor, t, h => by
    have hbuild := h
    rw [Derivation.build] at h
    obtain ⟨t₁, h₁, h⟩ := bind_eq_ok.1 h
    have hone : (Term.grade name.text .one).Positive := by
      intro u hu
      obtain rfl := List.mem_singleton.1 hu
      exact (by decide : 0 < Fraction.one.denominator.toInt)
    rw [Derivation.parts, Derivation.divisors]
    exact signs_around hbuild h₁ h ⟨name.text, .one, mem_subterms_self _⟩
      (fun _ => ⟨hone.gradesPositive, by simp [Nonnegative]⟩) (fun _ => ⟨hone, by simp⟩)
  | .group before members after divisor, t, h => by
    have hbuild := h
    rw [Derivation.build] at h
    obtain ⟨ts, hts, h⟩ := bind_eq_ok.1 h
    obtain ⟨t₀, h₀, h⟩ := bind_eq_ok.1 h
    obtain ⟨w, hw, h₀⟩ := bind_eq_ok.1 h₀
    obtain rfl := Except.ok.inj h₀
    obtain ⟨t₁, h₁, h⟩ := bind_eq_ok.1 h
    have hmembers := members.signs_build hts
    rw [Derivation.parts, Derivation.divisors]
    refine signs_around hbuild h₁ h ?_ (fun hparts => ⟨?_, hmembers.nonnegative hparts⟩)
      fun hns => ⟨positive_sum (fun u hu => ?_) hw, hmembers.positive hns⟩
    · obtain ⟨name, v, hv⟩ := hmembers.grade
      exact ⟨name, v, by rw [subterms]; exact .tail _ hv⟩
    · intro name v hv
      rw [subterms] at hv
      rcases List.mem_cons.1 hv with hv | hv
      · cases hv
      · obtain ⟨u, hu, hv⟩ := mem_subtermsAll.1 hv
        obtain ⟨x, hx, hxu⟩ := hmembers.made u hu
        exact hparts x hx u hxu name v hv
    · obtain ⟨x, hx, hxu⟩ := hmembers.made u hu
      exact hmembers.positive hns x hx u hxu

theorem Row.signs_build : (row : Row) → {ts : List Term} → row.build = .ok ts →
    Signs ts row.parts row.divisors
  | .last t, _, h => by
    rw [Row.build] at h
    obtain ⟨u, hu, h⟩ := bind_eq_ok.1 h
    obtain rfl := Except.ok.inj h
    exact t.signs_build hu
  | .cons t rest, _, h => by
    rw [Row.build] at h
    obtain ⟨u, hu, h⟩ := bind_eq_ok.1 h
    obtain ⟨us, hus, h⟩ := bind_eq_ok.1 h
    obtain rfl := Except.ok.inj h
    exact (t.signs_build hu).append (rest.signs_build hus)

end

end Signs

end Term

/-- Denominators stay positive, with operations performed in place and with formulas read, just if
nothing is divided or expanded by a negative number. -/
theorem denominators_pos_iff {f : Fraction} {ops : List Fraction.Operation}
    (hops : ∀ op ∈ ops, ∀ k ∈ op.operand?, k.Reachable) :
    ((∀ g ∈ Fraction.held f ops, 0 < g.denominator.toInt) ↔
      0 < f.denominator.toInt ∧ Fraction.Straight f ops) ∧
    ∀ (c rest : Cursor) (cs : List Char) (t : Term), c.Over cs →
      (Term.readTerm c).pair = (.ok t, rest) → ∃ d : Term.Derivation,
        Passed d.lexemes cs rest.remaining ∧ d.build = .ok t ∧
        ((∀ x ∈ d.parts, ∀ u, x.build = .ok u → u.GradesPositive) ↔ Term.Nonnegative d.divisors) ∧
        (Term.Nonnegative d.divisors → (∀ x ∈ d.parts, ∀ u, x.build = .ok u → u.Positive) ∧
          ∀ u ∈ t.gradeTerms, ∀ g ∈ Fraction.held u.weighting (t.alignment u),
            0 < g.denominator.toInt) := by
  refine ⟨Fraction.forall_held_iff fun op hop k hk => (hops op hop k hk).denominator_ne, ?_⟩
  intro c rest cs t hc ht
  obtain ⟨d, post, hpassed, hrest, hbuild⟩ := Term.exists_derivation_of_readTerm hc ht
  have hsigns := d.signs_build hbuild
  refine ⟨d, hrest.remaining ▸ hpassed, hbuild, ⟨hsigns.nonnegative, fun hns x hx u hu => ?_⟩,
    fun hns => ⟨hsigns.positive hns, fun u hu => ?_⟩⟩
  · exact (hsigns.positive hns x hx u hu).gradesPositive
  · obtain ⟨x, hx, hxt⟩ := hsigns.made t (.head _)
    exact (hsigns.positive hns x hx t hxt).held_alignment hu

/-- A fraction with its sign below is added, and a formula is read. -/
theorem denominators_pos_iff_thirds : Fraction.Reachable ⟨1, -2⟩ ∧
    Fraction.held .one [.scaleDown 3, .add ⟨1, -2⟩, .expand 0] = [⟨1, 1⟩, ⟨1, 3⟩, ⟨-1, 6⟩, ⟨-1, 6⟩] ∧
    Fraction.Straight .one [.scaleDown 3, .add ⟨1, -2⟩, .expand 0] ∧
    ∃ t rest, (Term.readTerm (ofList "(A + 2B)/3".toList)).pair = (.ok t, rest) ∧
      ∃ d : Term.Derivation, d.build = .ok t ∧
        ((∀ x ∈ d.parts, ∀ u, x.build = .ok u → u.GradesPositive) ↔ Term.Nonnegative d.divisors) := by
  have hhalf : Fraction.Reachable ⟨1, -2⟩ :=
    .apply (.scaleDown (-2)) .one (by simp [Fraction.Operation.operand?]) (by decide)
  have hheld : Fraction.held .one [.scaleDown 3, .add ⟨1, -2⟩, .expand 0]
      = [⟨1, 1⟩, ⟨1, 3⟩, ⟨-1, 6⟩, ⟨-1, 6⟩] := by decide +kernel
  have hops : ∀ op ∈ [.scaleDown 3, .add ⟨1, -2⟩, .expand 0], ∀ k ∈ Fraction.Operation.operand? op,
      k.Reachable := by simpa [Fraction.Operation.operand?] using hhalf
  let number (x : Char) (h : isNumeral [x] = true) : Numeral := ⟨[x], h⟩
  let name (x : Char) (h : isWord [x] = true) : Word := ⟨[x], h⟩
  let d : Term.Derivation := .group ⟨none, []⟩ (.cons (.grade ⟨none, []⟩ (name 'A' rfl) none)
    (.last (.grade ⟨some (number '2' rfl), []⟩ (name 'B' rfl) none))) none (some (some (number '3' rfl)))
  have hs : Spaced d.lexemes "(A + 2B)/3".toList := spaced_of_spells (by decide)
  have hu : Unsigned "(A + 2B)/3".toList := by decide
  have hstops : d.Stops [] := Term.Derivation.stops_of_endsTerm (before_nil _)
    fun _ => Term.apart_of_before (before_nil fun _ => false) rfl
  obtain ⟨hread, -⟩ := d.gives_readTerm (faces_ofList _) (fun _ h => hu.not_passed h)
    ⟨_, (List.append_nil _).symm, hs⟩ hstops
  have hone : d.build.map Term.weighting = .ok ⟨1, 1⟩ := by decide +kernel
  obtain ⟨t, ht, -⟩ := map_eq_ok.1 hone
  have hpair : (Term.readTerm (ofList "(A + 2B)/3".toList)).pair
      = (.ok t, (Term.readTerm (ofList "(A + 2B)/3".toList)).rest) := Prod.ext (hread.trans ht) rfl
  obtain ⟨hrun, hterm⟩ := denominators_pos_iff (f := .one) hops
  obtain ⟨d', -, hbuild, hiff, -⟩ := hterm _ _ _ _ (.list _) hpair
  exact ⟨hhalf, hheld, (hrun.1 (by rw [hheld]; decide)).2, t, _, hpair, d', hbuild, hiff⟩

/-- One divided by minus one, and a formula that multiplies and divides its only grade by minus one. -/
theorem scaleDown_minus_one :
    (Fraction.Reachable ⟨1, -1⟩ ∧ Fraction.one.scaleDown (-1) = .ok ⟨1, -1⟩ ∧
      ¬ 0 < (Fraction.mk 1 (-1)).denominator.toInt) ∧
    ∃ d : Term.Derivation, Spaced d.lexemes "-1A / -1".toList ∧
      d.build.map Term.weighting = .ok ⟨-1, -1⟩ := by
  let number : Numeral := ⟨['-', '1'], rfl⟩
  let name : Word := ⟨['A'], rfl⟩
  refine ⟨⟨.apply (.scaleDown (-1)) .one (by simp [Fraction.Operation.operand?]) (by decide),
    by decide, by decide⟩, .grade ⟨some number, []⟩ name (some (some number)),
    spaced_of_spells (by decide), by decide +kernel⟩

end Reckoner
