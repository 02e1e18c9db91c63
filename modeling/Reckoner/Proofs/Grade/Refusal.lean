import Reckoner.Proofs.Grade.Counting
import Reckoner.Proofs.Grade.Misreading

/-!
# Factors that are refused

The numbers around a term count together: their product as doubles has to be a whole number of 64 bits
(`Term.Whole`), and so has the number behind a slash. A formula in which one is not is refused, and no
other that is read as it is written is refused for its factors (`Formula.parse_whole_factors`). A number alone in its place has to be
whole itself, but one among others need not be (`Formula.parse_half_doubled`).
-/

namespace Reckoner

open Text Cursor Grammar

namespace Term

/-- The numbers come to a whole number of 64 bits, if there are any. -/
def Whole (ns : List Numeral) : Prop :=
  ∀ x, carried ns = some x → x.isFinite = true ∧ ∃ i : Int64, doubleValue x = i.toInt

theorem exists_factor_iff {x : Float} :
    (∃ n, factor x = .ok n) ↔ x.isFinite = true ∧ ∃ i : Int64, doubleValue x = i.toInt := by
  constructor
  · rintro ⟨n, hn⟩
    refine ⟨?_, n, doubleValue_of_factor hn⟩
    rw [factor] at hn
    split at hn
    · rename_i hwhole
      simp only [isWhole, Bool.and_eq_true, decide_eq_true_eq] at hwhole
      exact isFinite_of_rankOfFloat_lt hwhole.1
    · cases hn
  · rintro ⟨hx, i, hi⟩
    have hlow := i.le_toInt
    have hhigh := i.toInt_lt
    obtain ⟨n, hn, -⟩ := exists_factor hx hi hlow hhigh
    exact ⟨n, hn⟩

theorem exists_wholeFactor_iff {ns : List Numeral} : (∃ n, wholeFactor ns = .ok n) ↔ Whole ns := by
  rw [wholeFactor, Whole]
  cases carried ns with
  | none => simp
  | some x => simpa using exists_factor_iff

/-- Numbers that no double rounds come to their product. -/
theorem Exact.whole_iff {ns : List Numeral} (h : Exact ns) :
    Whole ns ↔ ∃ i : Int64, exactProduct ns = i.toInt := by
  cases ns with
  | nil => exact iff_of_true (fun _ h => nomatch h) ⟨1, rfl⟩
  | cons n ns =>
    obtain ⟨x, hx, hfinite, hvalue⟩ := h.exists_carried
    rw [Whole, hx, ← hvalue]
    simp [hfinite]

section Unrefused

variable {α β : Type} {r : Except GradeError α}

/-- The result is not the refusal of a factor. -/
def Unrefused (r : Except GradeError α) : Prop :=
  ∀ x, r ≠ .error (.factorNotInteger x)

theorem unrefused_ok (a : α) : Unrefused (.ok a : Except GradeError α) := by
  intro x h
  cases h

theorem unrefused_error {e : GradeError} (he : ∀ x, e ≠ .factorNotInteger x) :
    Unrefused (.error e : Except GradeError α) := by
  intro x h
  exact he x (Except.error.inj h)

theorem Unrefused.bind {f : α → Except GradeError β} (hr : Unrefused r) (hf : ∀ a, Unrefused (f a)) :
    Unrefused (r >>= f) := by
  intro x h
  rcases bind_eq_error.1 h with h | ⟨a, -, h⟩
  · exact hr x h
  · exact hf a x h

theorem unrefused_foldlM {f : β → α → Except GradeError β} (hf : ∀ b a, Unrefused (f b a)) :
    (as : List α) → (b : β) → Unrefused (as.foldlM f b)
  | [], b => unrefused_ok b
  | a :: as, b => (hf b a).bind fun b => unrefused_foldlM hf as b

theorem unrefused_mapM {f : α → Except GradeError β} (hf : ∀ a, Unrefused (f a)) :
    (as : List α) → Unrefused (as.mapM f)
  | [] => unrefused_ok []
  | a :: as => by
    rw [List.mapM_cons]
    exact (hf a).bind fun b => (unrefused_mapM hf as).bind fun bs => unrefused_ok (b :: bs)

theorem unrefused_narrow (n : Int) : Unrefused (Fraction.narrow n) := by
  intro x h
  rw [Fraction.narrow] at h
  split at h <;> cases h

theorem unrefused_reduced (f : Fraction) : Unrefused f.reduced :=
  (unrefused_narrow _).bind fun _ => (unrefused_narrow _).bind fun _ => (unrefused_narrow _).bind
    fun _ => unrefused_ok _

theorem unrefused_add (f g : Fraction) : Unrefused (f.add g) := by
  rw [Fraction.add]
  split
  · exact (unrefused_narrow _).bind fun _ => unrefused_reduced _
  · exact (unrefused_narrow _).bind fun _ => (unrefused_narrow _).bind fun _ =>
      (unrefused_narrow _).bind fun _ => (unrefused_narrow _).bind fun _ => unrefused_reduced _

theorem unrefused_scaleUp (n : Int64) (f : Fraction) : Unrefused (f.scaleUp n) :=
  (unrefused_narrow _).bind fun _ => unrefused_ok _

theorem unrefused_scaleDown (n : Int64) (f : Fraction) : Unrefused (f.scaleDown n) := by
  rw [Fraction.scaleDown]
  split
  · exact unrefused_error (by simp)
  · exact (unrefused_narrow _).bind fun _ => unrefused_ok _

theorem unrefused_expand (n : Int64) (f : Fraction) : Unrefused (f.expand n) := by
  rw [Fraction.expand]
  split
  · exact unrefused_error (by simp)
  · exact (unrefused_narrow _).bind fun _ => (unrefused_narrow _).bind fun _ => unrefused_ok _

theorem unrefused_total (ts : List Term) : Unrefused (total ts) := by
  cases ts with
  | nil => exact unrefused_ok _
  | cons t ts => exact unrefused_foldlM (fun _ _ => unrefused_add _ _) ts _

theorem unrefused_ofMembers (ts : List Term) : Unrefused (ofMembers ts) :=
  (unrefused_total ts).bind fun _ => unrefused_ok _

variable {change : Fraction → Except GradeError Fraction}

mutual

theorem unrefused_rescale (hc : ∀ f, Unrefused (change f)) : (t : Term) → Unrefused (t.rescale change)
  | grade name w => by
    rw [rescale]
    exact (hc w).bind fun _ => unrefused_ok _
  | sum w ts => by
    rw [rescale]
    exact (unrefused_rescaleAll hc ts).bind fun ts => unrefused_ofMembers ts

theorem unrefused_rescaleAll (hc : ∀ f, Unrefused (change f)) :
    (ts : List Term) → Unrefused (rescaleAll change ts)
  | [] => by
    rw [rescaleAll]
    exact unrefused_ok []
  | t :: ts => by
    rw [rescaleAll]
    exact (unrefused_rescale hc t).bind fun t => (unrefused_rescaleAll hc ts).bind fun ts =>
      unrefused_ok (t :: ts)

end

theorem unrefused_scaleBy {ns : List Numeral} (h : Whole ns) (t : Term) :
    Unrefused (scaleBy (carried ns) t) := by
  cases hc : carried ns with
  | none => exact unrefused_ok t
  | some m =>
    obtain ⟨n, hn⟩ := exists_factor_iff.2 (h m hc)
    rw [scaleBy, hn, ok_bind, multiply]
    split
    · exact unrefused_ok t
    · exact unrefused_rescale (unrefused_scaleUp n) t

theorem unrefused_divideBy {ns : List Numeral} (h : Whole ns) (t : Term) :
    Unrefused (divideBy (carried ns) t) := by
  cases hc : carried ns with
  | none => exact unrefused_ok t
  | some m =>
    obtain ⟨n, hn⟩ := exists_factor_iff.2 (h m hc)
    rw [divideBy, hn]
    change Unrefused (divide n t)
    rw [divide]
    split
    · exact unrefused_ok t
    · exact unrefused_rescale (unrefused_scaleDown n) t

mutual

/-- Where all numbers come to whole ones, none is refused. -/
theorem Derivation.unrefused_build : (d : Derivation) → (∀ ns ∈ d.factors, Whole ns) →
    Unrefused d.build
  | .grade before name divisor, h => by
    rw [Derivation.factors, List.forall_mem_cons, List.forall_mem_cons] at h
    rw [Derivation.build]
    exact (unrefused_scaleBy h.1 _).bind fun t => unrefused_divideBy h.2.1 t
  | .group before members after divisor, h => by
    rw [Derivation.factors, List.forall_mem_cons, List.forall_mem_cons] at h
    rw [Derivation.build]
    exact (members.unrefused_build h.2.2).bind fun ts => (unrefused_ofMembers ts).bind fun t =>
      (unrefused_scaleBy h.1 t).bind fun t => unrefused_divideBy h.2.1 t

theorem Row.unrefused_build : (ts : Row) → (∀ ns ∈ ts.factors, Whole ns) → Unrefused ts.build
  | .last t, h => by
    rw [Row.build]
    exact (t.unrefused_build h).bind fun t => unrefused_ok [t]
  | .cons t rest, h => by
    rw [Row.factors, List.forall_mem_append] at h
    rw [Row.build]
    exact (t.unrefused_build h.1).bind fun t => (rest.unrefused_build h.2).bind fun ts =>
      unrefused_ok (t :: ts)

end

theorem unrefused_toCalculator {ν : Type} (t : Term) : Unrefused (t.toCalculator (ν := ν)) := by
  rw [toCalculator]
  refine (unrefused_reduced _).bind fun whole => ?_
  split
  · refine (unrefused_mapM (fun u => ?_) _).bind fun grades => unrefused_ok _
    refine (unrefused_foldlM (fun _ _ => unrefused_expand _ _) _ _).bind fun w => ?_
    cases u with
    | grade => exact unrefused_ok _
    | sum => exact unrefused_error (by simp)
  · exact unrefused_error (by simp)

end Unrefused

end Term

namespace Formula

/-- A formula in which some numbers that count together do not come to a whole number of 64 bits is
refused. Where no double rounds them, that is their product, and for a number that stands alone the
number itself. If all come to whole numbers, the formula may be refused, but not for that. -/
theorem parse_whole_factors {d : Term.Derivation} {text : String}
    (hs : Spaced d.lexemes text.toList) :
    (∀ ns ∈ d.factors, ¬ Term.Whole ns → ∀ f, parse text ≠ .ok f) ∧
    (∀ ns ∈ d.factors, Term.Exact ns → (¬ ∃ i : Int64, Term.exactProduct ns = i.toInt) →
      ∀ f, parse text ≠ .ok f) ∧
    (¬ d.Misread text.toList → (∀ ns ∈ d.factors, Term.Whole ns) →
      ∀ x, parse text ≠ .error (.factorNotInteger x)) := by
  have hrefused : ∀ ns ∈ d.factors, ¬ Term.Whole ns → ∀ f, parse text ≠ .ok f := by
    intro ns hns hwhole f hf
    by_cases hm : d.Misread text.toList
    · exact parse_ne_ok_of_misread hm f hf
    · rw [parse_of_not_misread hs hm, map_eq_ok] at hf
      obtain ⟨c, hc, -⟩ := hf
      obtain ⟨t, ht, -⟩ := bind_eq_ok.1 hc
      exact hwhole (Term.exists_wholeFactor_iff.1 ⟨_, (d.carries_build ht).1 ns hns⟩)
  refine ⟨hrefused, fun ns hns hexact h => hrefused ns hns (mt hexact.whole_iff.1 h), ?_⟩
  intro hm hwhole x hx
  rw [parse_of_not_misread hs hm, map_eq_bind] at hx
  refine ((d.unrefused_build hwhole).bind fun t => ?_).bind (fun c => ?_) x hx
  · exact Term.unrefused_toCalculator t
  · exact Term.unrefused_ok _

/-- A half behind a plus is refused. -/
theorem parse_whole_factors_half : ∃ e, parse "(A + 0.5B)/2" = .error e := by
  let half : Numeral := ⟨"0.5".toList, rfl⟩
  let two : Numeral := ⟨['2'], rfl⟩
  let name (x : Char) (h : isWord [x] = true) : Word := ⟨[x], h⟩
  let d : Term.Derivation := .group ⟨none, []⟩ (.cons (.grade ⟨none, []⟩ (name 'A' rfl) none)
    (.last (.grade ⟨some half, []⟩ (name 'B' rfl) none))) none (some (some two))
  have hs : Spaced d.lexemes "(A + 0.5B)/2".toList := spaced_of_spells (by decide)
  have hrefused : (Term.wholeFactor [half]).toOption = none := by decide +kernel
  have hmem : [half] ∈ d.factors := .tail _ (.tail _ (.tail _ (.tail _ (.head _))))
  refine exists_error_of_ne_ok ((parse_whole_factors hs).1 [half] hmem fun hwhole => ?_)
  obtain ⟨n, hn⟩ := Term.exists_wholeFactor_iff.2 hwhole
  rw [hn] at hrefused
  cases hrefused

/-- A half is not whole, but with a two behind it the formula is accepted. -/
theorem parse_half_doubled : ∃ d : Term.Derivation, ∃ half two : Numeral,
    Spaced d.lexemes "0.5*2A".toList ∧ [half, two] ∈ d.factors ∧
    (¬ ∃ i : ℤ, half.exact = i) ∧ ∃ f, parse "0.5*2A" = .ok f ∧
      (f.calculator.grades.map fun g => (g.name, g.weighting)) = [("A", 1)] := by
  let half : Numeral := ⟨"0.5".toList, rfl⟩
  let two : Numeral := ⟨['2'], rfl⟩
  let name : Word := ⟨['A'], rfl⟩
  let d : Term.Derivation := .grade ⟨some half, [some two]⟩ name none
  have hs : Spaced d.lexemes "0.5*2A".toList := spaced_of_spells (by decide)
  have hexact : half.exact = 1 / 2 := by
    rw [Numeral.exact_eq (d := ⟨false, 5, -1⟩) (by decide), Decimal.exact]
    norm_num
  refine ⟨d, half, two, hs, .head _, ?_, exists_of_build _ hs (by decide) (by decide +kernel)⟩
  rintro ⟨i, hi⟩
  rw [hexact, div_eq_iff two_ne_zero] at hi
  have hi : (1 : ℤ) = i * 2 := by exact_mod_cast hi
  omega

end Formula

end Reckoner
