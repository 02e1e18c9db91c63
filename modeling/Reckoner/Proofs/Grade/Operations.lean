import Reckoner.Proofs.Grade.Lowest

/-!
# What operations on fractions give

An operation on a fraction finds some integers one after the other, and has a result if all of them
fit in 64 bits (`Fraction.Operation.checked`). The result stands for the exact number, and where there
is none a fraction that is held in place is as it was (`Fraction.exact_of_reachable`).
-/

namespace Reckoner

namespace Fraction

/-- The integers that reducing the quotient of two integers finds. -/
def reduction (n d : ℤ) : List ℤ :=
  [Int.gcd n d, ((n : ℚ) / d).num, ((n : ℚ) / d).den]

namespace Operation

/-- What the operation makes of a rational number. -/
def exact : Operation → ℚ → ℚ
  | make n d, _ => n.toInt / d.toInt
  | scaleUp n, q => q * n.toInt
  | scaleDown n, q => q / n.toInt
  | expand _, q => q
  | reduce, q => q
  | add g, q => q + g.value
  | multiply g, q => q * g.value

/-- What the operation divides by. -/
def divisor? : Operation → Option Int64
  | make _ d => some d
  | scaleDown n => some n
  | expand n => some n
  | scaleUp _ | reduce | add _ | multiply _ => none

/-- The fraction that the operation takes beside the one that it is applied to. -/
def operand? : Operation → Option Fraction
  | add g => some g
  | multiply g => some g
  | make .. | scaleUp _ | scaleDown _ | expand _ | reduce => none

def lowers : Operation → Bool
  | make .. | reduce | add _ | multiply _ => true
  | scaleUp _ | scaleDown _ | expand _ => false

/-- The integers that the operation finds on the way, as they are without bounds. -/
def integers : Operation → Fraction → List ℤ
  | make n d, _ => reduction n.toInt d.toInt
  | scaleUp n, f => [f.numerator.toInt * n.toInt]
  | scaleDown n, f => [f.denominator.toInt * n.toInt]
  | expand n, f => [f.numerator.toInt * n.toInt, f.denominator.toInt * n.toInt]
  | reduce, f => reduction f.numerator.toInt f.denominator.toInt
  | add g, f =>
    let a := f.numerator.toInt
    let b := f.denominator.toInt
    let c := g.numerator.toInt
    let d := g.denominator.toInt
    if b = d then (a + c) :: reduction (a + c) b
    else a * d :: c * b :: (a * d + c * b) :: b * d :: reduction (a * d + c * b) (b * d)
  | multiply g, f =>
    let n := f.numerator.toInt * g.numerator.toInt
    let d := f.denominator.toInt * g.denominator.toInt
    n :: d :: reduction n d

end Operation

section Checked

variable {α β : Type} {zs ws : List ℤ} {x : Except GradeError α} {y : α → Except GradeError β}

/-- All integers fit and there is a result, or one of them does not and there is none. -/
def Checked (zs : List ℤ) (x : Except GradeError α) : Prop :=
  (∀ z ∈ zs, Fits z) ∧ (∃ a, x = .ok a) ∨
    (∃ z ∈ zs, ¬ Fits z) ∧ x = .error .weightingOutOfRange

theorem checked_ok (a : α) : Checked [] (.ok a) :=
  .inl ⟨by simp, a, rfl⟩

theorem Checked.narrow_bind {z : ℤ} {y : Int64 → Except GradeError β}
    (h : ∀ i : Int64, i.toInt = z → Checked ws (y i)) : Checked (z :: ws) (narrow z >>= y) := by
  by_cases hz : Fits z
  · obtain ⟨i, hi⟩ := narrow_of_fits hz
    rw [hi, ok_bind]
    rcases h i (narrow_eq_ok.1 hi) with ⟨hws, hy⟩ | ⟨⟨w, hw, hne⟩, hy⟩
    · exact .inl ⟨List.forall_mem_cons.2 ⟨hz, hws⟩, hy⟩
    · exact .inr ⟨⟨w, .tail z hw, hne⟩, hy⟩
  · rw [narrow_of_not_fits hz, error_bind]
    exact .inr ⟨⟨z, .head ws, hz⟩, rfl⟩

end Checked

variable {f g : Fraction} {n d : Int64}

theorem checked_reduced (h : f.denominator.toInt ≠ 0) :
    Checked (reduction f.numerator.toInt f.denominator.toInt) f.reduced := by
  rw [reduced_eq h]
  exact .narrow_bind fun _ _ => .narrow_bind fun _ _ => .narrow_bind fun _ _ => checked_ok _

section InPlace

variable {α β : Type}

theorem run_get_bind (k : Fraction → EStateM GradeError Fraction β) (f : Fraction) :
    (get >>= k).run f = (k f).run f := rfl

theorem run_ofExcept_bind (x : Except GradeError α) (k : α → EStateM GradeError Fraction β)
    (f : Fraction) : (MonadExcept.ofExcept x >>= k).run f =
      match x with
      | .ok a => (k a).run f
      | .error e => .error e f := by
  cases x <;> rfl

/-- A result replaces the fraction, an error leaves it alone. -/
def replaced (r : Except GradeError Fraction) (f : Fraction) :
    EStateM.Result GradeError Fraction Unit :=
  match r with
  | .ok g => .ok () g
  | .error e => .error e f

theorem run_set (r : Except GradeError Fraction) (f : Fraction) :
    EStateM.run (MonadExcept.ofExcept r >>= set) f = replaced r f := by
  cases r <;> rfl

end InPlace

namespace Operation

variable {op : Operation}

/-- All that an operation changes is written once it is known that there is a result. -/
theorem run_perform (op : Operation) (f : Fraction) :
    op.perform.run f = replaced (op.apply f) f := by
  cases op with
  | make n d => rw [perform, run_set, apply]
  | scaleUp n =>
    rw [perform, run_get_bind, run_ofExcept_bind, apply, Fraction.scaleUp]
    cases narrow (f.numerator.toInt * n.toInt) <;> rfl
  | scaleDown n =>
    rw [perform, apply, Fraction.scaleDown]
    by_cases hn : n = 0
    · rw [if_pos hn, if_pos hn]
      rfl
    · rw [if_neg hn, if_neg hn]
      rw [run_get_bind, run_ofExcept_bind]
      cases narrow (f.denominator.toInt * n.toInt) <;> rfl
  | expand n =>
    rw [perform, apply, Fraction.expand]
    by_cases hn : n = 0
    · rw [if_pos hn, if_pos hn]
      rfl
    · rw [if_neg hn, if_neg hn]
      rw [run_get_bind, run_ofExcept_bind]
      cases narrow (f.numerator.toInt * n.toInt) with
      | error e => rfl
      | ok numerator =>
        dsimp only
        rw [run_get_bind, run_ofExcept_bind]
        cases narrow (f.denominator.toInt * n.toInt) <;> rfl
  | reduce => rw [perform, run_get_bind, run_set, apply]
  | add g => rw [perform, run_get_bind, run_set, apply]
  | multiply g => rw [perform, run_get_bind, run_set, apply]

theorem apply_of_divisor?_zero (h : op.divisor? = some 0) (f : Fraction) :
    op.apply f = .error (.malformed .divideByZero) := by
  cases op with
  | make n d =>
    obtain rfl := Option.some.inj h
    rw [apply, Fraction.make, if_pos rfl]
  | scaleDown n =>
    obtain rfl := Option.some.inj h
    rw [apply, Fraction.scaleDown, if_pos rfl]
    rfl
  | expand n =>
    obtain rfl := Option.some.inj h
    rw [apply, Fraction.expand, if_pos rfl]
    rfl
  | scaleUp n => cases h
  | reduce => cases h
  | add g => cases h
  | multiply g => cases h

section

variable (hf : f.denominator.toInt ≠ 0) (hop : ∀ g ∈ op.operand?, g.denominator.toInt ≠ 0)

include hf hop

/-- An operation that does not divide by zero has a result if all integers on the way fit, and is out
of range otherwise. -/
theorem checked (hdiv : op.divisor? ≠ some 0) : Checked (op.integers f) (op.apply f) := by
  cases op with
  | make n d =>
    have hd : d ≠ 0 := fun h => hdiv (congrArg some h)
    rw [apply, Fraction.make, if_neg hd]
    exact checked_reduced (f := ⟨n, d⟩) (toInt_ne_zero.2 hd)
  | scaleUp n => exact .narrow_bind fun _ _ => checked_ok _
  | scaleDown n =>
    have hn : n ≠ 0 := fun h => hdiv (congrArg some h)
    rw [apply, Fraction.scaleDown, if_neg hn]
    exact .narrow_bind fun _ _ => checked_ok _
  | expand n =>
    have hn : n ≠ 0 := fun h => hdiv (congrArg some h)
    rw [apply, Fraction.expand, if_neg hn]
    exact .narrow_bind fun _ _ => .narrow_bind fun _ _ => checked_ok _
  | reduce => exact checked_reduced hf
  | add g =>
    have hg := hop g rfl
    rw [apply, Fraction.add, integers]
    by_cases heq : f.denominator.toInt = g.denominator.toInt
    · rw [if_pos heq, if_pos heq]
      refine .narrow_bind fun i hi => ?_
      rw [← hi]
      exact checked_reduced (f := ⟨i, f.denominator⟩) hf
    · rw [if_neg heq, if_neg heq]
      refine .narrow_bind fun ad had => .narrow_bind fun cb hcb => ?_
      rw [← had, ← hcb]
      refine .narrow_bind fun i hi => .narrow_bind fun j hj => ?_
      rw [← hi, ← hj]
      exact checked_reduced (f := ⟨i, j⟩) (hj ▸ mul_ne_zero hf hg)
  | multiply g =>
    have hg := hop g rfl
    refine .narrow_bind fun i hi => .narrow_bind fun j hj => ?_
    rw [← hi, ← hj]
    exact checked_reduced (f := ⟨i, j⟩) (hj ▸ mul_ne_zero hf hg)

/-- What is in lowest terms was reduced from a fraction that stands for the exact number. -/
theorem exists_unreduced (hlow : op.lowers = true) (h : op.apply f = .ok g) :
    ∃ r : Fraction, r.Denotes (op.exact f.value) ∧ r.reduced = .ok g := by
  have hv := denotes_value hf
  cases op with
  | make n d =>
    rw [apply, Fraction.make] at h
    split at h
    · cases h
    · rename_i hd
      exact ⟨⟨n, d⟩, denotes_value (toInt_ne_zero.2 hd), h⟩
  | reduce => exact ⟨f, hv, h⟩
  | add k => exact hv.exists_of_add (denotes_value (hop k rfl)) h
  | multiply k =>
    have hk := denotes_value (hop k rfl)
    obtain ⟨i, hi, h⟩ := bind_eq_ok.1 h
    obtain ⟨j, hj, h⟩ := bind_eq_ok.1 h
    rw [narrow_eq_ok] at hi hj
    refine ⟨⟨i, j⟩, ⟨hj ▸ mul_ne_zero hf (hop k rfl), ?_⟩, h⟩
    rw [hi, hj, Int.cast_mul, Int.cast_mul, hv.numerator_eq, hk.numerator_eq, exact]
    exact mul_mul_mul_comm ..
  | scaleUp n => cases hlow
  | scaleDown n => cases hlow
  | expand n => cases hlow

theorem lowest_of_apply (hlow : op.lowers = true) (h : op.apply f = .ok g) : g.Lowest := by
  obtain ⟨r, hr, hg⟩ := exists_unreduced hf hop hlow h
  exact ((reduced_eq_ok_iff hr.denominator_ne).1 hg).2.1

theorem denotes_exact (h : op.apply f = .ok g) : g.Denotes (op.exact f.value) := by
  have hdiv : op.divisor? ≠ some 0 := by
    intro hzero
    rw [apply_of_divisor?_zero hzero] at h
    cases h
  have hv := denotes_value hf
  cases hlow : op.lowers with
  | true =>
    obtain ⟨r, hr, hg⟩ := exists_unreduced hf hop hlow h
    exact hr.reduced hg
  | false =>
    cases op with
    | scaleUp n => exact hv.scaleUp h
    | scaleDown n => exact hv.scaleDown (fun hn => hdiv (congrArg some hn)) h
    | expand n => exact (hv.expand (fun hn => hdiv (congrArg some hn)) h).1
    | make n d => cases hlow
    | reduce => cases hlow
    | add g => cases hlow
    | multiply g => cases hlow

end

/-- The operation gives exactly its number, or nothing because of a zero divisor or of an integer on
the way that does not fit; then a fraction held in place is as it was. -/
structure Exact (op : Operation) (f : Fraction) : Prop where
  performs : ∀ g, op.apply f = .ok g → op.perform.run f = .ok () g
  unchanged : ∀ e, op.apply f = .error e → op.perform.run f = .error e f
  value : ∀ g, op.apply f = .ok g → g.denominator.toInt ≠ 0 ∧ g.value = op.exact f.value
  lowest : op.lowers = true → ∀ g, op.apply f = .ok g → g.Lowest
  divideByZero :
    op.apply f = .error (.malformed .divideByZero) ↔ op.divisor? = some 0
  outOfRange : op.apply f = .error .weightingOutOfRange ↔
    op.divisor? ≠ some 0 ∧ ∃ z ∈ op.integers f, ¬ Fits z
  succeeds : (∃ g, op.apply f = .ok g) ↔ op.divisor? ≠ some 0 ∧ ∀ z ∈ op.integers f, Fits z

theorem exact_of_denominators (hf : f.denominator.toInt ≠ 0)
    (hop : ∀ g ∈ op.operand?, g.denominator.toInt ≠ 0) : op.Exact f := by
  have hperforms : ∀ g, op.apply f = .ok g → op.perform.run f = .ok () g := by
    intro g hg
    rw [run_perform, hg]
    rfl
  have hunchanged : ∀ e, op.apply f = .error e → op.perform.run f = .error e f := by
    intro e he
    rw [run_perform, he]
    rfl
  have hvalue : ∀ g, op.apply f = .ok g →
      g.denominator.toInt ≠ 0 ∧ g.value = op.exact f.value := by
    intro g hg
    have hd := denotes_exact hf hop hg
    exact ⟨hd.denominator_ne, hd.value_eq⟩
  have hlowest : op.lowers = true → ∀ g, op.apply f = .ok g → g.Lowest :=
    fun hlow g hg => lowest_of_apply hf hop hlow hg
  by_cases hdiv : op.divisor? = some 0
  · have he := apply_of_divisor?_zero hdiv f
    exact ⟨hperforms, hunchanged, hvalue, hlowest, by simp [he, hdiv], by simp [he, hdiv],
      by simp [he, hdiv]⟩
  · rcases checked hf hop hdiv with ⟨hfits, g, hg⟩ | ⟨⟨z, hz, hne⟩, he⟩
    · refine ⟨hperforms, hunchanged, hvalue, hlowest, by simp [hg, hdiv], ?_, ?_⟩
      · simpa [hg, hdiv] using hfits
      · exact ⟨fun _ => ⟨hdiv, hfits⟩, fun _ => ⟨g, hg⟩⟩
    · refine ⟨hperforms, hunchanged, hvalue, hlowest, by simp [he, hdiv], ?_, ?_⟩
      · exact ⟨fun _ => ⟨hdiv, z, hz, hne⟩, fun _ => he⟩
      · simpa [he, hdiv] using ⟨z, hz, hne⟩

end Operation

/-- A fraction that the operations make, from zero and one on. -/
inductive Reachable : Fraction → Prop
  | zero : Reachable zero
  | one : Reachable one
  | apply {f g : Fraction} (op : Operation) : Reachable f → (∀ k ∈ op.operand?, Reachable k) →
    op.apply f = .ok g → Reachable g

theorem Reachable.denominator_ne (h : f.Reachable) : f.denominator.toInt ≠ 0 := by
  induction h with
  | zero => decide
  | one => decide
  | apply op _ _ hg ih ihop => exact (op.denotes_exact ih ihop hg).denominator_ne

/-- Every operation on a fraction that was made from zero and one is exact or changes nothing, and what
it gives in lowest terms is told by its number. -/
theorem exact_of_reachable (hf : f.Reachable) :
    f.denominator.toInt ≠ 0 ∧
    ∀ op : Operation, (∀ k ∈ op.operand?, k.Reachable) → op.Exact f ∧
      ∀ (f' : Fraction) (op' : Operation) (g g' : Fraction), f'.Reachable →
        (∀ k ∈ op'.operand?, k.Reachable) → op.lowers = true → op'.lowers = true →
        op.apply f = .ok g → op'.apply f' = .ok g' → (g = g' ↔ g.value = g'.value) := by
  refine ⟨hf.denominator_ne, fun op hop => ?_⟩
  have hexact := op.exact_of_denominators hf.denominator_ne fun k hk => (hop k hk).denominator_ne
  refine ⟨hexact, fun f' op' g g' hf' hop' hlow hlow' hg hg' => ?_⟩
  have hexact' :=
    op'.exact_of_denominators hf'.denominator_ne fun k hk => (hop' k hk).denominator_ne
  exact (hexact.lowest hlow g hg).eq_iff (hexact'.lowest hlow' g' hg')

theorem exact_of_reachable_minus_half : Reachable ⟨2, -4⟩ ∧
    (Operation.add ⟨1, 3⟩).apply ⟨2, -4⟩ = .ok ⟨-1, 6⟩ ∧ value ⟨-1, 6⟩ = value ⟨2, -4⟩ + value ⟨1, 3⟩ ∧
    (Operation.expand Int64.maxValue).perform.run ⟨2, -4⟩
      = .error .weightingOutOfRange ⟨2, -4⟩ := by
  have hdouble : Reachable ⟨2, 1⟩ := .apply (.scaleUp 2) .one (by simp [Operation.operand?])
    (by decide)
  have h : Reachable ⟨2, -4⟩ := .apply (.scaleDown (-4)) hdouble (by simp [Operation.operand?])
    (by decide)
  have hthird : Reachable ⟨1, 3⟩ := .apply (.make 2 6) .zero (by simp [Operation.operand?])
    (by decide +kernel)
  obtain ⟨-, hexact⟩ := exact_of_reachable h
  have hsum : (Operation.add ⟨1, 3⟩).apply ⟨2, -4⟩ = .ok ⟨-1, 6⟩ := by decide +kernel
  have hadd := (hexact (.add ⟨1, 3⟩) (by simpa [Operation.operand?] using hthird)).1
  have hexpand := (hexact (.expand Int64.maxValue) (by simp [Operation.operand?])).1
  exact ⟨h, hsum, (hadd.value _ hsum).2, hexpand.unchanged _ (by decide)⟩

end Fraction

end Reckoner
