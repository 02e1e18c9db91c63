import Reckoner.Proofs.Grade.Operations

/-!
# Fractions held one after another

Operations that give lowest terms move the sign to the numerator, those that multiply the denominator
leave it where it comes to stand. So the denominators of the fractions that are held one after another
are all positive just if the first one is and nothing is divided or expanded by a negative number
(`Fraction.forall_held_iff`).
-/

namespace Reckoner

namespace Fraction

namespace Operation

/-- What the operation multiplies the denominator by, the terms not being lowered after that. -/
def below? : Operation → Option Int64
  | scaleDown n => some n
  | expand n => some n
  | make .. | scaleUp _ | reduce | add _ | multiply _ => none

/-- The operation has a result and turns the sign of the denominator. -/
def Negates (op : Operation) (f : Fraction) : Prop :=
  (∃ n ∈ op.below?, n.toInt < 0) ∧ ∃ g, op.apply f = .ok g

/-- The fraction that is held in place when the operation has been performed or has failed. -/
def after (op : Operation) (f : Fraction) : Fraction :=
  match op.perform.run f with
  | .ok _ g => g
  | .error _ g => g

variable {op : Operation} {f g : Fraction}

theorem after_of_ok (h : op.apply f = .ok g) : op.after f = g := by
  rw [after, run_perform, h]
  rfl

theorem after_of_error {e : GradeError} (h : op.apply f = .error e) : op.after f = f := by
  rw [after, run_perform, h]
  rfl

theorem denominator_of_mem_below? {n : Int64} (hn : n ∈ op.below?) (h : op.apply f = .ok g) :
    g.denominator.toInt = f.denominator.toInt * n.toInt := by
  cases op with
  | scaleDown m =>
    obtain rfl := Option.some.inj hn
    rw [apply, Fraction.scaleDown] at h
    split at h
    · cases h
    · obtain ⟨d, hd, h⟩ := bind_eq_ok.1 h
      obtain rfl := Except.ok.inj h
      exact narrow_eq_ok.1 hd
  | expand m =>
    obtain rfl := Option.some.inj hn
    rw [apply, Fraction.expand] at h
    split at h
    · cases h
    · obtain ⟨_, -, h⟩ := bind_eq_ok.1 h
      obtain ⟨d, hd, h⟩ := bind_eq_ok.1 h
      obtain rfl := Except.ok.inj h
      exact narrow_eq_ok.1 hd
  | make n d => cases hn
  | scaleUp n => cases hn
  | reduce => cases hn
  | add g => cases hn
  | multiply g => cases hn

theorem denominator_pos_of_below?_eq_none (hf : 0 < f.denominator.toInt)
    (hop : ∀ k ∈ op.operand?, k.denominator.toInt ≠ 0) (hn : op.below? = none)
    (h : op.apply f = .ok g) : 0 < g.denominator.toInt := by
  cases hlow : op.lowers with
  | true => exact (lowest_of_apply hf.ne' hop hlow h).denominator_pos
  | false =>
    cases op with
    | scaleUp n =>
      obtain ⟨i, -, h⟩ := bind_eq_ok.1 h
      obtain rfl := Except.ok.inj h
      exact hf
    | scaleDown n => cases hn
    | expand n => cases hn
    | make n d => cases hlow
    | reduce => cases hlow
    | add g => cases hlow
    | multiply g => cases hlow

/-- One operation keeps a denominator positive unless it turns its sign. -/
theorem after_pos_iff (hf : 0 < f.denominator.toInt)
    (hop : ∀ k ∈ op.operand?, k.denominator.toInt ≠ 0) :
    0 < (op.after f).denominator.toInt ↔ ¬ op.Negates f := by
  cases h : op.apply f with
  | error e => simpa [after_of_error h, Negates, h] using hf
  | ok g =>
    rw [after_of_ok h]
    cases hn : op.below? with
    | none => simpa [Negates, hn] using denominator_pos_of_below?_eq_none hf hop hn h
    | some n =>
      have hden := denominator_of_mem_below? hn h
      have hne : n.toInt ≠ 0 := by
        intro h0
        rw [h0, mul_zero] at hden
        exact (denotes_exact hf.ne' hop h).denominator_ne hden
      rw [hden, mul_pos_iff_of_pos_left hf]
      have hneg : op.Negates f ↔ n.toInt < 0 := by
        simp [Negates, hn, h]
      rw [hneg]
      omega

end Operation

/-- The fractions that are held one after another when the operations are performed. -/
def held (f : Fraction) : List Operation → List Fraction
  | [] => [f]
  | op :: ops => f :: held (op.after f) ops

/-- No operation turns the sign of the denominator that it finds. -/
def Straight (f : Fraction) : List Operation → Prop
  | [] => True
  | op :: ops => ¬ op.Negates f ∧ Straight (op.after f) ops

variable {f : Fraction} {ops : List Operation}

theorem forall_held_iff (hops : ∀ op ∈ ops, ∀ k ∈ op.operand?, k.denominator.toInt ≠ 0) :
    (∀ g ∈ held f ops, 0 < g.denominator.toInt) ↔ 0 < f.denominator.toInt ∧ Straight f ops := by
  induction ops generalizing f with
  | nil => simp [held, Straight]
  | cons op ops ih =>
    obtain ⟨hop, hops⟩ := List.forall_mem_cons.1 hops
    rw [held, List.forall_mem_cons, Straight, ih hops]
    constructor
    · rintro ⟨hf, hafter, hrest⟩
      exact ⟨hf, (Operation.after_pos_iff hf hop).1 hafter, hrest⟩
    · rintro ⟨hf, hstraight, hrest⟩
      exact ⟨hf, (Operation.after_pos_iff hf hop).2 hstraight, hrest⟩

/-- Expanding by positive numbers turns no sign. -/
theorem held_expand_pos {ds : List Int64} (hf : 0 < f.denominator.toInt)
    (hds : ∀ d ∈ ds, 0 < d.toInt) : ∀ g ∈ held f (ds.map .expand), 0 < g.denominator.toInt := by
  refine (forall_held_iff ?_).2 ⟨hf, ?_⟩
  · simp [Operation.operand?]
  · clear hf
    induction ds generalizing f with
    | nil => trivial
    | cons d ds ih =>
      obtain ⟨hd, hds⟩ := List.forall_mem_cons.1 hds
      refine ⟨?_, ih hds⟩
      rintro ⟨⟨n, hn, hneg⟩, -⟩
      obtain rfl := Option.some.inj hn
      omega

theorem add_pos {g h : Fraction} (hf : 0 < f.denominator.toInt) (hg : 0 < g.denominator.toInt)
    (hh : f.add g = .ok h) : 0 < h.denominator.toInt := by
  have hop : ∀ k ∈ (Operation.add g).operand?, k.denominator.toInt ≠ 0 := by
    intro k hk
    obtain rfl := Option.some.inj hk
    exact hg.ne'
  exact Operation.denominator_pos_of_below?_eq_none hf hop rfl hh

end Fraction

end Reckoner
