import Reckoner.Proofs.Expression.Meaning

/-!
# Which derivations have expressions

Building succeeds if every call is possible and, where operands are combined, those that lead a chain
without names have a value (`Chain.exists_build_iff`). A derivation with a value under some
environment has them (`Chain.foldable_of_eval`), so what combining refuses has no value at all.
-/

namespace Reckoner

open Expression

namespace Grammar

variable {s : Settings}

theorem and_and_imp_and {p q p' q' folds : Prop} :
    (p ∧ p') ∧ (folds → q ∧ q') ↔ (p ∧ (folds → q)) ∧ p' ∧ (folds → q') := by
  grind

theorem extend_of_not_foldable {first operand : Expression} {acc : List (Operator × Expression)}
    {op : Operator}
    (h : (s.folds && acc.isEmpty && first.isConstant && operand.isConstant) = false) :
    s.extend first acc op operand = .ok (first, acc ++ [(op, operand)]) := by
  rw [Settings.extend, h]
  rfl

theorem extend_of_foldable {first operand : Expression} {op : Operator} (hs : s.folds = true)
    (h : first.isConstant = true) (h' : operand.isConstant = true) :
    s.extend first [] op operand =
      (first.value >>= fun x => operand.value >>= fun y => op.apply x y) >>= fun z =>
        .ok (constant z, []) := by
  rw [Settings.extend, hs, h, h', bind_assoc_except]
  simp only [bind_assoc_except]
  rfl

theorem Expresses.isConstant_iff {t : Tier} {d : Operand t} {e : Expression}
    {f : (String → Float) → Except SyntaxError Float} (h : Expresses e d.variables f) :
    e.isConstant = true ↔ d.isClosed = true := by
  rw [h.listed.isConstant_iff, h.leaves_eq, Operand.isClosed, List.isEmpty_iff]

/-- The value of an operand without names is that of its expression. -/
theorem Expresses.value_eq_of_isClosed {t : Tier} {d : Operand t} {e : Expression}
    {f : (String → Float) → Except SyntaxError Float} (h : Expresses e d.variables f)
    (hd : d.isClosed = true) (env : String → Float) : e.value = f env := by
  rw [Operand.isClosed, List.isEmpty_iff] at hd
  rw [hd] at h
  exact h.value_eq env

theorem checkArity_eq_ok {f : Calculation} {n : Nat} :
    f.checkArity n = .ok () ↔ f.accepts n = true := by
  rw [Calculation.checkArity]
  split <;> simp_all

theorem Arguments.length_of_build {es : List Expression} (d : Arguments) (h : d.build s = .ok es) :
    es.length = d.count := by
  cases d with
  | last arg =>
    rw [Arguments.build] at h
    obtain ⟨e, he, h⟩ := bind_eq_ok.1 h
    cases h
    rfl
  | cons arg rest =>
    rw [Arguments.build] at h
    obtain ⟨e, he, h⟩ := bind_eq_ok.1 h
    obtain ⟨es, hes, h⟩ := bind_eq_ok.1 h
    cases h
    rw [List.length_cons, rest.length_of_build hes, Arguments.count]

mutual

theorem Chain.exists_build_iff {t : Tier} : (d : Chain t) →
    ((∃ e, d.build s = .ok e) ↔ d.Callable s.registry ∧ (s.folds = true → d.Foldable s.registry))
  | .mk first rest => by
    have ho := first.exists_build_iff
    rw [Chain.build, Chain.Callable, Chain.Foldable, exists_bind_iff]
    rcases hbuild : first.build s with err | x
    · rw [hbuild] at ho
      simp only [reduceCtorEq, exists_false, false_iff] at ho
      constructor
      · simp
      · exact fun h => absurd ⟨h.1.1, fun hs => (h.2 hs).2.1⟩ ho
    have hx := first.expresses_build hbuild
    rw [hbuild] at ho
    have ho := ho.1 ⟨x, rfl⟩
    simp only [Except.ok.injEq, exists_eq_left', ho.1, true_and]
    by_cases hfold : s.folds = true ∧ first.isClosed = true
    · obtain ⟨hs, hclosed⟩ := hfold
      have hlead : LeadingEvaluates s.registry first rest ↔ (rest.leading ≠ .nil →
          ∃ z, ∀ env, (x.value >>= rest.leading.evalFrom s.registry env) = .ok z) := by
        have hval := hx.value_eq_of_isClosed hclosed
        simp only [LeadingEvaluates, hclosed, true_implies, Chain.eval, ← hval]
      rw [rest.exists_buildFrom_iff_of_folds hs (hx.isConstant_iff.2 hclosed), hlead]
      simp only [hs, true_implies, ho.2 hs, true_and]
      grind
    · have hlead : s.folds = true → LeadingEvaluates s.registry first rest :=
        fun hs hclosed => absurd ⟨hs, hclosed⟩ hfold
      have hopen : (s.folds && ([] : List (Operator × Expression)).isEmpty && x.isConstant) = false := by
        rw [← Bool.not_eq_true]
        simpa [hx.isConstant_iff] using hfold
      rw [rest.exists_buildFrom_iff hopen]
      grind

/-- Once an operand cannot be combined, none behind it is. -/
theorem Tail.exists_buildFrom_iff {t : Tier} {e : Expression} {acc : List (Operator × Expression)} :
    (d : Tail t) → (s.folds && acc.isEmpty && e.isConstant) = false →
    ((∃ e', d.buildFrom s e acc = .ok e') ↔
      d.Callable s.registry ∧ (s.folds = true → d.Foldable s.registry))
  | .nil, h => by
    simp [Tail.buildFrom, Tail.Callable, Tail.Foldable]
  | .cons op _ operand rest, h => by
    rw [Tail.buildFrom, Tail.Callable, Tail.Foldable, exists_bind_iff, and_and_imp_and,
      ← operand.exists_build_iff]
    constructor
    · rintro ⟨y, hy, h'⟩
      rw [extend_of_not_foldable (by rw [h]; rfl), ok_bind, rest.exists_buildFrom_iff (by simp)] at h'
      exact ⟨⟨y, hy⟩, h'⟩
    · rintro ⟨⟨y, hy⟩, h'⟩
      refine ⟨y, hy, ?_⟩
      rwa [extend_of_not_foldable (by rw [h]; rfl), ok_bind, rest.exists_buildFrom_iff (by simp)]

/-- While operands are combined, the leading ones must have a value. -/
theorem Tail.exists_buildFrom_iff_of_folds {t : Tier} {e : Expression} : (d : Tail t) →
    s.folds = true → e.isConstant = true →
    ((∃ e', d.buildFrom s e [] = .ok e') ↔ (d.Callable s.registry ∧ d.Foldable s.registry) ∧
      (d.leading ≠ .nil →
        ∃ z, ∀ env, (e.value >>= d.leading.evalFrom s.registry env) = .ok z))
  | .nil, hs, h => by
    simp [Tail.buildFrom, Tail.Callable, Tail.Foldable, Tail.leading]
  | .cons op htier operand rest, hs, h => by
    have ho := operand.exists_build_iff
    rw [Tail.buildFrom, Tail.Callable, Tail.Foldable, exists_bind_iff]
    rcases hbuild : operand.build s with err | y
    · rw [hbuild] at ho
      have ho : ¬ (operand.Callable s.registry ∧ operand.Foldable s.registry) := by
        simpa [hs] using ho
      constructor
      · simp
      · exact fun h => absurd ⟨h.1.1.1, h.1.2.1⟩ ho
    have ho : operand.Callable s.registry ∧ operand.Foldable s.registry := by
      simpa [hbuild, hs] using ho
    have hy := operand.expresses_build hbuild
    simp only [Except.ok.injEq, exists_eq_left', ho.1, ho.2, true_and]
    rw [Tail.leading]
    by_cases hclosed : operand.isClosed = true
    · have hz : ∀ env, (e.value >>= (Tail.cons op htier operand rest.leading).evalFrom s.registry env)
          = (e.value >>= fun x => y.value >>= fun v => op.apply x v) >>=
            rest.leading.evalFrom s.registry env := by
        intro env
        rw [hy.value_eq_of_isClosed hclosed env]
        simp only [bind_assoc_except, Tail.evalFrom]
      rw [extend_of_foldable hs h (hy.isConstant_iff.2 hclosed), if_pos hclosed]
      simp only [hz]
      rcases (e.value >>= fun x => y.value >>= fun v => op.apply x v) with err | z
      · simp
      · rw [ok_bind, ok_bind, rest.exists_buildFrom_iff_of_folds hs rfl]
        simp only [value, ok_bind]
        rcases rest.leading with _ | _
        · simp [Tail.evalFrom]
        · simp
    · have hconst : y.isConstant = false := by
        rw [← Bool.not_eq_true, hy.isConstant_iff]
        exact hclosed
      rw [extend_of_not_foldable (by rw [hconst, Bool.and_false]), ok_bind, if_neg hclosed,
        rest.exists_buildFrom_iff (by simp)]
      simp [hs]

theorem Operand.exists_build_iff {t : Tier} : (d : Operand t) →
    ((∃ e, d.build s = .ok e) ↔ d.Callable s.registry ∧ (s.folds = true → d.Foldable s.registry))
  | .chain c => c.exists_build_iff
  | .factor f => f.exists_build_iff

theorem Factor.exists_build_iff : (d : Factor) →
    ((∃ e, d.build s = .ok e) ↔ d.Callable s.registry ∧ (s.folds = true → d.Foldable s.registry))
  | .group inner => by
    rw [Factor.Callable, Factor.Foldable, ← inner.exists_build_iff, Factor.build, exists_bind_iff]
    simp
  | .number n => by
    simp [Factor.build, Factor.Callable, Factor.Foldable]
  | .quantity k name => by
    simp [Factor.build, Factor.Callable, Factor.Foldable]
  | .call k name args => by
    rw [Factor.build, Factor.Callable, Factor.Foldable]
    rcases hf : s.registry.lookup name.text with _ | f
    · simp
    rw [exists_bind_iff, and_assoc, ← args.exists_build_iff]
    constructor
    · rintro ⟨es, hes, h⟩
      obtain ⟨_, h, -⟩ := exists_bind_iff.1 h
      refine ⟨⟨f, rfl, ?_⟩, es, hes⟩
      rwa [← args.length_of_build hes, ← checkArity_eq_ok]
    · rintro ⟨⟨f', hf', hcount⟩, es, hes⟩
      cases hf'
      rw [← args.length_of_build hes, ← checkArity_eq_ok] at hcount
      refine ⟨es, hes, ?_⟩
      rw [hcount]
      exact ⟨_, rfl⟩

theorem Arguments.exists_build_iff : (d : Arguments) →
    ((∃ e, d.build s = .ok e) ↔ d.Callable s.registry ∧ (s.folds = true → d.Foldable s.registry))
  | .last arg => by
    rw [Arguments.Callable, Arguments.Foldable, ← arg.exists_build_iff, Arguments.build,
      exists_bind_iff]
    simp
  | .cons arg rest => by
    rw [Arguments.Callable, Arguments.Foldable, Arguments.build, and_and_imp_and,
      ← arg.exists_build_iff, ← rest.exists_build_iff, exists_bind_iff]
    simp only [exists_bind_iff]
    simp

end

theorem Tail.variables_leading {t : Tier} : (d : Tail t) → d.leading.variables = []
  | .nil => rfl
  | .cons op h operand rest => by
    rw [Tail.leading]
    split
    · rename_i hclosed
      rw [Operand.isClosed, List.isEmpty_iff] at hclosed
      rw [Tail.variables, hclosed, rest.variables_leading, List.append_nil]
    · rfl

section Value

variable {r : Registry} {env : String → Float}

theorem Tail.callable_leading {t : Tier} : (d : Tail t) → d.Callable r → d.leading.Callable r
  | .nil, h => h
  | .cons op htier operand rest, h => by
    rw [Tail.Callable] at h
    rw [Tail.leading]
    split
    · rw [Tail.Callable]
      exact ⟨h.1, rest.callable_leading h.2⟩
    · rw [Tail.Callable]
      trivial

/-- A chain with a value has one at each operand on the way. -/
theorem Tail.exists_evalFrom_leading {t : Tier} {x z : Float} : (d : Tail t) →
    d.evalFrom r env x = .ok z → ∃ y, d.leading.evalFrom r env x = .ok y
  | .nil, h => ⟨z, h⟩
  | .cons op htier operand rest, h => by
    rw [Tail.leading]
    split
    · rw [Tail.evalFrom] at h ⊢
      obtain ⟨v, hv, h⟩ := bind_eq_ok.1 h
      obtain ⟨w, hw, h⟩ := bind_eq_ok.1 h
      rw [hv, ok_bind, hw, ok_bind]
      exact rest.exists_evalFrom_leading h
    · exact ⟨x, rfl⟩

/-- Without names, the value is the same in all environments. -/
theorem Chain.eval_eq_of_variables_eq_nil {t : Tier} {d : Chain t} (hd : d.variables = [])
    (hc : d.Callable r) (env env' : String → Float) : d.eval r env = d.eval r env' := by
  obtain ⟨e, he⟩ := (d.exists_build_iff (s := ⟨r, false⟩)).2 ⟨hc, by simp⟩
  have h := d.expresses_build he
  rw [hd] at h
  rw [← h.value_eq env, h.value_eq env']

theorem leadingEvaluates_of_eval {t : Tier} {first : Operand t} {rest : Tail t} {z : Float}
    (hc : (Chain.mk first rest).Callable r) (h : (Chain.mk first rest).eval r env = .ok z) :
    LeadingEvaluates r first rest := by
  intro hclosed _
  rw [Chain.Callable] at hc
  rw [Chain.eval] at h
  obtain ⟨x, hx, h⟩ := bind_eq_ok.1 h
  obtain ⟨y, hy⟩ := rest.exists_evalFrom_leading h
  have hvars : (Chain.mk first rest.leading).variables = [] := by
    rw [Operand.isClosed, List.isEmpty_iff] at hclosed
    rw [Chain.variables, hclosed, rest.variables_leading, List.append_nil]
  have hcall : (Chain.mk first rest.leading).Callable r := by
    rw [Chain.Callable]
    exact ⟨hc.1, rest.callable_leading hc.2⟩
  refine ⟨y, fun env' => ?_⟩
  rw [Chain.eval_eq_of_variables_eq_nil hvars hcall env' env, Chain.eval, hx, ok_bind, hy]

mutual

/-- With a value, leading operands without names have one. -/
theorem Chain.foldable_of_eval {t : Tier} {z : Float} : (d : Chain t) → d.Callable r →
    d.eval r env = .ok z → d.Foldable r
  | .mk first rest, hc, h => by
    have hlead := leadingEvaluates_of_eval hc h
    rw [Chain.Callable] at hc
    rw [Chain.eval] at h
    obtain ⟨x, hx, h⟩ := bind_eq_ok.1 h
    rw [Chain.Foldable]
    exact ⟨hlead, first.foldable_of_eval hc.1 hx, rest.foldable_of_evalFrom hc.2 h⟩

theorem Tail.foldable_of_evalFrom {t : Tier} {x z : Float} : (d : Tail t) → d.Callable r →
    d.evalFrom r env x = .ok z → d.Foldable r
  | .nil, _, _ => by
    rw [Tail.Foldable]
    trivial
  | .cons _ _ operand rest, hc, h => by
    rw [Tail.Callable] at hc
    rw [Tail.evalFrom] at h
    obtain ⟨y, hy, h⟩ := bind_eq_ok.1 h
    obtain ⟨w, -, h⟩ := bind_eq_ok.1 h
    rw [Tail.Foldable]
    exact ⟨operand.foldable_of_eval hc.1 hy, rest.foldable_of_evalFrom hc.2 h⟩

theorem Operand.foldable_of_eval {t : Tier} {z : Float} : (d : Operand t) → d.Callable r →
    d.eval r env = .ok z → d.Foldable r
  | .chain c, hc, h => c.foldable_of_eval hc h
  | .factor f, hc, h => f.foldable_of_eval hc h

theorem Factor.foldable_of_eval {z : Float} : (d : Factor) → d.Callable r →
    d.eval r env = .ok z → d.Foldable r
  | .group inner, hc, h => inner.foldable_of_eval hc h
  | .number _, _, _ => by
    rw [Factor.Foldable]
    trivial
  | .quantity _ _, _, _ => by
    rw [Factor.Foldable]
    trivial
  | .call k name args, hc, h => by
    rw [Factor.Callable] at hc
    rw [Factor.eval] at h
    split at h
    · cases h
    · obtain ⟨xs, hxs, -⟩ := bind_eq_ok.1 h
      rw [Factor.Foldable]
      exact args.foldable_of_eval hc.2 hxs

theorem Arguments.foldable_of_eval {xs : List Float} : (d : Arguments) → d.Callable r →
    d.eval r env = .ok xs → d.Foldable r
  | .last arg, hc, h => by
    rw [Arguments.eval] at h
    obtain ⟨x, hx, -⟩ := bind_eq_ok.1 h
    exact arg.foldable_of_eval hc hx
  | .cons arg rest, hc, h => by
    rw [Arguments.Callable] at hc
    rw [Arguments.eval] at h
    obtain ⟨x, hx, h⟩ := bind_eq_ok.1 h
    obtain ⟨xs, hxs, -⟩ := bind_eq_ok.1 h
    rw [Arguments.Foldable]
    exact ⟨arg.foldable_of_eval hc.1 hx, rest.foldable_of_eval hc.2 hxs⟩

end

end Value

end Grammar

end Reckoner
