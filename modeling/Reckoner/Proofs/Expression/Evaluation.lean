import Reckoner.Proofs.Calculation.Registration
import Reckoner.Proofs.Expression.Application
import Reckoner.Proofs.Expression.Correctness
import Reckoner.Proofs.Expression.Substitution

/-!
# What evaluation can run into

In a tree that was read every call is of a registered calculation that accepts so many arguments
(`Grammar.Chain.callable_build`), whatever is bound in it, so nothing that evaluation applies is refused
for their number (`Expression.Callable.proper`): evaluation divides by zero, or a calculation that is
not built in fails by itself (`Expression.evaluation_of_parse`).
-/

namespace Reckoner

/-- An operator on two operands, or a registered calculation on as many numbers as it accepts. -/
def Application.Proper (r : Registry) (a : Application) : Prop :=
  (∃ (op : Operator) (x y : Float), a = ⟨op.calculation, [x, y]⟩) ∨
    (∃ name, r.lookup name = some a.calculation) ∧ a.calculation.accepts a.args.length = true

namespace Expression

mutual

/-- Every call is of a registered calculation that accepts so many arguments. -/
def Callable (r : Registry) : Expression → Prop
  | constant _ => True
  | quantity _ => True
  | group inner => inner.Callable r
  | call f _ args _ =>
    ((∃ name, r.lookup name = some f) ∧ f.accepts args.length = true) ∧ CallableAll r args
  | chain first rest _ => first.Callable r ∧ CallableRest r rest

def CallableAll (r : Registry) : List Expression → Prop
  | [] => True
  | e :: es => e.Callable r ∧ CallableAll r es

def CallableRest (r : Registry) : List (Operator × Expression) → Prop
  | [] => True
  | (_, e) :: rest => e.Callable r ∧ CallableRest r rest

end

section Callable

variable {r : Registry} {e : Expression} {es : List Expression} {rs : List (Operator × Expression)}

theorem callableAll_iff : CallableAll r es ↔ ∀ e ∈ es, e.Callable r := by
  induction es with
  | nil => simp [CallableAll]
  | cons e es ih => rw [CallableAll, ih, List.forall_mem_cons]

theorem callableRest_iff : CallableRest r rs ↔ ∀ p ∈ rs, p.2.Callable r := by
  induction rs with
  | nil => simp [CallableRest]
  | cons p rs ih => rw [CallableRest, ih, List.forall_mem_cons]

theorem Callable.of_occurs {n : Expression} (h : e.Callable r) (hn : Occurs n e) : n.Callable r := by
  induction hn with
  | self => exact h
  | group _ ih =>
    rw [Callable] at h
    exact ih h
  | arg ha _ ih =>
    rw [Callable] at h
    exact ih (callableAll_iff.1 h.2 _ ha)
  | first _ ih =>
    rw [Callable] at h
    exact ih h.1
  | operand hr _ ih =>
    rw [Callable] at h
    exact ih (callableRest_iff.1 h.2 _ hr)

theorem callable_close (h : e.Callable r) (hrs : CallableRest r rs) : (close e rs).Callable r := by
  rw [close]
  split
  · exact h
  · rw [ofChain, Callable]
    exact ⟨h, hrs⟩

theorem callable_extend {s : Settings} {op : Operator} {operand : Expression}
    {p : Expression × List (Operator × Expression)} (h : e.Callable r) (hrs : CallableRest r rs)
    (ho : operand.Callable r) (hp : s.extend e rs op operand = .ok p) :
    p.1.Callable r ∧ CallableRest r p.2 := by
  rw [Settings.extend] at hp
  split at hp
  · obtain ⟨x, -, hp⟩ := bind_eq_ok.1 hp
    obtain ⟨y, -, hp⟩ := bind_eq_ok.1 hp
    obtain ⟨z, -, hp⟩ := bind_eq_ok.1 hp
    cases hp
    rw [Callable, CallableRest]
    exact ⟨trivial, trivial⟩
  · cases hp
    refine ⟨h, callableRest_iff.2 fun p hp => ?_⟩
    rcases List.mem_append.1 hp with hp | hp
    · exact callableRest_iff.1 hrs p hp
    · rw [List.mem_singleton.1 hp]
      exact ho

variable {env : String → Float}

theorem length_assignAll (es : List Expression) : (assignAll env es).length = es.length := by
  induction es with
  | nil => rw [assignAll]
  | cons e es ih => rw [assignAll, List.length_cons, List.length_cons, ih]

mutual

theorem Callable.assign : {e : Expression} → e.Callable r → (e.assign env).Callable r
  | constant _, h => by rwa [Expression.assign]
  | quantity _, _ => by rw [Expression.assign, Callable]; trivial
  | group _, h => by
    rw [Callable] at h
    rw [Expression.assign, Callable]
    exact h.assign
  | call _ _ _ _, h => by
    rw [Callable] at h
    rw [Expression.assign, Callable, length_assignAll]
    exact ⟨h.1, callableAll_assign h.2⟩
  | chain _ _ _, h => by
    rw [Callable] at h
    rw [Expression.assign, Callable]
    exact ⟨h.1.assign, callableRest_assign h.2⟩

theorem callableAll_assign : {es : List Expression} → CallableAll r es →
    CallableAll r (assignAll env es)
  | [], h => by rwa [assignAll]
  | _ :: _, h => by
    rw [CallableAll] at h
    rw [assignAll, CallableAll]
    exact ⟨h.1.assign, callableAll_assign h.2⟩

theorem callableRest_assign : {rs : List (Operator × Expression)} → CallableRest r rs →
    CallableRest r (assignRest env rs)
  | [], h => by rwa [assignRest]
  | (_, _) :: _, h => by
    rw [CallableRest] at h
    rw [assignRest, CallableRest]
    exact ⟨h.1.assign, callableRest_assign h.2⟩

end

end Callable

section Applications

variable {r : Registry} {a : Application} {α : Type}

theorem mem_after {x : Except SyntaxError α} {next : α → List Application} :
    a ∈ after x next ↔ ∃ v, x = .ok v ∧ a ∈ next v := by
  cases x <;> simp [after]

theorem length_of_values {xs : List Float} : {es : List Expression} → values es = .ok xs →
    xs.length = es.length
  | [], h => by
    rw [values] at h
    cases h
    rfl
  | _ :: es, h => by
    rw [values] at h
    obtain ⟨x, -, h⟩ := bind_eq_ok.1 h
    obtain ⟨xs, hxs, h⟩ := bind_eq_ok.1 h
    cases h
    rw [List.length_cons, List.length_cons, length_of_values hxs]

mutual

/-- Where all calls are callable, so is whatever is applied. -/
theorem Callable.proper : {e : Expression} → e.Callable r → ∀ a ∈ e.applications, a.Proper r
  | constant _, _, a, ha => by
    rw [applications] at ha
    cases ha
  | quantity _, _, a, ha => by
    rw [applications] at ha
    cases ha
  | group _, h, a, ha => by
    rw [Callable] at h
    rw [applications] at ha
    exact h.proper a ha
  | call f _ args _, h, a, ha => by
    rw [Callable] at h
    rw [applications, List.mem_append, mem_after] at ha
    rcases ha with ha | ⟨xs, hxs, ha⟩
    · exact callableAll_proper h.2 a ha
    · rw [List.mem_singleton.1 ha]
      exact .inr ⟨h.1.1, length_of_values hxs ▸ h.1.2⟩
  | chain _ _ _, h, a, ha => by
    rw [Callable] at h
    rw [applications, List.mem_append, mem_after] at ha
    rcases ha with ha | ⟨x, -, ha⟩
    · exact h.1.proper a ha
    · exact callableRest_proper h.2 a ha

theorem callableAll_proper : {es : List Expression} → CallableAll r es →
    ∀ a ∈ applicationsAll es, a.Proper r
  | [], _, a, ha => by
    rw [applicationsAll] at ha
    cases ha
  | _ :: _, h, a, ha => by
    rw [CallableAll] at h
    rw [applicationsAll, List.mem_append, mem_after] at ha
    rcases ha with ha | ⟨_, -, ha⟩
    · exact h.1.proper a ha
    · exact callableAll_proper h.2 a ha

theorem callableRest_proper {acc : Float} : {rs : List (Operator × Expression)} →
    CallableRest r rs → ∀ a ∈ applicationsFrom acc rs, a.Proper r
  | [], _, a, ha => by
    rw [applicationsFrom] at ha
    cases ha
  | (op, _) :: _, h, a, ha => by
    rw [CallableRest] at h
    rw [applicationsFrom, List.mem_append, mem_after] at ha
    rcases ha with ha | ⟨y, -, ha⟩
    · exact h.1.proper a ha
    · rcases List.mem_cons.1 ha with rfl | ha
      · exact .inl ⟨op, acc, y, rfl⟩
      · obtain ⟨z, -, ha⟩ := mem_after.1 ha
        exact callableRest_proper h.2 a ha

end

end Applications

end Expression

namespace Grammar

open Expression

variable {s : Settings}

mutual

theorem Chain.callable_build {t : Tier} {e : Expression} : {d : Chain t} → d.build s = .ok e →
    e.Callable s.registry
  | .mk first rest, h => by
    rw [Chain.build] at h
    obtain ⟨x, hx, h⟩ := bind_eq_ok.1 h
    exact rest.callable_buildFrom (first.callable_build hx) (callableRest_iff.2 (by simp)) h

theorem Tail.callable_buildFrom {t : Tier} {e first : Expression}
    {acc : List (Operator × Expression)} : (d : Tail t) → first.Callable s.registry →
    CallableRest s.registry acc → d.buildFrom s first acc = .ok e → e.Callable s.registry
  | .nil, hfirst, hacc, h => by
    rw [Tail.buildFrom] at h
    cases h
    exact callable_close hfirst hacc
  | .cons op _ operand rest, hfirst, hacc, h => by
    rw [Tail.buildFrom] at h
    obtain ⟨y, hy, h⟩ := bind_eq_ok.1 h
    obtain ⟨p, hp, h⟩ := bind_eq_ok.1 h
    obtain ⟨hfirst, hacc⟩ := callable_extend hfirst hacc (operand.callable_build hy) hp
    exact rest.callable_buildFrom hfirst hacc h

theorem Operand.callable_build {t : Tier} {e : Expression} : (d : Operand t) →
    d.build s = .ok e → e.Callable s.registry
  | .chain _, h => Chain.callable_build h
  | .factor f, h => f.callable_build h

theorem Factor.callable_build {e : Expression} : (d : Factor) → d.build s = .ok e →
    e.Callable s.registry
  | .group _, h => by
    rw [Factor.build] at h
    obtain ⟨e, he, h⟩ := bind_eq_ok.1 h
    cases h
    rw [Callable]
    exact Chain.callable_build he
  | .number _, h => by
    rw [Factor.build] at h
    cases h
    rw [Callable]
    trivial
  | .quantity _ _, h => by
    rw [Factor.build] at h
    cases h
    rw [Callable]
    trivial
  | .call _ name args, h => by
    rw [Factor.build] at h
    split at h
    · cases h
    · rename_i f hf
      obtain ⟨es, hes, h⟩ := bind_eq_ok.1 h
      obtain ⟨_, harity, h⟩ := bind_eq_ok.1 h
      cases h
      rw [ofCall, Callable]
      exact ⟨⟨⟨name.text, hf⟩, checkArity_eq_ok.1 harity⟩, args.callable_build hes⟩

theorem Arguments.callable_build {es : List Expression} : (d : Arguments) → d.build s = .ok es →
    CallableAll s.registry es
  | .last _, h => by
    rw [Arguments.build] at h
    obtain ⟨e, he, h⟩ := bind_eq_ok.1 h
    cases h
    exact callableAll_iff.2 (by simpa using Chain.callable_build he)
  | .cons _ rest, h => by
    rw [Arguments.build] at h
    obtain ⟨e, he, h⟩ := bind_eq_ok.1 h
    obtain ⟨es, hes, h⟩ := bind_eq_ok.1 h
    cases h
    rw [CallableAll]
    exact ⟨Chain.callable_build he, rest.callable_build hes⟩

end

end Grammar

/-- Division apart, an operator has a result. -/
theorem Operator.cases_apply (op : Operator) (x y : Float) :
    (∃ z, op.apply x y = .ok z) ∨ op.apply x y = .error .divideByZero := by
  cases op with
  | divide =>
    by_cases hy : (y == 0) = true
    · exact .inr (if_pos hy)
    · exact .inl ⟨x / y, if_neg hy⟩
  | _ => exact .inl ⟨_, rfl⟩

namespace Calculation

/-- A built-in calculation has a result on every number of arguments that it accepts. -/
theorem exists_body_of_builtin {f : Calculation} (hf : f ∈ builtins) {xs : List Float}
    (h : f.accepts xs.length = true) : ∃ y, f.body xs = .ok y := by
  have hnamed : ∀ name g, (named name g).accepts xs.length = true →
      ∃ y, (named name g).body xs = .ok y := by
    intro name g h
    rw [accepts, Bool.and_eq_true, decide_eq_true_eq, decide_eq_true_eq] at h
    obtain ⟨x, rfl⟩ := List.length_eq_one_iff.1 (Nat.le_antisymm h.2 h.1)
    exact ⟨g x, rfl⟩
  simp only [builtins, List.mem_cons, List.not_mem_nil, or_false] at hf
  rcases hf with rfl | rfl | rfl | rfl | rfl | rfl | rfl | rfl | rfl
  · rw [accepts, Bool.and_eq_true, decide_eq_true_eq, decide_eq_true_eq] at h
    match xs, h with
    | [x], _ => exact ⟨_, rfl⟩
    | [x, n], _ => exact ⟨_, rfl⟩
    | [], h => exact absurd h.1 (by decide)
    | _ :: _ :: _ :: _, h => exact absurd h.2 (by simp [root])
  all_goals exact hnamed _ _ h

end Calculation

theorem Registry.mem_builtins_of_lookup {name : String} {f : Calculation}
    (h : builtin.lookup name = some f) : f ∈ Calculation.builtins := by
  rw [builtin_eq, lookup_registerAll_empty] at h
  exact List.mem_of_find?_eq_some h

namespace Expression

open Text Grammar

variable {r : Registry} {e : Expression}

/-- Whatever is called or applied in the tree gets as many numbers as it takes, so an error is a
division by zero or that of a calculation which is not built in. -/
structure Safe (r : Registry) (e : Expression) : Prop where
  calls : ∀ f coefficient args names, Occurs (call f coefficient args names) e →
    (∃ name, r.lookup name = some f) ∧ f.accepts args.length = true
  proper : ∀ a ∈ e.applications, a.Proper r
  checkArity_eq : ∀ a ∈ e.applications, a.calculation.checkArity a.args.length = .ok ()
  builtins : ∀ a ∈ e.applications, a.calculation ∈ Calculation.builtins → ∃ y, a.result = .ok y
  failure : ∀ err, e.value = .error err ↔ ∃ a ∈ e.applications, a.result = .error err
  error : ∀ err, e.value = .error err → err = .divideByZero ∨
    ∃ a ∈ e.applications, (∃ name, r.lookup name = some a.calculation) ∧
      a.calculation ∉ Calculation.builtins ∧ a.calculation.body a.args = .error err

theorem Callable.safe (h : e.Callable r) : e.Safe r := by
  have hcheck : ∀ a ∈ e.applications, a.calculation.checkArity a.args.length = .ok () := by
    intro a ha
    rcases h.proper a ha with ⟨op, x, y, rfl⟩ | ⟨-, haccepts⟩
    · cases op <;> rfl
    · exact checkArity_eq_ok.2 haccepts
  have hresult : ∀ a ∈ e.applications, a.result = a.calculation.body a.args := by
    intro a ha
    rw [Application.result, Calculation.call, hcheck a ha]
  have hbuiltins : ∀ a ∈ e.applications, a.calculation ∈ Calculation.builtins →
      ∃ y, a.result = .ok y := by
    intro a ha hmem
    rw [hresult a ha]
    exact Calculation.exists_body_of_builtin hmem (checkArity_eq_ok.1 (hcheck a ha))
  refine ⟨fun f k args names hn => ?_, h.proper, hcheck, hbuiltins,
    fun err => value_eq_error_iff e, fun err herr => ?_⟩
  · have := h.of_occurs hn
    rw [Callable] at this
    exact this.1
  · obtain ⟨a, ha, hfails⟩ := (value_eq_error_iff e).1 herr
    rcases h.proper a ha with ⟨op, x, y, rfl⟩ | ⟨hlookup, -⟩
    · left
      rcases op.cases_apply x y with ⟨z, hz⟩ | hz
      · exact absurd (hz.symm.trans hfails) (by simp)
      · exact (Except.error.inj (hz.symm.trans hfails)).symm
    · right
      refine ⟨a, ha, hlookup, fun hmem => ?_, hresult a ha ▸ hfails⟩
      obtain ⟨y, hy⟩ := hbuiltins a ha hmem
      rw [hy] at hfails
      cases hfails

/-- Once a text has been accepted, evaluating its tree under any bindings fails by division by zero or
by a calculation that is not built in, and never for a number of arguments. -/
theorem evaluation_of_parse {text : String} (h : parse r text = .ok e)
    (bindings : List (String × Float)) :
    (bindEach bindings e).Safe r ∧
      (r = .builtin → (∃ x, (bindEach bindings e).value = .ok x) ∨
        (bindEach bindings e).value = .error .divideByZero) := by
  obtain ⟨d, -, hb⟩ := exists_build_of_readWhole h
  have hsafe : (bindEach bindings e).Safe r := by
    rw [(d.expresses_build hb).bindEach_eq]
    exact (d.callable_build hb).assign.safe
  refine ⟨hsafe, ?_⟩
  rintro rfl
  cases hvalue : (bindEach bindings e).value with
  | ok x => exact .inl ⟨x, rfl⟩
  | error err =>
    right
    rcases hsafe.error err hvalue with rfl | ⟨a, -, ⟨name, hname⟩, hne, -⟩
    · rfl
    · exact absurd (Registry.mem_builtins_of_lookup hname) hne

theorem evaluation_of_parse_quotient : ∃ e, parse .builtin "root(4)/x" = .ok e ∧
    (bindEach [("x", 2), ("x", 0)] e).Safe .builtin ∧
    (bindEach [("x", 2), ("x", 0)] e).value = .error .divideByZero := by
  let four : Chain .low := .mk (.chain (.mk (.factor (.number ⟨['4'], rfl⟩)) .nil)) .nil
  let root : Factor := .call none ⟨"root".toList, rfl⟩ (.last four)
  let x : Operand .high := .factor (.quantity none ⟨['x'], rfl⟩)
  let d : Chain .low := .mk (.chain (.mk (.factor root) (.cons .divide rfl x .nil))) .nil
  have hd : d.Renders "root(4)/x" := spaced_of_spells (by decide)
  obtain ⟨e, hb⟩ : ∃ e, d.build { registry := .builtin } = .ok e := ⟨_, rfl⟩
  have h : parse .builtin "root(4)/x" = .ok e := (readWhole_of_renders hd).trans hb
  obtain ⟨hsafe, -⟩ := evaluation_of_parse h [("x", 2), ("x", 0)]
  refine ⟨e, h, hsafe, ?_⟩
  rw [(d.expresses_build hb).value_bindEach]
  rfl

end Expression

end Reckoner
