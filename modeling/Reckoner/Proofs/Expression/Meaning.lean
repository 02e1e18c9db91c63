import Reckoner.Proofs.Expression.Binding
import Reckoner.Proofs.Expression.Construction

/-!
# The meaning of expressions

The expression of a derivation has the names and the values of the derivation, whether leading
operands without names were combined or not (`Chain.expresses_build`).
-/

namespace Reckoner

open Expression

namespace Grammar

/-- The expression has the names of a derivation, nothing is bound in it, and once the names have
values it has the value of the derivation. -/
structure Expresses (e : Expression) (names : List String)
    (f : (String → Float) → Except SyntaxError Float) : Prop where
  leaves_eq : e.leaves = names
  listed : e.Listed
  fresh : e.assign (fun _ => 0) = e
  value_assign : ∀ env, (e.assign env).value = f env

/-- The same of a chain that has come to `first` and `acc`. -/
structure Gathered (first : Expression) (acc : List (Operator × Expression)) (names : List String)
    (f : (String → Float) → Except SyntaxError Float) : Prop where
  leaves_eq : first.leaves ++ leavesRest acc = names
  listed : first.Listed
  listedRest : ListedRest acc
  fresh : first.assign (fun _ => 0) = first
  freshRest : assignRest (fun _ => 0) acc = acc
  value_assign : ∀ env, ((first.assign env).value >>= fun x => valueFrom x (assignRest env acc))
    = f env

/-- The same of the arguments of a call. -/
structure ExpressesAll (es : List Expression) (names : List String)
    (f : (String → Float) → Except SyntaxError (List Float)) : Prop where
  leaves_eq : leavesAll es = names
  listed : ListedAll es
  fresh : assignAll (fun _ => 0) es = es
  values_assign : ∀ env, values (assignAll env es) = f env

section

variable {e first operand : Expression} {acc : List (Operator × Expression)}
  {names names' : List String} {f g : (String → Float) → Except SyntaxError Float}

/-- Without names, the value is there from the start. -/
theorem Expresses.value_eq (h : Expresses e [] f) (env : String → Float) : e.value = f env := by
  have hnames : ∀ n ∈ e.leaves, 0 = env n := by
    rw [h.leaves_eq]
    simp
  rw [← h.value_assign env, ← assign_congr hnames, h.fresh]

theorem Expresses.gathered (h : Expresses e names f) : Gathered e [] names f where
  leaves_eq := by rw [leavesRest, List.append_nil, h.leaves_eq]
  listed := h.listed
  listedRest := by rw [ListedRest]; trivial
  fresh := h.fresh
  freshRest := by rw [assignRest]
  value_assign env := by
    rw [h.value_assign]
    simp only [assignRest, valueFrom]
    cases f env <;> rfl

theorem expresses_constant (x : Float) : Expresses (constant x) [] fun _ => .ok x where
  leaves_eq := by rw [leaves]
  listed := by rw [Listed]; trivial
  fresh := by rw [assign]
  value_assign env := by rw [assign, value]

theorem Gathered.close (h : Gathered first acc names f) :
    Expresses (Expression.close first acc) names f := by
  obtain ⟨hl, hn, hnr, hf, hfr, hv⟩ := h
  rw [Expression.close]
  split
  · rename_i hacc
    rw [List.isEmpty_iff] at hacc
    subst hacc
    rw [leavesRest, List.append_nil] at hl
    refine ⟨hl, hn, hf, fun env => ?_⟩
    rw [← hv env]
    simp only [assignRest, valueFrom]
    cases (first.assign env).value <;> rfl
  · refine ⟨?_, listed_ofChain hn hnr, ?_, fun env => ?_⟩
    · rw [ofChain, leaves, hl]
    · rw [ofChain, assign, hf, hfr]
    · rw [ofChain, assign, value, hv env]

/-- Two operands without names come to their value at once. -/
theorem Expresses.combine {op : Operator} {z : Float} (h : Expresses first [] f)
    (ho : Expresses operand [] g)
    (hz : (first.value >>= fun x => operand.value >>= fun y => op.apply x y) = .ok z) :
    Expresses (constant z) [] (fun env => f env >>= fun x => g env >>= fun y => op.apply x y) := by
  have hf : ∀ env, (f env >>= fun x => g env >>= fun y => op.apply x y) = .ok z := by
    intro env
    rw [← hz, h.value_eq env, ho.value_eq env]
  refine ⟨(expresses_constant z).leaves_eq, (expresses_constant z).listed,
    (expresses_constant z).fresh, fun env => ?_⟩
  rw [hf env, assign, value]

/-- An operand joins the chain. -/
theorem Gathered.append {op : Operator} (h : Gathered first acc names f)
    (ho : Expresses operand names' g) : Gathered first (acc ++ [(op, operand)]) (names ++ names')
      (fun env => f env >>= fun x => g env >>= fun y => op.apply x y) := by
  obtain ⟨hl, hn, hnr, hf, hfr, hv⟩ := h
  refine ⟨?_, hn, ?_, hf, ?_, fun env => ?_⟩
  · rw [leavesRest_append, leavesRest, leavesRest, List.append_nil, ← List.append_assoc, hl,
      ho.leaves_eq]
  · rw [listedRest_append, ListedRest, ListedRest]
    exact ⟨hnr, ho.listed, trivial⟩
  · rw [assignRest_append, hfr, assignRest, assignRest, ho.fresh]
  · rw [← hv env, ← ho.value_assign env, assignRest_append]
    simp only [valueFrom_append, assignRest, valueFrom, bind_assoc_except, bind_ok]

theorem Gathered.extend {s : Settings} {op : Operator}
    {p : Expression × List (Operator × Expression)} (h : Gathered first acc names f)
    (ho : Expresses operand names' g) (hp : s.extend first acc op operand = .ok p) :
    Gathered p.1 p.2 (names ++ names')
      (fun env => f env >>= fun x => g env >>= fun y => op.apply x y) := by
  rw [Settings.extend] at hp
  split at hp
  · rename_i hc
    simp only [Bool.and_eq_true, List.isEmpty_iff, h.listed.isConstant_iff,
      ho.listed.isConstant_iff] at hc
    obtain ⟨⟨⟨-, rfl⟩, hfirst⟩, hoperand⟩ := hc
    have hnames : names = [] := by
      rw [← h.leaves_eq, hfirst]
      rfl
    have hnames' : names' = [] := by rw [← ho.leaves_eq, hoperand]
    subst hnames hnames'
    have hfirst : Expresses first [] f := h.close
    obtain ⟨x, hx, hp⟩ := bind_eq_ok.1 hp
    obtain ⟨y, hy, hp⟩ := bind_eq_ok.1 hp
    obtain ⟨z, hz, hp⟩ := bind_eq_ok.1 hp
    cases hp
    refine (hfirst.combine ho ?_).gathered
    rw [hx, hy, ok_bind, ok_bind, hz]
  · cases hp
    exact h.append ho

end

variable {s : Settings}

mutual

theorem Chain.expresses_build {t : Tier} {e : Expression} : {d : Chain t} → d.build s = .ok e →
    Expresses e d.variables fun env => d.eval s.registry env
  | .mk first rest, h => by
    rw [Chain.build] at h
    obtain ⟨x, hx, h⟩ := bind_eq_ok.1 h
    exact rest.expresses_buildFrom (first.expresses_build hx).gathered h

theorem Tail.expresses_buildFrom {t : Tier} {e first : Expression}
    {acc : List (Operator × Expression)} {names : List String}
    {f : (String → Float) → Except SyntaxError Float} :
    (d : Tail t) → Gathered first acc names f → d.buildFrom s first acc = .ok e →
    Expresses e (names ++ d.variables) fun env => f env >>= d.evalFrom s.registry env
  | .nil, hg, h => by
    rw [Tail.buildFrom] at h
    cases h
    have := hg.close
    refine ⟨?_, this.listed, this.fresh, fun env => ?_⟩
    · rw [this.leaves_eq, Tail.variables, List.append_nil]
    · rw [this.value_assign]
      simp only [Tail.evalFrom]
      cases f env <;> rfl
  | .cons op _ operand rest, hg, h => by
    rw [Tail.buildFrom] at h
    obtain ⟨y, hy, h⟩ := bind_eq_ok.1 h
    obtain ⟨p, hp, h⟩ := bind_eq_ok.1 h
    have := rest.expresses_buildFrom (hg.extend (operand.expresses_build hy) hp) h
    refine ⟨?_, this.listed, this.fresh, fun env => ?_⟩
    · rw [this.leaves_eq, Tail.variables, List.append_assoc]
    · rw [this.value_assign]
      simp only [Tail.evalFrom, bind_assoc_except]

theorem Operand.expresses_build {t : Tier} {e : Expression} : (d : Operand t) →
    d.build s = .ok e → Expresses e d.variables fun env => d.eval s.registry env
  | .chain c, h => c.expresses_build h
  | .factor f, h => f.expresses_build h

theorem Factor.expresses_build {e : Expression} : (d : Factor) → d.build s = .ok e →
    Expresses e d.variables fun env => d.eval s.registry env
  | .group inner, h => by
    rw [Factor.build] at h
    obtain ⟨e, he, h⟩ := bind_eq_ok.1 h
    cases h
    obtain ⟨hl, hn, hf, hv⟩ := inner.expresses_build he
    refine ⟨?_, ?_, ?_, fun env => ?_⟩
    · rw [leaves, hl, Factor.variables]
    · rwa [Listed]
    · rw [assign, hf]
    · rw [assign, value, hv env, Factor.eval]
  | .number n, h => by
    rw [Factor.build] at h
    cases h
    simp only [Factor.variables, Factor.eval]
    exact expresses_constant n.value
  | .quantity k name, h => by
    rw [Factor.build] at h
    cases h
    refine ⟨?_, ?_, ?_, fun env => ?_⟩
    · rw [leaves, Factor.variables, Quantity.free]
    · rw [Listed]
      trivial
    · rw [assign, Quantity.free]
    · rw [assign, value, Factor.eval, Quantity.value, Quantity.free, scale]
  | .call k name args, h => by
    rw [Factor.build] at h
    split at h
    · cases h
    · rename_i fn hlookup
      obtain ⟨es, hes, h⟩ := bind_eq_ok.1 h
      obtain ⟨_, -, h⟩ := bind_eq_ok.1 h
      cases h
      obtain ⟨hl, hn, hf, hv⟩ := args.expresses_build hes
      refine ⟨?_, listed_ofCall hn, ?_, fun env => ?_⟩
      · rw [ofCall, leaves, hl, Factor.variables]
      · rw [ofCall, assign, hf]
      · rw [ofCall, assign, value, hv env, Factor.eval, hlookup, scale]

theorem Arguments.expresses_build {es : List Expression} : (d : Arguments) →
    d.build s = .ok es → ExpressesAll es d.variables fun env => d.eval s.registry env
  | .last arg, h => by
    rw [Arguments.build] at h
    obtain ⟨e, he, h⟩ := bind_eq_ok.1 h
    cases h
    obtain ⟨hl, hn, hf, hv⟩ := arg.expresses_build he
    refine ⟨?_, ?_, ?_, fun env => ?_⟩
    · rw [leavesAll, leavesAll, List.append_nil, hl, Arguments.variables]
    · rw [ListedAll, ListedAll]
      exact ⟨hn, trivial⟩
    · rw [assignAll, assignAll, hf]
    · simp only [assignAll, values, hv env, Arguments.eval, ok_bind]
  | .cons arg rest, h => by
    rw [Arguments.build] at h
    obtain ⟨e, he, h⟩ := bind_eq_ok.1 h
    obtain ⟨es, hes, h⟩ := bind_eq_ok.1 h
    cases h
    obtain ⟨hl, hn, hf, hv⟩ := arg.expresses_build he
    obtain ⟨hl', hn', hf', hv'⟩ := rest.expresses_build hes
    refine ⟨?_, ?_, ?_, fun env => ?_⟩
    · rw [leavesAll, hl, hl', Arguments.variables]
    · rw [ListedAll]
      exact ⟨hn, hn'⟩
    · rw [assignAll, hf, hf']
    · rw [assignAll, values, hv env, hv' env, Arguments.eval]

end

end Grammar

end Reckoner
