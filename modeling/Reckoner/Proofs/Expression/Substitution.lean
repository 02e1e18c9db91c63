import Reckoner.Proofs.Expression.Binding

/-!
# Binding is substitution

However a tree is built from its constructors and by binding names in what has been built (`Built`),
every node lists the names of the quantities beneath it, each where it first occurs. So binding a
name, which passes over whatever does not list it, comes to the same as going through the whole tree,
and after any row of bindings a tree in which nothing was bound before has the value that it has
where every name stands for what was bound to it last (`bindEach_exact`).
-/

namespace Reckoner

namespace Expression

/-- A tree made by the constructors, in which names may have been bound on the way. -/
inductive Built : Expression → Prop
  | constant (n : Float) : Built (constant n)
  | quantity (name : String) (coefficient : Option Float) :
    Built (quantity (.free name coefficient))
  | group {inner : Expression} : Built inner → Built (group inner)
  | call (f : Calculation) (coefficient : Option Float) {args : List Expression} :
    (∀ a ∈ args, Built a) → Built (ofCall f coefficient args)
  | first {e : Expression} : Built e → Built (ofFirst e)
  | push {first : Expression} {rest : List (Operator × Expression)} {names : List String}
    {operand : Expression} (op : Operator) : Built (chain first rest names) → Built operand →
    Built (push first rest names op operand)
  | bind {e : Expression} (name : String) (x : Float) : Built e → Built (bind name x e).2

/-- The node is the tree itself or stands somewhere beneath it. -/
inductive Occurs (n : Expression) : Expression → Prop
  | self : Occurs n n
  | group {inner : Expression} : Occurs n inner → Occurs n (group inner)
  | arg {f : Calculation} {coefficient : Option Float} {args : List Expression}
    {names : List String} {a : Expression} : a ∈ args → Occurs n a →
    Occurs n (call f coefficient args names)
  | first {first : Expression} {rest : List (Operator × Expression)} {names : List String} :
    Occurs n first → Occurs n (chain first rest names)
  | operand {first : Expression} {rest : List (Operator × Expression)} {names : List String}
    {r : Operator × Expression} : r ∈ rest → Occurs n r.2 → Occurs n (chain first rest names)

section Names

variable {into names : List String}

theorem mergeNames_eq : mergeNames into names = into ++ (names.filter (· ∉ into)).eraseDups := by
  induction names generalizing into with
  | nil => simp [mergeNames]
  | cons m names ih =>
    by_cases hm : m ∈ into
    · rw [mergeNames_cons_of_mem hm, ih, List.filter_cons_of_neg (by simpa using hm)]
    · rw [mergeNames_cons_of_not_mem hm, ih, List.filter_cons_of_pos (by simpa using hm),
        List.eraseDups_cons, List.filter_filter, List.append_assoc, List.singleton_append]
      congr 3
      refine List.filter_congr fun n _ => ?_
      rw [Bool.eq_iff_iff]
      simp [and_comm]

theorem distinct_eq : distinct names = names.eraseDups := by
  rw [distinct, mergeNames_eq, List.nil_append, List.filter_eq_self.2]
  simp

end Names

section Nodes

variable {e n : Expression} {es : List Expression} {rs : List (Operator × Expression)}

theorem listedAll_iff : ListedAll es ↔ ∀ e ∈ es, e.Listed := by
  induction es with
  | nil => simp [ListedAll]
  | cons e es ih => rw [ListedAll, ih, List.forall_mem_cons]

theorem listedRest_iff : ListedRest rs ↔ ∀ r ∈ rs, r.2.Listed := by
  induction rs with
  | nil => simp [ListedRest]
  | cons r rs ih => rw [ListedRest, ih, List.forall_mem_cons]

theorem Listed.of_occurs (h : e.Listed) (hn : Occurs n e) : n.Listed := by
  induction hn with
  | self => exact h
  | group _ ih =>
    rw [Listed] at h
    exact ih h
  | arg ha _ ih =>
    rw [Listed] at h
    exact ih (listedAll_iff.1 h.1 _ ha)
  | first _ ih =>
    rw [Listed] at h
    exact ih h.1
  | operand hr _ ih =>
    rw [Listed] at h
    exact ih (listedRest_iff.1 h.2.1 _ hr)

theorem listed_ofFirst (h : e.Listed) : (ofFirst e).Listed := by
  rw [ofFirst, Listed, ListedRest, leavesRest, List.append_nil]
  exact ⟨h, trivial, h.names_eq⟩

theorem listed_push {first operand : Expression} {names : List String} (op : Operator)
    (h : (chain first rs names).Listed) (ho : operand.Listed) :
    (push first rs names op operand).Listed := by
  have hsingle : leavesRest [(op, operand)] = operand.leaves := by
    rw [leavesRest, leavesRest, List.append_nil]
  rw [Listed] at h
  rw [push, Listed, listedRest_append, ListedRest, ListedRest, leavesRest_append, hsingle]
  refine ⟨h.1, ⟨h.2.1, ho, trivial⟩, ?_⟩
  rw [h.2.2, ho.names_eq, mergeNames_distinct, ← List.append_assoc]
  exact (mergeNames_append _).symm

theorem Built.listed (h : Built e) : e.Listed := by
  induction h with
  | constant n => rw [Listed]; trivial
  | quantity name coefficient => rw [Listed]; trivial
  | group _ ih => rwa [Listed]
  | call f coefficient _ ih => exact listed_ofCall (listedAll_iff.2 ih)
  | first _ ih => exact listed_ofFirst ih
  | push op _ _ ih iho => exact listed_push op ih iho
  | bind name x _ ih =>
    rw [bind_eq ih]
    exact ih.substitute

theorem Built.bindEach (h : Built e) (bindings : List (String × Float)) :
    Built (bindEach bindings e) := by
  induction bindings generalizing e with
  | nil => exact h
  | cons b bindings ih => exact ih (h.bind b.1 b.2)

end Nodes

mutual

/-- The value where every name has the value that the environment gives it. -/
def eval (env : String → Float) : Expression → Except SyntaxError Float
  | constant n => .ok n
  | quantity q => .ok (q.coefficient.getD 1 * env q.name)
  | group inner => inner.eval env
  | call f coefficient args _ => do
    let xs ← evalAll env args
    let y ← f.call xs
    return coefficient.getD 1 * y
  | chain first rest _ => do
    let x ← first.eval env
    evalFrom env x rest

def evalAll (env : String → Float) : List Expression → Except SyntaxError (List Float)
  | [] => .ok []
  | e :: es => do
    let x ← e.eval env
    let xs ← evalAll env es
    return x :: xs

def evalFrom (env : String → Float) (acc : Float) :
    List (Operator × Expression) → Except SyntaxError Float
  | [] => .ok acc
  | (op, e) :: rest => do
    let y ← e.eval env
    let z ← op.apply acc y
    evalFrom env z rest

end

mutual

theorem value_assign (env : String → Float) : (e : Expression) → (e.assign env).value = e.eval env
  | constant _ => by rw [assign, value, eval]
  | quantity q => by rw [assign, value, eval, Quantity.value]
  | group inner => by rw [assign, value, eval, value_assign env inner]
  | call f coefficient args _ => by rw [assign, value, eval, values_assignAll env args]
  | chain first rest _ => by
    rw [assign, value, eval, value_assign env first]
    simp only [valueFrom_assignRest env rest]

theorem values_assignAll (env : String → Float) :
    (es : List Expression) → values (assignAll env es) = evalAll env es
  | [] => by rw [assignAll, values, evalAll]
  | e :: es => by
    rw [assignAll, values, evalAll, value_assign env e, values_assignAll env es]

theorem valueFrom_assignRest (env : String → Float) : (rs : List (Operator × Expression)) →
    (acc : Float) → valueFrom acc (assignRest env rs) = evalFrom env acc rs
  | [], _ => by rw [assignRest, valueFrom, evalFrom]
  | (op, e) :: rs, acc => by
    rw [assignRest, valueFrom, evalFrom, value_assign env e]
    simp only [valueFrom_assignRest env rs]

end

/-- Nothing has been bound in the tree: every quantity is as it was when it was made. -/
def Fresh (e : Expression) : Prop :=
  ∀ q, Occurs (quantity q) e → q = .free q.name q.coefficient

section Fresh

variable {e : Expression}

theorem fresh_free (name : String) (coefficient : Option Float) :
    (quantity (.free name coefficient)).Fresh := by
  intro q hq
  cases hq
  rfl

theorem Fresh.group (h : e.Fresh) : (group e).Fresh := by
  intro q hq
  cases hq with
  | group hq => exact h q hq

theorem fresh_ofCall (f : Calculation) (coefficient : Option Float) {args : List Expression}
    (h : ∀ a ∈ args, a.Fresh) : (ofCall f coefficient args).Fresh := by
  intro q hq
  cases hq with
  | arg ha hq => exact h _ ha q hq

theorem Fresh.ofFirst (h : e.Fresh) : (ofFirst e).Fresh := by
  intro q hq
  cases hq with
  | first hq => exact h q hq
  | operand hr => cases hr

theorem Fresh.push {rest : List (Operator × Expression)} {names : List String} {operand : Expression}
    (h : (chain e rest names).Fresh) (op : Operator) (ho : operand.Fresh) :
    (push e rest names op operand).Fresh := by
  intro q hq
  cases hq with
  | first hq => exact h q hq.first
  | operand hr hq =>
    rcases List.mem_append.1 hr with hr | hr
    · exact h q (.operand hr hq)
    · rw [List.mem_singleton.1 hr] at hq
      exact ho q hq

end Fresh

mutual

theorem assign_of_fresh : {e : Expression} → e.Fresh → e.assign (fun _ => 0) = e
  | constant _, _ => by rw [assign]
  | quantity q, h => by
    rw [assign]
    exact congrArg quantity (h q .self).symm
  | group _, h => by rw [assign, assign_of_fresh fun q hq => h q hq.group]
  | call _ _ _ _, h => by rw [assign, assignAll_of_fresh fun a ha q hq => h q (.arg ha hq)]
  | chain _ _ _, h => by
    rw [assign, assign_of_fresh fun q hq => h q hq.first,
      assignRest_of_fresh fun r hr q hq => h q (.operand hr hq)]

theorem assignAll_of_fresh :
    {es : List Expression} → (∀ e ∈ es, e.Fresh) → assignAll (fun _ => 0) es = es
  | [], _ => by rw [assignAll]
  | _ :: _, h => by
    rw [List.forall_mem_cons] at h
    rw [assignAll, assign_of_fresh h.1, assignAll_of_fresh h.2]

theorem assignRest_of_fresh : {rs : List (Operator × Expression)} → (∀ r ∈ rs, r.2.Fresh) →
    assignRest (fun _ => 0) rs = rs
  | [], _ => by rw [assignRest]
  | (_, _) :: _, h => by
    rw [List.forall_mem_cons] at h
    rw [assignRest, assign_of_fresh h.1, assignRest_of_fresh h.2]

end

theorem value_bindEach {e : Expression} (h : e.Listed) (hf : e.Fresh)
    (bindings : List (String × Float)) :
    (bindEach bindings e).value = e.eval (environment bindings) := by
  have he := assign_of_fresh hf
  have hl : (assign (fun _ => 0) e).Listed := by rwa [he]
  have hb := bindEach_assign hl bindings
  rw [he] at hb
  rw [hb, value_assign, environment]

/-- After any row of bindings every node lists the distinct names beneath it in order of first
appearance, binding one more name finds it exactly if a quantity has it and changes the value of just
these quantities, and if nothing had been bound before the row the value is that of the tree under
what was bound last. -/
theorem bindEach_exact {e : Expression} (h : Built e) (bindings : List (String × Float)) :
    (∀ n, Occurs n (bindEach bindings e) → n.names = n.leaves.eraseDups) ∧
    (∀ name x, bind name x (bindEach bindings e)
      = (decide (name ∈ (bindEach bindings e).leaves), (bindEach bindings e).substitute name x)) ∧
    (e.Fresh → (bindEach bindings e).value = e.eval (environment bindings)) := by
  have hl := (h.bindEach bindings).listed
  refine ⟨fun n hn => ?_, fun name x => bind_eq hl, fun hf => value_bindEach h.listed hf bindings⟩
  rw [(hl.of_occurs hn).names_eq, distinct_eq]

/-- In a chain with a name twice in its first operand and once more in an argument. -/
theorem bindEach_exact_repeated :
    let x := quantity (.free "x" none)
    let sum := push x [] ["x"] .add (quantity (.free "x" (some 3)))
    let e := push (group sum) [] ["x"] .multiply (ofCall .add none [quantity (.free "y" none), x])
    Built e ∧ e.Fresh ∧ (bindEach [("x", 7), ("y", 1), ("x", 2)] e).names = ["x", "y"] ∧
      (bind "z" 5 (bindEach [("x", 7), ("y", 1), ("x", 2)] e)).1 = false ∧
      (bindEach [("x", 7), ("y", 1), ("x", 2)] e).value = .ok 24 := by
  intro x sum e
  have hargs : ∀ P : Expression → Prop, P (quantity (.free "y" none)) → P x →
      ∀ a ∈ [quantity (.free "y" none), x], P a := by
    intro P hy hx
    simp [hy, hx]
  have hsum : Built sum := .push .add (.first (.quantity "x" none)) (.quantity "x" (some 3))
  have he : Built e := .push .multiply (.first (.group hsum))
    (.call .add none (hargs Built (.quantity "y" none) (.quantity "x" none)))
  have hx : x.Fresh := fresh_free "x" none
  have hf : e.Fresh := ((hx.ofFirst.push .add (fresh_free "x" (some 3))).group.ofFirst).push .multiply
    (fresh_ofCall .add none (hargs Fresh (fresh_free "y" none) hx))
  obtain ⟨hnames, hbind, hvalue⟩ := bindEach_exact he [("x", 7), ("y", 1), ("x", 2)]
  refine ⟨he, hf, ?_, ?_, ?_⟩
  · rw [hnames _ .self]
    decide
  · rw [hbind]
    decide
  · have heval : e.eval (environment [("x", 7), ("y", 1), ("x", 2)])
        = .ok ((1 * 2 + 3 * 2) * (1 * (1 * 1 + 1 * 2))) := rfl
    have hsum : ((1 * 2 + 3 * 2) * (1 * (1 * 1 + 1 * 2)) : Float) = 24 := by decide +kernel
    rw [hvalue hf, heval, hsum]

end Expression

end Reckoner
