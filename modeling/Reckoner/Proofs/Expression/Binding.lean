import Mathlib.Logic.Function.Basic
import Reckoner.Expression.Basic
import Reckoner.Proofs.Except

/-!
# Binding names

The names that a node lists are those of the quantities beneath it, each once (`Listed`), as every
constructor ensures. Passing over the parts that do not list a name then changes nothing: binding is
substitution at every quantity of that name, and it finds one exactly if there is one (`bind_eq`).
A tree whose quantities have the values of an environment, after any row of bindings, has those of
the environment updated in turn (`bindEach_assign`).
-/

namespace Reckoner

namespace Expression

section Names

variable {m n : String} {into names : List String}

theorem mergeNames_cons_of_mem (h : m ∈ into) :
    mergeNames into (m :: names) = mergeNames into names := by
  rw [mergeNames, List.foldl_cons, if_pos (by simpa using h), mergeNames]

theorem mergeNames_cons_of_not_mem (h : m ∉ into) :
    mergeNames into (m :: names) = mergeNames (into ++ [m]) names := by
  rw [mergeNames, List.foldl_cons, if_neg (by simpa using h), mergeNames]

theorem mem_mergeNames : n ∈ mergeNames into names ↔ n ∈ into ∨ n ∈ names := by
  induction names generalizing into with
  | nil => simp [mergeNames]
  | cons m names ih =>
    by_cases hm : m ∈ into
    · rw [mergeNames_cons_of_mem hm, ih, List.mem_cons]
      constructor
      · exact Or.imp_right .inr
      · rintro (h | rfl | h)
        · exact .inl h
        · exact .inl hm
        · exact .inr h
    · rw [mergeNames_cons_of_not_mem hm, ih, List.mem_append, List.mem_singleton, List.mem_cons,
        or_assoc]

theorem mergeNames_append (names' : List String) :
    mergeNames into (names ++ names') = mergeNames (mergeNames into names) names' :=
  List.foldl_append

/-- Adding a row without its repetitions is adding the row. -/
theorem mergeNames_mergeNames (into acc names : List String) :
    mergeNames into (mergeNames acc names) = mergeNames (mergeNames into acc) names := by
  induction names generalizing acc with
  | nil => rfl
  | cons m names ih =>
    by_cases hm : m ∈ acc
    · rw [mergeNames_cons_of_mem hm, ih, mergeNames_cons_of_mem (mem_mergeNames.2 (.inr hm))]
    · rw [mergeNames_cons_of_not_mem hm, ih, mergeNames_append, ← mergeNames_append]
      rfl

/-- The names of a row, each where it first occurs. -/
def distinct (names : List String) : List String :=
  mergeNames [] names

theorem mergeNames_distinct (into names : List String) :
    mergeNames into (distinct names) = mergeNames into names :=
  mergeNames_mergeNames into [] names

theorem mem_distinct : n ∈ distinct names ↔ n ∈ names := by
  simp [distinct, mem_mergeNames]

end Names

mutual

/-- The names of the quantities from left to right, as often as they occur. -/
def leaves : Expression → List String
  | constant _ => []
  | quantity q => [q.name]
  | group inner => inner.leaves
  | call _ _ args _ => leavesAll args
  | chain first rest _ => first.leaves ++ leavesRest rest

def leavesAll : List Expression → List String
  | [] => []
  | e :: es => e.leaves ++ leavesAll es

def leavesRest : List (Operator × Expression) → List String
  | [] => []
  | (_, e) :: rest => e.leaves ++ leavesRest rest

end

mutual

/-- Every node beneath lists the names of its quantities, each where it first occurs. -/
def Listed : Expression → Prop
  | constant _ => True
  | quantity _ => True
  | group inner => inner.Listed
  | call _ _ args names => ListedAll args ∧ names = distinct (leavesAll args)
  | chain first rest names =>
    first.Listed ∧ ListedRest rest ∧ names = distinct (first.leaves ++ leavesRest rest)

def ListedAll : List Expression → Prop
  | [] => True
  | e :: es => e.Listed ∧ ListedAll es

def ListedRest : List (Operator × Expression) → Prop
  | [] => True
  | (_, e) :: rest => e.Listed ∧ ListedRest rest

end

theorem Listed.names_eq : {e : Expression} → e.Listed → e.names = distinct e.leaves
  | constant _, _ => rfl
  | quantity _, _ => rfl
  | group inner, h => by
    rw [Listed] at h
    rw [names, leaves]
    exact names_eq h
  | call _ _ _ _, h => by
    rw [Listed] at h
    rw [names, leaves]
    exact h.2
  | chain _ _ _, h => by
    rw [Listed] at h
    rw [names, leaves]
    exact h.2.2

theorem Listed.mentions_iff {e : Expression} (h : e.Listed) (name : String) :
    e.mentions name = true ↔ name ∈ e.leaves := by
  rw [mentions, h.names_eq, List.contains_iff_mem, mem_distinct]

theorem Listed.isConstant_iff {e : Expression} (h : e.Listed) :
    e.isConstant = true ↔ e.leaves = [] := by
  rw [isConstant, h.names_eq, List.isEmpty_iff, List.eq_nil_iff_forall_not_mem,
    List.eq_nil_iff_forall_not_mem]
  simp only [mem_distinct]

theorem listed_ofCall {f : Calculation} {coefficient : Option Float} {args : List Expression}
    (h : ListedAll args) : (ofCall f coefficient args).Listed := by
  have hfold : ∀ (es : List Expression) (acc : List String), ListedAll es →
      es.foldl (fun acc a => mergeNames acc a.names) acc = mergeNames acc (leavesAll es) := by
    intro es
    induction es with
    | nil => exact fun _ _ => rfl
    | cons e es ih =>
      intro acc he
      rw [ListedAll] at he
      rw [List.foldl_cons, leavesAll, mergeNames_append, ih _ he.2, he.1.names_eq,
        mergeNames_distinct]
  rw [ofCall, Listed]
  exact ⟨h, hfold args [] h⟩

theorem listed_ofChain {first : Expression} {rest : List (Operator × Expression)}
    (h : first.Listed) (hr : ListedRest rest) : (ofChain first rest).Listed := by
  have hfold : ∀ (rs : List (Operator × Expression)) (acc : List String), ListedRest rs →
      rs.foldl (fun acc r => mergeNames acc r.2.names) acc = mergeNames acc (leavesRest rs) := by
    intro rs
    induction rs with
    | nil => exact fun _ _ => rfl
    | cons r rs ih =>
      intro acc hrs
      rw [ListedRest] at hrs
      rw [List.foldl_cons, leavesRest, mergeNames_append, ih _ hrs.2, hrs.1.names_eq,
        mergeNames_distinct]
  rw [ofChain, Listed]
  refine ⟨h, hr, ?_⟩
  rw [hfold rest _ hr, h.names_eq, distinct, distinct, mergeNames_append]

mutual

/-- The tree in which the quantities of the name have the value. -/
def substitute (name : String) (x : Float) : Expression → Expression
  | constant n => constant n
  | quantity q => quantity (if q.name = name then { q with bound := x } else q)
  | group inner => group (inner.substitute name x)
  | call f coefficient args names => call f coefficient (substituteAll name x args) names
  | chain first rest names => chain (first.substitute name x) (substituteRest name x rest) names

def substituteAll (name : String) (x : Float) : List Expression → List Expression
  | [] => []
  | e :: es => e.substitute name x :: substituteAll name x es

def substituteRest (name : String) (x : Float) :
    List (Operator × Expression) → List (Operator × Expression)
  | [] => []
  | (op, e) :: rest => (op, e.substitute name x) :: substituteRest name x rest

end

section Substitute

variable {name : String} {x : Float}

mutual

theorem substitute_of_not_mem : {e : Expression} → name ∉ e.leaves → e.substitute name x = e
  | constant _, _ => by rw [substitute]
  | quantity q, h => by
    rw [leaves, List.mem_singleton] at h
    rw [substitute, if_neg (Ne.symm h)]
  | group _, h => by
    rw [leaves] at h
    rw [substitute, substitute_of_not_mem h]
  | call _ _ _ _, h => by
    rw [leaves] at h
    rw [substitute, substituteAll_of_not_mem h]
  | chain _ _ _, h => by
    rw [leaves, List.mem_append, not_or] at h
    rw [substitute, substitute_of_not_mem h.1, substituteRest_of_not_mem h.2]

theorem substituteAll_of_not_mem :
    {es : List Expression} → name ∉ leavesAll es → substituteAll name x es = es
  | [], _ => by rw [substituteAll]
  | _ :: _, h => by
    rw [leavesAll, List.mem_append, not_or] at h
    rw [substituteAll, substitute_of_not_mem h.1, substituteAll_of_not_mem h.2]

theorem substituteRest_of_not_mem :
    {rs : List (Operator × Expression)} → name ∉ leavesRest rs → substituteRest name x rs = rs
  | [], _ => by rw [substituteRest]
  | (_, _) :: _, h => by
    rw [leavesRest, List.mem_append, not_or] at h
    rw [substituteRest, substitute_of_not_mem h.1, substituteRest_of_not_mem h.2]

end

theorem bind_of_not_mem {e : Expression} (h : e.Listed) (hm : name ∉ e.leaves) :
    bind name x e = (decide (name ∈ e.leaves), e.substitute name x) := by
  have : e.mentions name = false := by
    rw [← Bool.not_eq_true, h.mentions_iff]
    exact hm
  rw [bind.eq_def, if_pos (by rw [this]; rfl), substitute_of_not_mem hm, decide_eq_false hm]

theorem not_mentions_of_mem {e : Expression} (h : e.Listed) (hm : name ∈ e.leaves) :
    ¬ (!e.mentions name) = true := by
  rw [(h.mentions_iff name).2 hm]
  decide

mutual

/-- Binding finds the name exactly if a quantity has it, and is substitution. -/
theorem bind_eq : {e : Expression} → e.Listed →
    bind name x e = (decide (name ∈ e.leaves), e.substitute name x)
  | constant _, h => bind_of_not_mem h (by rw [leaves]; exact List.not_mem_nil)
  | quantity q, h => by
    by_cases hm : name ∈ (quantity q).leaves
    · rw [bind.eq_def, if_neg (not_mentions_of_mem h hm), decide_eq_true hm]
      rw [leaves, List.mem_singleton] at hm
      rw [substitute, if_pos hm.symm]
    · exact bind_of_not_mem h hm
  | group inner, h => by
    by_cases hm : name ∈ (group inner).leaves
    · have hl : (group inner).leaves = inner.leaves := by rw [leaves]
      rw [bind.eq_def, if_neg (not_mentions_of_mem h hm), hl]
      rw [Listed] at h
      simp only [bind_eq h, substitute]
    · exact bind_of_not_mem h hm
  | call f coefficient args names, h => by
    by_cases hm : name ∈ (call f coefficient args names).leaves
    · have hl : (call f coefficient args names).leaves = leavesAll args := by rw [leaves]
      rw [bind.eq_def, if_neg (not_mentions_of_mem h hm), hl]
      rw [Listed] at h
      simp only [bindAll_eq h.1, substitute]
    · exact bind_of_not_mem h hm
  | chain first rest names, h => by
    by_cases hm : name ∈ (chain first rest names).leaves
    · rw [bind.eq_def, if_neg (not_mentions_of_mem h hm)]
      rw [Listed] at h
      simp only [bind_eq h.1, bindRest_eq h.2.1, leaves, substitute, List.mem_append,
        Bool.decide_or]
    · exact bind_of_not_mem h hm

theorem bindAll_eq : {es : List Expression} → ListedAll es →
    bindAll name x es = (decide (name ∈ leavesAll es), substituteAll name x es)
  | [], _ => by simp [bindAll, leavesAll, substituteAll]
  | e :: es, h => by
    rw [ListedAll] at h
    simp only [bindAll, bind_eq h.1, bindAll_eq h.2, leavesAll, substituteAll, List.mem_append,
      Bool.decide_or]

theorem bindRest_eq : {rs : List (Operator × Expression)} → ListedRest rs →
    bindRest name x rs = (decide (name ∈ leavesRest rs), substituteRest name x rs)
  | [], _ => by simp [bindRest, leavesRest, substituteRest]
  | (_, _) :: _, h => by
    rw [ListedRest] at h
    simp only [bindRest, bind_eq h.1, bindRest_eq h.2, leavesRest, substituteRest, List.mem_append,
      Bool.decide_or]

end

mutual

theorem leaves_substitute : (e : Expression) → (e.substitute name x).leaves = e.leaves
  | constant _ => by rw [substitute]
  | quantity q => by
    rw [substitute]
    split
    · rw [leaves, leaves]
    · rfl
  | group inner => by rw [substitute, leaves, leaves, leaves_substitute inner]
  | call _ _ args _ => by rw [substitute, leaves, leaves, leavesAll_substituteAll args]
  | chain first rest _ => by
    rw [substitute, leaves, leaves, leaves_substitute first, leavesRest_substituteRest rest]

theorem leavesAll_substituteAll :
    (es : List Expression) → leavesAll (substituteAll name x es) = leavesAll es
  | [] => by rw [substituteAll]
  | e :: es => by
    rw [substituteAll, leavesAll, leavesAll, leaves_substitute e, leavesAll_substituteAll es]

theorem leavesRest_substituteRest :
    (rs : List (Operator × Expression)) → leavesRest (substituteRest name x rs) = leavesRest rs
  | [] => by rw [substituteRest]
  | (_, e) :: rs => by
    rw [substituteRest, leavesRest, leavesRest, leaves_substitute e, leavesRest_substituteRest rs]

end

mutual

theorem Listed.substitute : {e : Expression} → e.Listed → (e.substitute name x).Listed
  | constant _, h => by rwa [Expression.substitute]
  | quantity q, h => by rw [Expression.substitute, Listed]; trivial
  | group inner, h => by
    rw [Listed] at h
    rw [Expression.substitute, Listed]
    exact h.substitute
  | call _ _ args _, h => by
    rw [Listed] at h
    rw [Expression.substitute, Listed, leavesAll_substituteAll]
    exact ⟨listedAll_substituteAll h.1, h.2⟩
  | chain first rest _, h => by
    rw [Listed] at h
    rw [Expression.substitute, Listed, leaves_substitute, leavesRest_substituteRest]
    exact ⟨h.1.substitute, listedRest_substituteRest h.2.1, h.2.2⟩

theorem listedAll_substituteAll :
    {es : List Expression} → ListedAll es → ListedAll (substituteAll name x es)
  | [], h => by rwa [substituteAll]
  | _ :: _, h => by
    rw [ListedAll] at h
    rw [substituteAll, ListedAll]
    exact ⟨h.1.substitute, listedAll_substituteAll h.2⟩

theorem listedRest_substituteRest :
    {rs : List (Operator × Expression)} → ListedRest rs → ListedRest (substituteRest name x rs)
  | [], h => by rwa [substituteRest]
  | (_, _) :: _, h => by
    rw [ListedRest] at h
    rw [substituteRest, ListedRest]
    exact ⟨h.1.substitute, listedRest_substituteRest h.2⟩

end

end Substitute

/-- Binds one name after another. -/
def bindEach (bindings : List (String × Float)) (e : Expression) : Expression :=
  bindings.foldl (fun e b => (bind b.1 b.2 e).2) e

/-- The values of the names after bindings, where nothing bound counts as zero. -/
def environment (bindings : List (String × Float)) : String → Float :=
  bindings.foldl (fun env b => Function.update env b.1 b.2) fun _ => 0

mutual

/-- The tree in which every quantity has the value that the environment gives its name. -/
def assign (env : String → Float) : Expression → Expression
  | constant n => constant n
  | quantity q => quantity { q with bound := env q.name }
  | group inner => group (inner.assign env)
  | call f coefficient args names => call f coefficient (assignAll env args) names
  | chain first rest names => chain (first.assign env) (assignRest env rest) names

def assignAll (env : String → Float) : List Expression → List Expression
  | [] => []
  | e :: es => e.assign env :: assignAll env es

def assignRest (env : String → Float) :
    List (Operator × Expression) → List (Operator × Expression)
  | [] => []
  | (op, e) :: rest => (op, e.assign env) :: assignRest env rest

end

mutual

theorem substitute_assign (env : String → Float) (name : String) (x : Float) : (e : Expression) →
    (e.assign env).substitute name x = e.assign (Function.update env name x)
  | constant _ => by rw [assign, substitute, assign]
  | quantity q => by
    rw [assign, substitute, assign]
    by_cases h : q.name = name
    · rw [if_pos h, h, Function.update_self]
    · rw [if_neg h, Function.update_of_ne h]
  | group inner => by rw [assign, substitute, assign, substitute_assign env name x inner]
  | call _ _ args _ => by rw [assign, substitute, assign, substituteAll_assignAll env name x args]
  | chain first rest _ => by
    rw [assign, substitute, assign, substitute_assign env name x first,
      substituteRest_assignRest env name x rest]

theorem substituteAll_assignAll (env : String → Float) (name : String) (x : Float) :
    (es : List Expression) →
    substituteAll name x (assignAll env es) = assignAll (Function.update env name x) es
  | [] => by rw [assignAll, substituteAll, assignAll]
  | e :: es => by
    rw [assignAll, substituteAll, assignAll, substitute_assign env name x e,
      substituteAll_assignAll env name x es]

theorem substituteRest_assignRest (env : String → Float) (name : String) (x : Float) :
    (rs : List (Operator × Expression)) →
    substituteRest name x (assignRest env rs) = assignRest (Function.update env name x) rs
  | [] => by rw [assignRest, substituteRest, assignRest]
  | (_, e) :: rs => by
    rw [assignRest, substituteRest, assignRest, substitute_assign env name x e,
      substituteRest_assignRest env name x rs]

end

section Assign

variable {env env' : String → Float}

mutual

/-- Only the values of the names beneath a node matter to it. -/
theorem assign_congr : {e : Expression} → (∀ n ∈ e.leaves, env n = env' n) →
    e.assign env = e.assign env'
  | constant _, _ => by rw [assign, assign]
  | quantity q, h => by
    rw [leaves] at h
    rw [assign, assign, h q.name (List.mem_singleton_self _)]
  | group _, h => by
    rw [leaves] at h
    rw [assign, assign, assign_congr h]
  | call _ _ _ _, h => by
    rw [leaves] at h
    rw [assign, assign, assignAll_congr h]
  | chain _ _ _, h => by
    rw [leaves, List.forall_mem_append] at h
    rw [assign, assign, assign_congr h.1, assignRest_congr h.2]

theorem assignAll_congr : {es : List Expression} → (∀ n ∈ leavesAll es, env n = env' n) →
    assignAll env es = assignAll env' es
  | [], _ => by rw [assignAll, assignAll]
  | _ :: _, h => by
    rw [leavesAll, List.forall_mem_append] at h
    rw [assignAll, assignAll, assign_congr h.1, assignAll_congr h.2]

theorem assignRest_congr : {rs : List (Operator × Expression)} →
    (∀ n ∈ leavesRest rs, env n = env' n) → assignRest env rs = assignRest env' rs
  | [], _ => by rw [assignRest, assignRest]
  | (_, _) :: _, h => by
    rw [leavesRest, List.forall_mem_append] at h
    rw [assignRest, assignRest, assign_congr h.1, assignRest_congr h.2]

end

end Assign

section Append

variable {rs rs' : List (Operator × Expression)}

theorem leavesRest_append : leavesRest (rs ++ rs') = leavesRest rs ++ leavesRest rs' := by
  induction rs with
  | nil => rw [List.nil_append, leavesRest, List.nil_append]
  | cons r rs ih => rw [List.cons_append, leavesRest, leavesRest, ih, List.append_assoc]

theorem listedRest_append : ListedRest (rs ++ rs') ↔ ListedRest rs ∧ ListedRest rs' := by
  induction rs with
  | nil => simp [ListedRest]
  | cons r rs ih => rw [List.cons_append, ListedRest, ListedRest, ih, and_assoc]

theorem assignRest_append (env : String → Float) :
    assignRest env (rs ++ rs') = assignRest env rs ++ assignRest env rs' := by
  induction rs with
  | nil => rw [List.nil_append, assignRest, List.nil_append]
  | cons r rs ih => rw [List.cons_append, assignRest, assignRest, ih, List.cons_append]

theorem valueFrom_append (x : Float) :
    valueFrom x (rs ++ rs') = valueFrom x rs >>= fun y => valueFrom y rs' := by
  induction rs generalizing x with
  | nil => rw [List.nil_append, valueFrom, ok_bind]
  | cons r rs ih =>
    rw [List.cons_append, valueFrom, valueFrom]
    simp only [ih, bind_assoc_except]

end Append

theorem leaves_bindEach {e : Expression} (h : e.Listed) (bindings : List (String × Float)) :
    (bindEach bindings e).leaves = e.leaves ∧ (bindEach bindings e).Listed := by
  induction bindings generalizing e with
  | nil => exact ⟨rfl, h⟩
  | cons b bindings ih =>
    have hb : (bind b.1 b.2 e).2 = e.substitute b.1 b.2 := by rw [bind_eq h]
    have hleaves : (e.substitute b.1 b.2).leaves = e.leaves := leaves_substitute e
    rw [bindEach, List.foldl_cons, hb, ← hleaves]
    exact ih h.substitute

/-- After bindings, a tree with the values of an environment has those of the environment with the
bindings in turn. -/
theorem bindEach_assign {e : Expression} {env : String → Float} (h : (e.assign env).Listed)
    (bindings : List (String × Float)) : bindEach bindings (e.assign env)
      = e.assign (bindings.foldl (fun env b => Function.update env b.1 b.2) env) := by
  induction bindings generalizing env with
  | nil => rfl
  | cons b bindings ih =>
    have hb : (bind b.1 b.2 (e.assign env)).2 = e.assign (Function.update env b.1 b.2) := by
      rw [bind_eq h, substitute_assign]
    have hl : (e.assign (Function.update env b.1 b.2)).Listed := by
      rw [← substitute_assign]
      exact h.substitute
    rw [bindEach, List.foldl_cons, hb]
    exact ih hl

end Expression

end Reckoner
