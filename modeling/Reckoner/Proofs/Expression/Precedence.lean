import Reckoner.Proofs.Expression.Correctness
import Reckoner.Proofs.Expression.Substitution

/-!
# Precedence is in the shape of the tree

In a tree that was read a chain joins its operands by operators of one tier, no chain stands within one
of high tier and none of low tier within one of low tier, and one of the first two operands has a name
in it (`Grammar.Chain.normal_build`). So if the chains that stand directly in chains are opened, and the
row of operands is computed tier by tier, the value is that of the tree (`Expression.Normal.value_eq`).
-/

namespace Reckoner

namespace Expression

def isChain : Expression → Bool
  | chain .. => true
  | _ => false

/-- A chain whose operators are all of the tier. -/
def Joins (t : Tier) : Expression → Prop
  | chain _ rest _ => ∀ p ∈ rest, p.1.tier = t
  | _ => False

/-- What may be an operand in a chain of the tier. -/
def Below : Tier → Expression → Prop
  | .high, e => e.isChain = false
  | .low, e => ¬ e.Joins .low

/-- A chain of `first` and `rest` is one of the tier. -/
structure Joined (t : Tier) (first : Expression) (rest : List (Operator × Expression)) : Prop where
  operators : rest ≠ []
  tier : ∀ p ∈ rest, p.1.tier = t
  named : first.leaves ≠ [] ∨ ∃ p ∈ rest.head?, p.2.leaves ≠ []
  first : first.Below t
  operands : ∀ p ∈ rest, p.2.Below t

/-- Each chain beneath the node, itself included, is one of some tier. -/
def Normal (e : Expression) : Prop :=
  ∀ first rest names, Occurs (chain first rest names) e → ∃ t, Joined t first rest

section Normal

variable {e first : Expression} {rest : List (Operator × Expression)} {t : Tier}

theorem below_of_isChain (h : e.isChain = false) (t : Tier) : e.Below t := by
  cases t with
  | high => exact h
  | low => cases e <;> simp_all [Below, Joins, isChain]

theorem normal_constant (n : Float) : (constant n).Normal := by
  intro _ _ _ hn
  cases hn

theorem normal_quantity (q : Quantity) : (quantity q).Normal := by
  intro _ _ _ hn
  cases hn

theorem Normal.group (h : e.Normal) : (group e).Normal := by
  intro first rest names hn
  cases hn with
  | group hn => exact h first rest names hn

theorem normal_ofCall (f : Calculation) (coefficient : Option Float) {args : List Expression}
    (h : ∀ a ∈ args, a.Normal) : (ofCall f coefficient args).Normal := by
  intro first rest names hn
  cases hn with
  | arg ha hn => exact h _ ha first rest names hn

theorem Joined.normal (h : Joined t first rest) (hfirst : first.Normal)
    (hrest : ∀ p ∈ rest, p.2.Normal) (names : List String) : (chain first rest names).Normal := by
  intro first' rest' names' hn
  cases hn with
  | self => exact ⟨t, h⟩
  | first hn => exact hfirst first' rest' names' hn
  | operand hp hn => exact hrest _ hp first' rest' names' hn

theorem Occurs.trans {m n : Expression} (hm : Occurs m n) (hn : Occurs n e) : Occurs m e := by
  induction hn with
  | self => exact hm
  | group _ ih => exact ih.group
  | arg ha _ ih => exact .arg ha ih
  | first _ ih => exact ih.first
  | operand hp _ ih => exact .operand hp ih

theorem Normal.of_occurs {n : Expression} (h : e.Normal) (hn : Occurs n e) : n.Normal :=
  fun first rest names hc => h first rest names (hc.trans hn)

theorem mem_leavesAll {es : List Expression} {name : String} :
    name ∈ leavesAll es ↔ ∃ e ∈ es, name ∈ e.leaves := by
  induction es with
  | nil => simp [leavesAll]
  | cons e es ih => rw [leavesAll, List.mem_append, ih, List.exists_mem_cons_iff]

theorem mem_leavesRest {name : String} :
    name ∈ leavesRest rest ↔ ∃ p ∈ rest, name ∈ p.2.leaves := by
  induction rest with
  | nil => simp [leavesRest]
  | cons p rest ih => rw [leavesRest, List.mem_append, ih, List.exists_mem_cons_iff]

theorem leaves_subset_of_occurs {n : Expression} (h : Occurs n e) : n.leaves ⊆ e.leaves := by
  induction h with
  | self => exact List.Subset.refl _
  | group _ ih => rwa [leaves]
  | arg ha _ ih =>
    rw [leaves]
    exact fun name hname => mem_leavesAll.2 ⟨_, ha, ih hname⟩
  | first _ ih =>
    rw [leaves]
    exact fun name hname => List.mem_append_left _ (ih hname)
  | operand hp _ ih =>
    rw [leaves]
    exact fun name hname => List.mem_append_right _ (mem_leavesRest.2 ⟨_, hp, ih hname⟩)

/-- No chain stands where there is no name. -/
theorem Normal.isChain_of_leaves {m : Expression} (h : e.Normal) (he : e.leaves = [])
    (hm : Occurs m e) : m.isChain = false := by
  have hnone : ∀ n, Occurs n e → n.leaves = [] := by
    intro n hn
    have hsub := leaves_subset_of_occurs hn
    rw [he] at hsub
    exact List.subset_nil.1 hsub
  cases m with
  | chain first rest names =>
    obtain ⟨t, hj⟩ := h first rest names hm
    rcases hj.named with hne | ⟨p, hp, hne⟩
    · exact absurd (hnone _ (Occurs.self.first.trans hm)) hne
    · exact absurd (hnone _ ((Occurs.self.operand (List.mem_of_mem_head? hp)).trans hm)) hne
  | _ => rfl

end Normal

section Assign

variable {env : String → Float}

mutual

theorem leaves_assign (env : String → Float) : (e : Expression) → (e.assign env).leaves = e.leaves
  | constant _ => by rw [assign]
  | quantity _ => by rw [assign, leaves, leaves]
  | group inner => by rw [assign, leaves, leaves, leaves_assign env inner]
  | call _ _ args _ => by rw [assign, leaves, leaves, leavesAll_assignAll env args]
  | chain first rest _ => by
    rw [assign, leaves, leaves, leaves_assign env first, leavesRest_assignRest env rest]

theorem leavesAll_assignAll (env : String → Float) : (es : List Expression) →
    leavesAll (assignAll env es) = leavesAll es
  | [] => by rw [assignAll]
  | e :: es => by
    rw [assignAll, leavesAll, leavesAll, leaves_assign env e, leavesAll_assignAll env es]

theorem leavesRest_assignRest (env : String → Float) : (rs : List (Operator × Expression)) →
    leavesRest (assignRest env rs) = leavesRest rs
  | [] => by rw [assignRest]
  | (_, e) :: rs => by
    rw [assignRest, leavesRest, leavesRest, leaves_assign env e, leavesRest_assignRest env rs]

end

theorem assignAll_eq_map (es : List Expression) : assignAll env es = es.map (assign env) := by
  induction es with
  | nil => rw [assignAll, List.map_nil]
  | cons e es ih => rw [assignAll, ih, List.map_cons]

theorem assignRest_eq_map (rs : List (Operator × Expression)) :
    assignRest env rs = rs.map fun p => (p.1, p.2.assign env) := by
  induction rs with
  | nil => rw [assignRest, List.map_nil]
  | cons p rs ih => rw [assignRest, ih, List.map_cons]

/-- What stands beneath a tree with values in it stands beneath the tree without them. -/
theorem exists_of_occurs_assign {n e' : Expression} (h : Occurs n e') :
    ∀ e, e' = e.assign env → ∃ m, Occurs m e ∧ m.assign env = n := by
  induction h with
  | self => exact fun e he => ⟨e, .self, he.symm⟩
  | group _ ih =>
    intro e he
    cases e <;> rw [assign] at he <;> cases he
    obtain ⟨m, hm, rfl⟩ := ih _ rfl
    exact ⟨m, hm.group, rfl⟩
  | arg ha _ ih =>
    intro e he
    cases e <;> rw [assign] at he <;> cases he
    rw [assignAll_eq_map, List.mem_map] at ha
    obtain ⟨a, ha, rfl⟩ := ha
    obtain ⟨m, hm, rfl⟩ := ih _ rfl
    exact ⟨m, .arg ha hm, rfl⟩
  | first _ ih =>
    intro e he
    cases e <;> rw [assign] at he <;> cases he
    obtain ⟨m, hm, rfl⟩ := ih _ rfl
    exact ⟨m, hm.first, rfl⟩
  | operand hp _ ih =>
    intro e he
    cases e <;> rw [assign] at he <;> cases he
    rw [assignRest_eq_map, List.mem_map] at hp
    obtain ⟨p, hp, rfl⟩ := hp
    obtain ⟨m, hm, rfl⟩ := ih _ rfl
    exact ⟨m, .operand hp hm, rfl⟩

theorem Below.assign {t : Tier} {e : Expression} (h : e.Below t) : (e.assign env).Below t := by
  cases e with
  | chain first rest names =>
    cases t with
    | high => cases h
    | low =>
      rw [Expression.assign, assignRest_eq_map]
      simpa [Below, Joins] using h
  | _ =>
    rw [Expression.assign]
    exact below_of_isChain rfl t

theorem Joined.assign {t : Tier} {first : Expression} {rest : List (Operator × Expression)}
    (h : Joined t first rest) : Joined t (first.assign env) (assignRest env rest) := by
  rw [assignRest_eq_map]
  refine ⟨?_, ?_, ?_, h.first.assign, ?_⟩
  · simpa using h.operators
  · exact List.forall_mem_map.2 h.tier
  · rw [leaves_assign]
    refine h.named.imp_right ?_
    rintro ⟨p, hp, hne⟩
    refine ⟨(p.1, p.2.assign env), ?_, by rwa [leaves_assign]⟩
    rw [List.head?_map, Option.mem_def.1 hp]
    rfl
  · exact List.forall_mem_map.2 fun p hp => (h.operands p hp).assign

theorem Normal.assign {e : Expression} (h : e.Normal) : (e.assign env).Normal := by
  intro first rest names hn
  obtain ⟨m, hm, heq⟩ := exists_of_occurs_assign hn e rfl
  cases m <;> rw [Expression.assign] at heq <;> cases heq
  obtain ⟨t, hj⟩ := h _ _ _ hm
  exact ⟨t, hj.assign⟩

end Assign

/-- An operand and those that follow it, each with its operator. -/
abbrev Row : Type := Expression × List (Operator × Expression)

mutual

/-- The operands of the node and the operators between them, with the chains that stand directly in
chains opened. -/
def row : Expression → Row
  | chain first rest _ => (first.row.1, first.row.2 ++ rowRest rest)
  | e => (e, [])

def rowRest : List (Operator × Expression) → List (Operator × Expression)
  | [] => []
  | (op, e) :: rest => (op, e.row.1) :: (e.row.2 ++ rowRest rest)

end

/-- The row cut at the operators of low tier. -/
def runs (first : Expression) : List (Operator × Expression) → Row × List (Operator × Row)
  | [] => ((first, []), [])
  | (op, e) :: rest =>
    match op.tier with
    | .high => ((first, (op, e) :: (runs e rest).1.2), (runs e rest).2)
    | .low => ((first, []), (op, (runs e rest).1) :: (runs e rest).2)

/-- The value of the row from left to right. -/
def Row.value (r : Row) : Except SyntaxError Float := do
  let x ← r.1.value
  valueFrom x r.2

/-- The value of the row if operators of high tier bind tighter: runs of these come first. -/
def Row.byPrecedence (r : Row) : Except SyntaxError Float := do
  let x ← (runs r.1 r.2).1.value
  (runs r.1 r.2).2.foldlM (fun acc p => do p.1.apply acc (← p.2.value)) x

section Rows

variable {e first : Expression} {rest more : List (Operator × Expression)}

theorem runs_high (h : ∀ p ∈ rest, p.1.tier = .high) : runs first rest = ((first, rest), []) := by
  induction rest generalizing first with
  | nil => rfl
  | cons p rest ih =>
    obtain ⟨hp, hrest⟩ := List.forall_mem_cons.1 h
    rw [runs, hp, ih hrest]

theorem runs_append {op : Operator} (h : ∀ p ∈ rest, p.1.tier = .high) (hop : op.tier = .low) :
    runs first (rest ++ (op, e) :: more)
      = ((first, rest), (op, (runs e more).1) :: (runs e more).2) := by
  induction rest generalizing first with
  | nil => rw [List.nil_append, runs, hop]
  | cons p rest ih =>
    obtain ⟨hp, hrest⟩ := List.forall_mem_cons.1 h
    rw [List.cons_append, runs, hp, ih hrest]

theorem row_of_isChain (h : e.isChain = false) : e.row = (e, []) := by
  cases e with
  | chain first rest names => cases h
  | _ => rfl

theorem rowRest_of_isChain (h : ∀ p ∈ rest, p.2.isChain = false) : rowRest rest = rest := by
  induction rest with
  | nil => rw [rowRest]
  | cons p rest ih =>
    obtain ⟨hp, hrest⟩ := List.forall_mem_cons.1 h
    rw [rowRest, row_of_isChain hp, ih hrest, List.nil_append]

theorem value_of_isChain (h : e.isChain = false) : e.row.value = e.value := by
  rw [row_of_isChain h, Row.value]
  simp only [valueFrom]
  cases e.value <;> rfl

theorem Joined.row_eq (h : Joined .high first rest) (names : List String) :
    (chain first rest names).row = (first, rest) := by
  rw [row, row_of_isChain h.first, rowRest_of_isChain h.operands, List.nil_append]

/-- An operand of low tier is one run. -/
theorem Normal.row_below (h : e.Normal) (hb : e.Below .low) :
    (∀ p ∈ e.row.2, p.1.tier = .high) ∧ e.row.value = e.value := by
  cases hc : e.isChain with
  | false => exact ⟨by simp [row_of_isChain hc], value_of_isChain hc⟩
  | true =>
    cases e with
    | chain first rest names =>
      obtain ⟨t, hj⟩ := h first rest names .self
      cases t with
      | low => exact absurd hj.tier hb
      | high =>
        rw [hj.row_eq, Row.value, value]
        exact ⟨hj.tier, rfl⟩
    | _ => cases hc

/-- The runs of a chain of low tier are its operands. -/
theorem runs_rowRest (hfirst : ∀ p ∈ e.row.2, p.1.tier = .high) (hlow : ∀ p ∈ rest, p.1.tier = .low)
    (hrest : ∀ p ∈ rest, ∀ q ∈ p.2.row.2, q.1.tier = .high) :
    runs e.row.1 (e.row.2 ++ rowRest rest) = (e.row, rest.map fun p => (p.1, p.2.row)) := by
  induction rest generalizing e with
  | nil => rw [rowRest, List.append_nil, runs_high hfirst, List.map_nil]
  | cons p rest ih =>
    obtain ⟨hp, hlow⟩ := List.forall_mem_cons.1 hlow
    obtain ⟨hrow, hrest⟩ := List.forall_mem_cons.1 hrest
    rw [rowRest, runs_append hfirst hp, ih hrow hlow hrest, List.map_cons]

theorem foldlM_row (h : ∀ p ∈ rest, p.2.row.value = p.2.value) (x : Float) :
    (rest.map fun p => (p.1, p.2.row)).foldlM (fun acc p => do p.1.apply acc (← p.2.value)) x
      = valueFrom x rest := by
  induction rest generalizing x with
  | nil => rw [valueFrom]; rfl
  | cons p rest ih =>
    obtain ⟨hp, hrest⟩ := List.forall_mem_cons.1 h
    rw [List.map_cons, List.foldlM_cons, valueFrom, hp]
    simp only [ih hrest, bind_assoc_except]

/-- Strictly from left to right, a tree of this shape is computed by precedence. -/
theorem Normal.value_eq (h : e.Normal) : e.value = e.row.byPrecedence := by
  cases hc : e.isChain with
  | false =>
    rw [Row.byPrecedence, row_of_isChain hc, runs, ← row_of_isChain hc, value_of_isChain hc]
    cases e.value <;> rfl
  | true =>
    cases e with
    | chain first rest names =>
      obtain ⟨t, hj⟩ := h first rest names .self
      have hfirst := h.of_occurs (.first .self)
      have hrest : ∀ p ∈ rest, p.2.Normal := fun p hp => h.of_occurs (.operand hp .self)
      cases t with
      | high =>
        rw [hj.row_eq, Row.byPrecedence, runs_high hj.tier, Row.value, value]
        cases (first.value >>= fun x => valueFrom x rest) <;> rfl
      | low =>
        -- Cut at its operators, the row falls into the rows of the operands.
        obtain ⟨htiers, hvalue⟩ := hfirst.row_below hj.first
        have hrows := fun p hp => (hrest p hp).row_below (hj.operands p hp)
        rw [Row.byPrecedence, row, runs_rowRest htiers hj.tier fun p hp => (hrows p hp).1, value,
          hvalue]
        simp only [foldlM_row fun p hp => (hrows p hp).2]
    | _ => cases hc

end Rows

end Expression

namespace Grammar

open Expression

/-- A chain of the tier that has come to `first` and `acc`. -/
structure Gathers (t : Tier) (first : Expression) (acc : List (Operator × Expression)) : Prop where
  normal : first.Normal
  listed : first.Listed
  below : first.Below t
  normals : ∀ p ∈ acc, p.2.Normal
  tier : ∀ p ∈ acc, p.1.tier = t
  operands : ∀ p ∈ acc, p.2.Below t
  named : acc ≠ [] → first.leaves ≠ [] ∨ ∃ p ∈ acc.head?, p.2.leaves ≠ []

section Gathers

variable {s : Settings} {t : Tier} {first operand : Expression} {acc : List (Operator × Expression)}

theorem gathers_nil (hn : first.Normal) (hl : first.Listed) (hb : first.Below t) :
    Gathers t first [] :=
  ⟨hn, hl, hb, by simp, by simp, by simp, fun h => absurd rfl h⟩

theorem Gathers.close (h : Gathers t first acc) :
    (close first acc).Normal ∧ (t = .high → (close first acc).Below .low) := by
  rw [Expression.close]
  split
  · refine ⟨h.normal, ?_⟩
    rintro rfl
    exact below_of_isChain h.below .low
  · rename_i hacc
    rw [List.isEmpty_iff] at hacc
    have hj : Joined t first acc := ⟨hacc, h.tier, h.named hacc, h.below, h.operands⟩
    refine ⟨hj.normal h.normal h.normals _, ?_⟩
    rintro rfl hlow
    obtain ⟨p, hp⟩ := List.exists_mem_of_ne_nil acc hacc
    cases (h.tier p hp).symm.trans (hlow p hp)

/-- Either two operands without names are folded, or one of the first two has a name. -/
theorem Gathers.extend {op : Operator} {p : Expression × List (Operator × Expression)}
    (hs : s.folds = true) (h : Gathers t first acc) (hop : op.tier = t) (hn : operand.Normal)
    (hl : operand.Listed) (hb : operand.Below t) (hp : s.extend first acc op operand = .ok p) :
    Gathers t p.1 p.2 := by
  rw [Settings.extend, hs, Bool.true_and] at hp
  split at hp
  · obtain ⟨x, -, hp⟩ := bind_eq_ok.1 hp
    obtain ⟨y, -, hp⟩ := bind_eq_ok.1 hp
    obtain ⟨z, -, hp⟩ := bind_eq_ok.1 hp
    cases hp
    exact gathers_nil (normal_constant z) (by rw [Listed]; trivial) (below_of_isChain rfl t)
  · rename_i hfold
    cases hp
    simp only [Bool.and_eq_true, List.isEmpty_iff, h.listed.isConstant_iff, hl.isConstant_iff] at hfold
    refine ⟨h.normal, h.listed, h.below, ?_, ?_, ?_, fun _ => ?_⟩
    · exact List.forall_mem_append.2 ⟨h.normals, by simpa using hn⟩
    · exact List.forall_mem_append.2 ⟨h.tier, by simpa using hop⟩
    · exact List.forall_mem_append.2 ⟨h.operands, by simpa using hb⟩
    · -- The first two operands are settled once one has been joined; until then they were not folded.
      by_cases hacc : acc = []
      · subst hacc
        by_cases hfirst : first.leaves = []
        · exact .inr ⟨(op, operand), rfl, fun hoperand => hfold ⟨⟨rfl, hfirst⟩, hoperand⟩⟩
        · exact .inl hfirst
      · refine (h.named hacc).imp_right ?_
        rintro ⟨q, hq, hne⟩
        exact ⟨q, by rwa [List.head?_append_of_ne_nil _ hacc], hne⟩

end Gathers

section Build

variable {s : Settings}

mutual

theorem Chain.normal_build (hs : s.folds = true) {t : Tier} {e : Expression} : {d : Chain t} →
    d.build s = .ok e → e.Normal ∧ (t = .high → e.Below .low)
  | .mk first rest, h => by
    rw [Chain.build] at h
    obtain ⟨x, hx, h⟩ := bind_eq_ok.1 h
    obtain ⟨hn, hb⟩ := first.normal_build hs hx
    exact rest.normal_buildFrom hs (gathers_nil hn (first.expresses_build hx).listed hb) h

theorem Tail.normal_buildFrom (hs : s.folds = true) {t : Tier} {e first : Expression}
    {acc : List (Operator × Expression)} : (d : Tail t) → Gathers t first acc →
    d.buildFrom s first acc = .ok e → e.Normal ∧ (t = .high → e.Below .low)
  | .nil, hg, h => by
    rw [Tail.buildFrom] at h
    cases h
    exact hg.close
  | .cons op hop operand rest, hg, h => by
    rw [Tail.buildFrom] at h
    obtain ⟨y, hy, h⟩ := bind_eq_ok.1 h
    obtain ⟨p, hp, h⟩ := bind_eq_ok.1 h
    obtain ⟨hn, hb⟩ := operand.normal_build hs hy
    exact rest.normal_buildFrom hs
      (hg.extend hs hop hn (operand.expresses_build hy).listed hb hp) h

theorem Operand.normal_build (hs : s.folds = true) {t : Tier} {e : Expression} : (d : Operand t) →
    d.build s = .ok e → e.Normal ∧ e.Below t
  | .chain _, h => by
    obtain ⟨hn, hb⟩ := Chain.normal_build hs h
    exact ⟨hn, hb rfl⟩
  | .factor f, h => f.normal_build hs h

theorem Factor.normal_build (hs : s.folds = true) {e : Expression} : (d : Factor) →
    d.build s = .ok e → e.Normal ∧ e.isChain = false
  | .group _, h => by
    rw [Factor.build] at h
    obtain ⟨e, he, h⟩ := bind_eq_ok.1 h
    cases h
    exact ⟨(Chain.normal_build hs he).1.group, rfl⟩
  | .number n, h => by
    rw [Factor.build] at h
    cases h
    exact ⟨normal_constant _, rfl⟩
  | .quantity _ _, h => by
    rw [Factor.build] at h
    cases h
    exact ⟨normal_quantity _, rfl⟩
  | .call _ _ args, h => by
    rw [Factor.build] at h
    split at h
    · cases h
    · obtain ⟨es, hes, h⟩ := bind_eq_ok.1 h
      obtain ⟨_, -, h⟩ := bind_eq_ok.1 h
      cases h
      exact ⟨normal_ofCall _ _ (args.normal_build hs hes), rfl⟩

theorem Arguments.normal_build (hs : s.folds = true) {es : List Expression} : (d : Arguments) →
    d.build s = .ok es → ∀ e ∈ es, e.Normal
  | .last _, h => by
    rw [Arguments.build] at h
    obtain ⟨e, he, h⟩ := bind_eq_ok.1 h
    cases h
    simpa using (Chain.normal_build hs he).1
  | .cons _ rest, h => by
    rw [Arguments.build] at h
    obtain ⟨e, he, h⟩ := bind_eq_ok.1 h
    obtain ⟨es, hes, h⟩ := bind_eq_ok.1 h
    cases h
    exact List.forall_mem_cons.2 ⟨(Chain.normal_build hs he).1, rest.normal_build hs hes⟩

end

end Build

end Grammar

namespace Expression

open Text Grammar

/-- In the tree of a text, whatever is bound in it, precedence is in the shape: each chain is one of
some tier, none stands where there is no name, and going strictly from left to right computes every
node by precedence. -/
theorem normal_of_parse {r : Registry} {text : String} {e : Expression} (h : parse r text = .ok e)
    (bindings : List (String × Float)) :
    (bindEach bindings e).Normal ∧
    (∀ n, Occurs n (bindEach bindings e) → n.leaves = [] → ∀ m, Occurs m n → m.isChain = false) ∧
    ∀ n, Occurs n (bindEach bindings e) → n.value = n.row.byPrecedence := by
  obtain ⟨d, -, hb⟩ := exists_build_of_readWhole h
  have hn : (bindEach bindings e).Normal := by
    rw [(d.expresses_build hb).bindEach_eq]
    exact (d.normal_build rfl hb).1.assign
  exact ⟨hn, fun n hnode hleaves m hm => (hn.of_occurs hnode).isChain_of_leaves hleaves hm,
    fun n hnode => (hn.of_occurs hnode).value_eq⟩

theorem normal_of_parse_tiers : ∃ e, parse .builtin "2*3*x - (1 + y/4)/2 - x*y" = .ok e ∧
    (bindEach [("x", 2), ("y", 4)] e).Normal ∧
    (bindEach [("x", 2), ("y", 4)] e).row.byPrecedence = .ok 3 := by
  let number (x : Char) (h : isNumeral [x] = true) : Operand .high := .factor (.number ⟨[x], h⟩)
  let name (x : Char) (h : isWord [x] = true) : Operand .high := .factor (.quantity none ⟨[x], h⟩)
  let product : Operand .low := .chain (.mk (number '2' rfl)
    (.cons .multiply rfl (number '3' rfl) (.cons .multiply rfl (name 'x' rfl) .nil)))
  let quarter : Operand .low := .chain (.mk (name 'y' rfl) (.cons .divide rfl (number '4' rfl) .nil))
  let sum : Chain .low := .mk (.chain (.mk (number '1' rfl) .nil)) (.cons .add rfl quarter .nil)
  let half : Operand .low := .chain (.mk (.factor (.group sum))
    (.cons .divide rfl (number '2' rfl) .nil))
  let area : Operand .low := .chain (.mk (name 'x' rfl) (.cons .multiply rfl (name 'y' rfl) .nil))
  let d : Chain .low := .mk product (.cons .subtract rfl half (.cons .subtract rfl area .nil))
  have hd : d.Renders "2*3*x - (1 + y/4)/2 - x*y" := spaced_of_spells (by decide)
  obtain ⟨e, hb⟩ : ∃ e, d.build { registry := .builtin } = .ok e := ⟨_, rfl⟩
  have h : parse .builtin "2*3*x - (1 + y/4)/2 - x*y" = .ok e := (readWhole_of_renders hd).trans hb
  obtain ⟨hn, -, hvalue⟩ := normal_of_parse h [("x", 2), ("y", 4)]
  refine ⟨e, h, hn, ?_⟩
  rw [← hvalue _ .self, (d.expresses_build hb).value_bindEach]
  decide +kernel

end Expression

end Reckoner
