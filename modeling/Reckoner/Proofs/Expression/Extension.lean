import Reckoner.Expression.Grammar
import Reckoner.Proofs.Calculation.Registration
import Reckoner.Proofs.Cursor.Outcomes

/-!
# Expressions under larger registries

A registry that finds all that another finds (`Registry.Extends`), as one does that more has been
offered to, changes a reading only where the other one misses a name: each rule of the grammar then
takes the same step (`Expression.keeps_readTier`). So what is accepted stays accepted, as the same
tree, and what is refused for another cause is refused for that cause
(`Expression.parse_registerAll`).
-/

namespace Reckoner

open Cursor

/-- Whatever one registry finds under a name, the other finds as well. -/
def Registry.Extends (r' r : Registry) : Prop :=
  ∀ name f, r.lookup name = some f → r'.lookup name = some f

theorem Registry.extends_registerAll (r : Registry) (fs : List Calculation) :
    (r.registerAll fs).Extends r := by
  intro name f h
  rw [lookup_registerAll, h, Option.some_or]

namespace Step

variable {α β : Type} {c d : Cursor}

/-- The steps are the same, unless the first misses a name. -/
def Keeps (s t : Step SyntaxError α c) : Prop :=
  (∃ name, s.result = .error (.unknownFunction name)) ∨ s = t

namespace Keeps

theorem same (s : Step SyntaxError α c) : s.Keeps s :=
  .inr rfl

variable {s t : Step SyntaxError α c}

theorem missing (name : String) : (fail (.unknownFunction name) c).Keeps t :=
  .inl ⟨name, rfl⟩

theorem within (h : s.Keeps t) (hle : c.size ≤ d.size) : (s.within hle).Keeps (t.within hle) := by
  rcases h with hs | rfl
  · exact .inl hs
  · exact .same _

theorem beyond (h : s.Keeps t) (hlt : c.size < d.size) : (s.beyond hlt).Keeps (t.beyond hlt) :=
  h.within (Nat.le_of_lt hlt)

theorem map (h : s.Keeps t) (f : α → β) : (s.map f).Keeps (t.map f) := by
  rcases h with ⟨name, hs⟩ | rfl
  · exact .inl ⟨name, congrArg (Except.map f) hs⟩
  · exact .same _

theorem andThen {f g : α → (d : Cursor) → d.size ≤ c.size → Step SyntaxError β d} (h : s.Keeps t)
    (hfg : ∀ a d hd, (f a d hd).Keeps (g a d hd)) : (s.andThen f).Keeps (t.andThen g) := by
  rcases h with ⟨name, hs⟩ | rfl
  · exact .inl ⟨name, congrArg Prod.fst (pair_andThen_of_error hs)⟩
  · rcases s with ⟨e | a, d, hd⟩
    · exact .inr rfl
    · exact (hfg a d hd).within hd

theorem afterBlanks {f g : (d : Cursor) → d.size ≤ c.size → Step SyntaxError α d}
    (hfg : ∀ d hd, (f d hd).Keeps (g d hd)) :
    (Step.afterBlanks c f).Keeps (Step.afterBlanks c g) :=
  (hfg _ _).within _

theorem onPeek {ended : Step SyntaxError α c}
    {f g : (x : Char) → (d : Cursor) → d.size < c.size → Step SyntaxError α c}
    (hfg : ∀ x d hd, (f x d hd).Keeps (g x d hd)) :
    (Step.onPeek c ended f).Keeps (Step.onPeek c ended g) := by
  rw [Step.onPeek, Step.onPeek]
  split
  · exact .same _
  · exact hfg _ _ _

theorem onNext {x : Char} {f g : (d : Cursor) → d.size < c.size → Step SyntaxError α d}
    {f' g' : (d : Cursor) → d.size ≤ c.size → Step SyntaxError α d}
    (hfound : ∀ d hd, (f d hd).Keeps (g d hd)) (hmissing : ∀ d hd, (f' d hd).Keeps (g' d hd)) :
    (Step.onNext x c f f').Keeps (Step.onNext x c g g') := by
  rw [Step.onNext, Step.onNext]
  split
  · exact (hfound _ _).beyond _
  · exact (hmissing _ _).within _

theorem require {x : Char} {e : SyntaxError}
    {f g : (d : Cursor) → d.size < c.size → Step SyntaxError α d}
    (hfg : ∀ d hd, (f d hd).Keeps (g d hd)) :
    (Step.require x c e f).Keeps (Step.require x c e g) :=
  onNext hfg fun _ _ => .same _

end Keeps

end Step

namespace Expression

variable {s s' : Settings}

/-- Settings with a larger registry that are otherwise the same. -/
structure Settings.Widens (s' s : Settings) : Prop where
  extends_registry : s'.registry.Extends s.registry
  folds_eq : s'.folds = s.folds

theorem Settings.Widens.extend_eq (h : s'.Widens s) (first : Expression)
    (rest : List (Operator × Expression)) (op : Operator) (operand : Expression) :
    s'.extend first rest op operand = s.extend first rest op operand := by
  rw [Settings.extend, Settings.extend, h.folds_eq]

mutual

theorem keeps_readTerm (h : s'.Widens s) (c : Cursor) : (readTerm s c).Keeps (readTerm s' c) := by
  rw [readTerm, readTerm]
  refine .onNext (fun c₁ h₁ => ?_) fun c₁ h₁ => ?_
  · refine .andThen (keeps_readTier h .low c₁) fun inner c₂ _ => ?_
    exact .require fun c₃ _ => .same _
  · refine .andThen (.same (readNumber c₁)) fun coefficient c₂ h₂ => ?_
    refine .andThen (.same (Step.name c₂)) fun name c₃ h₃ => ?_
    match name, coefficient with
    | some name, coefficient =>
      exact .onNext (fun c₄ h₄ => keeps_readCall h name coefficient c₄) fun c₄ _ => .same _
    | none, some n => exact .same _
    | none, none => exact .same _
  termination_by (c.size, 0)
  decreasing_by
    · exact .left _ _ h₁
    · exact .left _ _ (Nat.lt_of_lt_of_le h₄ (Nat.le_trans h₃ (Nat.le_trans h₂ h₁)))

theorem keeps_readCall (h : s'.Widens s) (name : String) (coefficient : Option Float) (c : Cursor) :
    (readCall s name coefficient c).Keeps (readCall s' name coefficient c) := by
  rw [readCall, readCall]
  cases hf : s.registry.lookup name with
  | none => exact .missing name
  | some f =>
    rw [h.extends_registry name f hf]
    exact .andThen (keeps_readArgs h c) fun args c₁ _ => .same _
  termination_by (c.size, 6)
  decreasing_by exact .right' _ (Nat.le_refl _) (by decide)

theorem keeps_readArgs (h : s'.Widens s) (c : Cursor) : (readArgs s c).Keeps (readArgs s' c) := by
  rw [readArgs, readArgs]
  refine .andThen (keeps_readTier h .low c) fun arg c₁ h₁ => ?_
  exact .onNext (fun c₂ h₂ => .map (keeps_readArgs h c₂) _) fun c₂ _ => .same _
  termination_by (c.size, 5)
  decreasing_by
    · exact .right' _ (Nat.le_refl _) (by decide)
    · exact .left _ _ (Nat.lt_of_lt_of_le h₂ h₁)

theorem keeps_readOperand (h : s'.Widens s) (tier : Tier) (c : Cursor) :
    (readOperand s tier c).Keeps (readOperand s' tier c) := by
  rw [readOperand, readOperand]
  refine .afterBlanks fun c₁ h₁ => ?_
  match tier with
  | .low => exact keeps_readTier h .high c₁
  | .high => exact keeps_readTerm h c₁
  termination_by (c.size, depth tier)
  decreasing_by
    · exact .right' _ h₁ (by decide)
    · exact .right' _ h₁ (by decide)

theorem keeps_readTier (h : s'.Widens s) (tier : Tier) (c : Cursor) :
    (readTier s tier c).Keeps (readTier s' tier c) := by
  rw [readTier, readTier]
  exact .andThen (keeps_readOperand h tier c) fun first c₁ h₁ => keeps_readChain h tier first [] c₁
  termination_by (c.size, depth tier + 1)
  decreasing_by
    · exact .right' _ (Nat.le_refl _) (Nat.lt_succ_self _)
    · exact .right' _ h₁ (Nat.succ_pos _)

theorem keeps_readChain (h : s'.Widens s) (tier : Tier) (first : Expression)
    (rest : List (Operator × Expression)) (c : Cursor) :
    (readChain s tier first rest c).Keeps (readChain s' tier first rest c) := by
  rw [readChain, readChain]
  refine .afterBlanks fun c₁ h₁ => .onPeek fun x c₂ h₂ => ?_
  split
  · split
    · refine .beyond (.andThen (keeps_readOperand h tier c₂) fun operand c₃ h₃ => ?_) _
      rw [h.extend_eq]
      split
      · exact .same _
      · exact keeps_readChain h tier _ _ c₃
    · exact .same _
  · exact .same _
  termination_by (c.size, 0)
  decreasing_by
    · exact .left _ _ (Nat.lt_of_lt_of_le h₂ h₁)
    · exact .left _ _ (Nat.lt_of_le_of_lt h₃ (Nat.lt_of_lt_of_le h₂ h₁))

end

/-- A text is read as it was, unless a name was missing. -/
theorem readWhole_of_widens (h : s'.Widens s) (c : Cursor) :
    (∃ name, readWhole s c = .error (.unknownFunction name)) ∨ readWhole s' c = readWhole s c := by
  rcases keeps_readTier h .low c with ⟨name, hs⟩ | hs
  · left
    refine ⟨name, ?_⟩
    rw [readWhole, Expression.read, Step.pair, hs]
  · right
    rw [readWhole, readWhole, Expression.read, Expression.read, hs]

/-- Offering more calculations to a registry never changes what a text means. Started empty or with the
built-in ones, a registry finds under a name the first calculation of that name; and whatever a registry
is and is offered, a text that was accepted stays accepted, as the same tree, and one that was refused
for another reason than a missing name is refused for the same reason. -/
theorem parse_registerAll :
    (∀ fs, (Registry.empty.registerAll fs).Holds fs) ∧
    (∀ fs, (Registry.builtin.registerAll fs).Holds (Calculation.builtins ++ fs)) ∧
    ∀ (r : Registry) (fs : List Calculation) (text : String),
      (∀ e, parse r text = .ok e → parse (r.registerAll fs) text = .ok e) ∧
      ∀ err, parse r text = .error err → (∀ name, err ≠ .unknownFunction name) →
        parse (r.registerAll fs) text = .error err := by
  refine ⟨Registry.holds_registerAll, fun fs => ?_, fun r fs text => ?_⟩
  · rw [Registry.builtin_eq, ← Registry.registerAll_append]
    exact Registry.holds_registerAll _
  have hwidens : Settings.Widens { registry := r.registerAll fs } { registry := r } :=
    ⟨r.extends_registerAll fs, rfl⟩
  have hparse := readWhole_of_widens hwidens (ofString text)
  refine ⟨fun e he => ?_, fun err herr hne => ?_⟩
  · rcases hparse with ⟨name, hname⟩ | hsame
    · rw [parse, hname] at he
      cases he
    · exact hsame.trans he
  · rcases hparse with ⟨name, hname⟩ | hsame
    · rw [parse, hname] at herr
      exact absurd (Except.error.inj herr).symm (hne name)
    · exact hsame.trans herr

end Expression

end Reckoner
