import Reckoner.Grade.Formula
import Reckoner.Proofs.Grade.Shares
import Reckoner.Proofs.Literal.Word
import Reckoner.Proofs.Text.Spacing

/-!
# Derivations of formulas

    term := [number] ('*' [number])* (name | '(' term ('+' term)* ')' [number]) ['/' [number]]

The derivations of this grammar, apart from any reader of it: the lexemes and the names that they
spell, and the coefficient of each name when the numbers around a term count for a multiplier and a
divisor (`Derivation.coefficients`). The term of a derivation carries the coefficients for the whole
numbers that these come to, zero passed over (`Derivation.carries_build`).
-/

namespace Reckoner

namespace Term

/-- A mark, with a number behind it or not. -/
def marked (mark : Char) (n : Option Numeral) : List (List Char) :=
  [mark] :: n.toList.map Numeral.chars

/-- What stands in front of a term: a number or none, and stars with a number behind each or none. -/
structure Multipliers where
  first : Option Numeral
  starred : List (Option Numeral)

namespace Multipliers

def lexemes (m : Multipliers) : List (List Char) :=
  m.first.toList.map Numeral.chars ++ m.starred.flatMap (marked '*')

def numbers (m : Multipliers) : List Numeral :=
  m.first.toList ++ m.starred.flatMap Option.toList

end Multipliers

/-- What stands behind a term: nothing, or a slash with a number behind it or none. -/
abbrev Divisor : Type := Option (Option Numeral)

namespace Divisor

def lexemes (d : Divisor) : List (List Char) :=
  d.elim [] (marked '/')

def numbers (d : Divisor) : List Numeral :=
  d.elim [] Option.toList

end Divisor

mutual

/-- A term, with what stands around it. -/
inductive Derivation : Type where
  | grade (before : Multipliers) (name : Word) (divisor : Divisor)
  | group (before : Multipliers) (members : Row) (after : Option Numeral) (divisor : Divisor)

/-- One or more terms. -/
inductive Row : Type where
  | last (t : Derivation)
  | cons (t : Derivation) (rest : Row)

end

mutual

/-- The lexemes in the order in which they are written. -/
def Derivation.lexemes : Derivation → List (List Char)
  | .grade before name divisor => before.lexemes ++ name.chars :: divisor.lexemes
  | .group before members after divisor => before.lexemes ++
    ['('] :: (members.lexemes ++ [')'] :: (after.toList.map Numeral.chars ++ divisor.lexemes))

def Row.lexemes : Row → List (List Char)
  | .last t => t.lexemes
  | .cons t rest => t.lexemes ++ ['+'] :: rest.lexemes

end

mutual

/-- The names from left to right, as often as they occur. -/
def Derivation.names : Derivation → List String
  | .grade _ name _ => [name.text]
  | .group _ members _ _ => members.names

def Row.names : Row → List String
  | .last t => t.names
  | .cons t rest => t.names ++ rest.names

end

mutual

/-- The numbers that multiply a term together, and those that divide it, for all terms. -/
def Derivation.factors : Derivation → List (List Numeral)
  | .grade before _ divisor => [before.numbers, divisor.numbers]
  | .group before members after divisor =>
    (before.numbers ++ after.toList) :: divisor.numbers :: members.factors

def Row.factors : Row → List (List Numeral)
  | .last t => t.factors
  | .cons t rest => t.factors ++ rest.factors

end

section Coefficients

variable (value : List Numeral → ℚ)

mutual

/-- The names with their coefficients, if numbers that stand together count for `value`. -/
def Derivation.coefficients : Derivation → Shares
  | .grade before name divisor => [(name.text, value before.numbers / value divisor.numbers)]
  | .group before members after divisor =>
    members.coefficients.scale (value (before.numbers ++ after.toList) / value divisor.numbers)

def Row.coefficients : Row → Shares
  | .last t => t.coefficients
  | .cons t rest => t.coefficients ++ rest.coefficients

end

variable {value}

mutual

theorem Derivation.names_coefficients : (d : Derivation) →
    (d.coefficients value).map Prod.fst = d.names
  | .grade .. => by simp [Derivation.coefficients, Derivation.names]
  | .group _ members _ _ => by
    rw [Derivation.coefficients, Derivation.names, Shares.names_scale, members.names_coefficients]

theorem Row.names_coefficients : (ts : Row) → (ts.coefficients value).map Prod.fst = ts.names
  | .last t => by rw [Row.coefficients, Row.names, t.names_coefficients]
  | .cons t rest => by
    rw [Row.coefficients, Row.names, List.map_append, t.names_coefficients, rest.names_coefficients]

end

mutual

theorem Derivation.coefficients_ne_zero (h : ∀ ns, value ns ≠ 0) : (d : Derivation) →
    ∀ l ∈ d.coefficients value, l.2 ≠ 0
  | .grade .., l, hl => by
    rw [Derivation.coefficients, List.mem_singleton] at hl
    rw [hl]
    exact div_ne_zero (h _) (h _)
  | .group _ members _ _, l, hl => by
    rw [Derivation.coefficients, Shares.scale, List.mem_map] at hl
    obtain ⟨k, hk, rfl⟩ := hl
    exact mul_ne_zero (members.coefficients_ne_zero h k hk) (div_ne_zero (h _) (h _))

theorem Row.coefficients_ne_zero (h : ∀ ns, value ns ≠ 0) : (ts : Row) →
    ∀ l ∈ ts.coefficients value, l.2 ≠ 0
  | .last t, l, hl => t.coefficients_ne_zero h l hl
  | .cons t rest, l, hl => by
    rcases List.mem_append.1 hl with hl | hl
    · exact t.coefficients_ne_zero h l hl
    · exact rest.coefficients_ne_zero h l hl

end

variable {other : List Numeral → ℚ}

mutual

/-- Only what the factors count for matters. -/
theorem Derivation.coefficients_congr : (d : Derivation) → (∀ ns ∈ d.factors, value ns = other ns) →
    d.coefficients value = d.coefficients other
  | .grade .., h => by
    rw [Derivation.factors] at h
    rw [Derivation.coefficients, Derivation.coefficients, h _ (.head _), h _ (.tail _ (.head _))]
  | .group _ members _ _, h => by
    rw [Derivation.factors] at h
    rw [Derivation.coefficients, Derivation.coefficients, h _ (.head _), h _ (.tail _ (.head _)),
      members.coefficients_congr fun ns hns => h ns (.tail _ (.tail _ hns))]

theorem Row.coefficients_congr : (ts : Row) → (∀ ns ∈ ts.factors, value ns = other ns) →
    ts.coefficients value = ts.coefficients other
  | .last t, h => t.coefficients_congr h
  | .cons t rest, h => by
    rw [Row.factors] at h
    rw [Row.coefficients, Row.coefficients,
      t.coefficients_congr fun ns hns => h ns (List.mem_append_left _ hns),
      rest.coefficients_congr fun ns hns => h ns (List.mem_append_right _ hns)]

end

end Coefficients

/-- What has been multiplied so far and the numbers, from left to right and as doubles. -/
def carriedFrom (acc : Option Float) (ns : List Numeral) : Option Float :=
  ns.foldl (fun acc n => product acc (some n.value)) acc

/-- The numbers multiplied, if there are any. -/
def carried (ns : List Numeral) : Option Float :=
  carriedFrom none ns

theorem carriedFrom_append (acc : Option Float) (ms ns : List Numeral) :
    carriedFrom acc (ms ++ ns) = carriedFrom (carriedFrom acc ms) ns :=
  List.foldl_append

theorem carriedFrom_toList (acc : Option Float) (n : Option Numeral) :
    carriedFrom acc n.toList = product acc (n.map Numeral.value) := by
  cases n <;> cases acc <;> rfl

theorem carriedFrom_some (m : Float) (ns : List Numeral) :
    carriedFrom (some m) ns = some (ns.foldl (fun m n => m * n.value) m) := by
  induction ns generalizing m with
  | nil => rfl
  | cons n ns ih => exact ih (m * n.value)

theorem carried_cons (n : Numeral) (ns : List Numeral) :
    carried (n :: ns) = some (ns.foldl (fun m n => m * n.value) n.value) :=
  carriedFrom_some n.value ns

theorem carriedFrom_numbers (m : Multipliers) :
    carriedFrom (m.first.map Numeral.value) (m.starred.flatMap Option.toList) = carried m.numbers := by
  rw [carried, Multipliers.numbers, carriedFrom_append, carriedFrom_toList]
  cases m.first <;> rfl

/-- The numbers as one factor, which is one if there are none. -/
def wholeFactor (ns : List Numeral) : Except GradeError Int64 :=
  match carried ns with
  | none => .ok 1
  | some m => factor m

/-- The whole number that the numbers come to, where they come to one. -/
def whole (ns : List Numeral) : Int64 :=
  (wholeFactor ns).toOption.getD 1

/-- Divides a term by the number behind the slash, if there is one. -/
def divideBy (divisor : Option Float) (t : Term) : Except GradeError Term :=
  match divisor with
  | none => .ok t
  | some d => (factor d).bind t.divide

mutual

/-- The term of the derivation. -/
def Derivation.build : Derivation → Except GradeError Term
  | .grade before name divisor => do
    let t ← scaleBy (carried before.numbers) (grade name.text .one)
    divideBy (carried divisor.numbers) t
  | .group before members after divisor => do
    let ts ← members.build
    let t ← ofMembers ts
    let t ← scaleBy (carried (before.numbers ++ after.toList)) t
    divideBy (carried divisor.numbers) t

def Row.build : Row → Except GradeError (List Term)
  | .last t => do
    let t ← t.build
    return [t]
  | .cons t rest => do
    let t ← t.build
    let ts ← rest.build
    return t :: ts

end

section Carries

variable {t t' : Term} {ls : Shares} {ns : List Numeral}

theorem wholeFactor_of_none (h : carried ns = none) :
    wholeFactor ns = .ok (whole ns) ∧ effect (whole ns) = 1 := by
  have hw : wholeFactor ns = .ok 1 := by rw [wholeFactor, h]
  rw [whole, hw]
  exact ⟨rfl, rfl⟩

theorem wholeFactor_of_some {m : Float} {n : Int64} (h : carried ns = some m) (hn : factor m = .ok n) :
    wholeFactor ns = .ok (whole ns) ∧ whole ns = n := by
  have hw : wholeFactor ns = .ok n := by
    rw [wholeFactor, h]
    exact hn
  rw [whole, hw]
  exact ⟨rfl, rfl⟩

theorem eq_or_rescale_of_scaleBy {k : Option Float} (h : scaleBy k t = .ok t') :
    t' = t ∨ ∃ n : Int64, t.rescale (·.scaleUp n) = .ok t' := by
  cases k with
  | none => exact .inl (Except.ok.inj h).symm
  | some m =>
    obtain ⟨n, -, h⟩ := bind_eq_ok.1 h
    rw [multiply] at h
    split at h
    · exact .inl (Except.ok.inj h).symm
    · exact .inr ⟨n, h⟩

/-- Nothing behind the slash and zero leave the term as it is. -/
theorem eq_or_rescale_of_divideBy (h : divideBy (carried ns) t = .ok t') :
    effect (whole ns) = 1 ∧ t' = t ∨ whole ns ≠ 0 ∧ effect (whole ns) = (whole ns).toInt ∧
      t.rescale (·.scaleDown (whole ns)) = .ok t' := by
  cases hc : carried ns with
  | none =>
    rw [hc, divideBy] at h
    exact .inl ⟨(wholeFactor_of_none hc).2, (Except.ok.inj h).symm⟩
  | some m =>
    rw [hc, divideBy] at h
    obtain ⟨n, hn, h⟩ := bind_eq_ok.1 h
    obtain ⟨-, rfl⟩ := wholeFactor_of_some hc hn
    rw [divide] at h
    split at h
    · rename_i hzero
      exact .inl ⟨by rw [effect, if_pos hzero], (Except.ok.inj h).symm⟩
    · rename_i hne
      exact .inr ⟨hne, by rw [effect, if_neg hne], h⟩

theorem Carries.scaleBy (h : t.Carries ls) (ht : scaleBy (carried ns) t = .ok t') :
    wholeFactor ns = .ok (whole ns) ∧ t'.Carries (ls.scale (effect (whole ns))) := by
  cases hc : carried ns with
  | none =>
    obtain ⟨hw, hone⟩ := wholeFactor_of_none hc
    rw [hc, Term.scaleBy] at ht
    obtain rfl := Except.ok.inj ht
    exact ⟨hw, by rwa [hone, Shares.scale_one]⟩
  | some m =>
    rw [hc, Term.scaleBy] at ht
    obtain ⟨n, hn, ht⟩ := bind_eq_ok.1 ht
    obtain ⟨hw, heq⟩ := wholeFactor_of_some hc hn
    exact ⟨hw, heq ▸ h.multiply ht⟩

theorem Carries.divideBy (h : t.Carries ls) (ht : divideBy (carried ns) t = .ok t') :
    wholeFactor ns = .ok (whole ns) ∧ t'.Carries (ls.scale (effect (whole ns))⁻¹) := by
  cases hc : carried ns with
  | none =>
    obtain ⟨hw, hone⟩ := wholeFactor_of_none hc
    rw [hc, Term.divideBy] at ht
    obtain rfl := Except.ok.inj ht
    exact ⟨hw, by rwa [hone, inv_one, Shares.scale_one]⟩
  | some m =>
    rw [hc, Term.divideBy] at ht
    obtain ⟨n, hn, ht⟩ := bind_eq_ok.1 ht
    obtain ⟨hw, heq⟩ := wholeFactor_of_some hc hn
    exact ⟨hw, heq ▸ h.divide ht⟩

mutual

/-- All numbers come to whole ones, and the term carries the coefficients that these make. -/
theorem Derivation.carries_build : (d : Derivation) → {t : Term} → d.build = .ok t →
    (∀ ns ∈ d.factors, wholeFactor ns = .ok (whole ns)) ∧
      t.Carries (d.coefficients fun ns => effect (whole ns))
  | .grade before name divisor, t, h => by
    rw [Derivation.build] at h
    obtain ⟨t₁, h₁, h⟩ := bind_eq_ok.1 h
    obtain ⟨hm, hc₁⟩ := (Carries.grade Fraction.denotes_one).scaleBy h₁
    obtain ⟨hd, hc⟩ := hc₁.divideBy h
    rw [Derivation.factors, Derivation.coefficients]
    refine ⟨by simp [hm, hd], ?_⟩
    simpa [Shares.scale, div_eq_mul_inv] using hc
  | .group before members after divisor, t, h => by
    rw [Derivation.build] at h
    obtain ⟨ts, hts, h⟩ := bind_eq_ok.1 h
    obtain ⟨t₀, h₀, h⟩ := bind_eq_ok.1 h
    obtain ⟨t₁, h₁, h⟩ := bind_eq_ok.1 h
    obtain ⟨hmembers, hcs, hne⟩ := members.carries_build hts
    obtain ⟨hm, hc₁⟩ := (hcs.ofMembers hne h₀).scaleBy h₁
    obtain ⟨hd, hc⟩ := hc₁.divideBy h
    rw [Derivation.factors, Derivation.coefficients]
    refine ⟨by simpa [hm, hd] using hmembers, ?_⟩
    rwa [Shares.scale_scale, ← div_eq_mul_inv] at hc

theorem Row.carries_build : (ts : Row) → {us : List Term} → ts.build = .ok us →
    (∀ ns ∈ ts.factors, wholeFactor ns = .ok (whole ns)) ∧
      CarriesAll us (ts.coefficients fun ns => effect (whole ns)) ∧ us ≠ []
  | .last t, us, h => by
    rw [Row.build] at h
    obtain ⟨u, hu, h⟩ := bind_eq_ok.1 h
    obtain rfl := Except.ok.inj h
    obtain ⟨hfactors, hc⟩ := t.carries_build hu
    exact ⟨hfactors, hc.singleton, by simp⟩
  | .cons t rest, us, h => by
    rw [Row.build] at h
    obtain ⟨u, hu, h⟩ := bind_eq_ok.1 h
    obtain ⟨us', hus, h⟩ := bind_eq_ok.1 h
    obtain rfl := Except.ok.inj h
    obtain ⟨hfactors, hc⟩ := t.carries_build hu
    obtain ⟨hrest, hcs, -⟩ := rest.carries_build hus
    refine ⟨fun ns hns => ?_, .cons hc hcs, by simp⟩
    rcases List.mem_append.1 hns with hns | hns
    · exact hfactors ns hns
    · exact hrest ns hns

end

end Carries

end Term

end Reckoner
