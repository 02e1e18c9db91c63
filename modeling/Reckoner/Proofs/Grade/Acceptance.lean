import Reckoner.Proofs.Grade.Alignment
import Reckoner.Proofs.Grade.Counting

/-!
# Which formulas are accepted

A formula is well-formed if its numbers are counts, its coefficients make up the whole and nothing in
it comes near the largest integer (`Term.Derivation.WellFormed`). A well-formed formula is accepted
just if it is shallow, with one grade for each name in order (`Formula.parse_wellFormed`): a group of
several terms that stands in a group has to be a group of grades
(`Formula.parse_nested_groups`).
-/

namespace Reckoner

open Text Cursor

theorem spaced_flatten : (ls : List (List Char)) → Spaced ls ls.flatten
  | [] => .nil blanks_nil
  | _ :: ls => .cons blanks_nil (spaced_flatten ls)

theorem Text.Spaced.cons_char {ls : List (List Char)} {cs : List Char} (h : Spaced ls cs) (x : Char) :
    Spaced ([x] :: ls) (x :: cs) :=
  .cons (l := [x]) blanks_nil h

section Unsigned

variable {x : Char} {pre post : List Char}

theorem Unsigned.cons (h : Unsigned post) (hx : isSign x = false) : Unsigned (x :: post) := by
  refine List.isChain_cons.2 ⟨fun y _ hsign => ?_, h⟩
  rw [hx] at hsign
  cases hsign

theorem Unsigned.prepend (h : Unsigned post) (hpre : ∀ x ∈ pre, isSign x = false) :
    Unsigned (pre ++ post) := by
  induction pre with
  | nil => exact h
  | cons x pre ih =>
    obtain ⟨hx, hpre⟩ := List.forall_mem_cons.1 hpre
    exact (ih hpre).cons hx

/-- A sign with a blank behind it is not the front of a number. -/
theorem Unsigned.sign_cons (h : Unsigned post) (x : Char) : Unsigned (x :: ' ' :: post) := by
  refine List.isChain_cons.2 ⟨fun y hy _ => ?_, h.cons rfl⟩
  obtain rfl := Option.some.inj hy
  rfl

end Unsigned

theorem isSign_of_isNameRest {x : Char} (h : isNameRest x = true) : isSign x = false := by
  by_contra hs
  simp only [isSign, Bool.not_eq_false, Bool.or_eq_true, decide_eq_true_eq] at hs
  rcases hs with rfl | rfl <;> exact absurd h (by decide)

theorem Word.isSign_chars (w : Word) : ∀ x ∈ w.chars, isSign x = false := by
  obtain ⟨_, _, -, -, hall⟩ := w.chars_eq_cons
  exact fun x hx => isSign_of_isNameRest (hall x hx)

namespace Term

variable {n : Option Numeral}

theorem isSign_numeral (h : ∀ k ∈ n.toList, k.IsCount) :
    ∀ x ∈ (n.toList.map Numeral.chars).flatten, isSign x = false := by
  intro x hx
  obtain ⟨l, hl, hx⟩ := List.mem_flatten.1 hx
  obtain ⟨k, hk, rfl⟩ := List.mem_map.1 hl
  exact Decimal.isSign_of_isDigit ((h k hk).digits x hx)

theorem isSign_marked {mark : Char} (hmark : isSign mark = false) (h : ∀ k ∈ n.toList, k.IsCount) :
    ∀ x ∈ (marked mark n).flatten, isSign x = false := by
  rw [marked, List.flatten_cons, List.singleton_append, List.forall_mem_cons]
  exact ⟨hmark, isSign_numeral h⟩

theorem Multipliers.isSign_lexemes {m : Multipliers} (h : ∀ k ∈ m.numbers, k.IsCount) :
    ∀ x ∈ m.lexemes.flatten, isSign x = false := by
  rw [Multipliers.numbers, List.forall_mem_append] at h
  rw [Multipliers.lexemes, List.flatten_append, List.forall_mem_append]
  refine ⟨isSign_numeral h.1, fun x hx => ?_⟩
  obtain ⟨l, hl, hx⟩ := List.mem_flatten.1 hx
  obtain ⟨n, hn, hl⟩ := List.mem_flatMap.1 hl
  exact isSign_marked (by decide) (fun k hk => h.2 k (List.mem_flatMap.2 ⟨n, hn, hk⟩)) x
    (List.mem_flatten.2 ⟨l, hl, hx⟩)

theorem Divisor.isSign_lexemes {d : Divisor} (h : ∀ k ∈ d.numbers, k.IsCount) :
    ∀ x ∈ d.lexemes.flatten, isSign x = false := by
  cases d with
  | none => simp [Divisor.lexemes]
  | some n => exact isSign_marked (by decide) h

mutual

/-- The formula written with a space on each side of a plus sign and none elsewhere. -/
def Derivation.written : Derivation → List Char
  | .grade before name divisor => before.lexemes.flatten ++ (name.chars ++ divisor.lexemes.flatten)
  | .group before members after divisor => before.lexemes.flatten ++ '(' :: (members.written ++
    ')' :: ((after.toList.map Numeral.chars).flatten ++ divisor.lexemes.flatten))

def Row.written : Row → List Char
  | .last t => t.written
  | .cons t rest => t.written ++ ' ' :: '+' :: ' ' :: rest.written

end

mutual

theorem Derivation.spaced_written : (d : Derivation) → Spaced d.lexemes d.written
  | .grade before _ divisor =>
    (spaced_flatten before.lexemes).append (.cons blanks_nil (spaced_flatten divisor.lexemes))
  | .group before members after divisor => by
    have hend := ((spaced_flatten (after.toList.map Numeral.chars)).append
      (spaced_flatten divisor.lexemes)).cons_char ')'
    exact (spaced_flatten before.lexemes).append ((members.spaced_written.append hend).cons_char '(')

theorem Row.spaced_written : (ts : Row) → Spaced ts.lexemes ts.written
  | .last t => t.spaced_written
  | .cons t rest => by
    have hgap : Blanks [' '] := by decide
    exact t.spaced_written.append
      (.cons (l := ['+']) hgap (rest.spaced_written.blanks_append hgap))

end

mutual

/-- Only the plus signs between terms are signs, and a blank stands behind each. -/
theorem Derivation.unsigned_written : (d : Derivation) → (∀ ns ∈ d.factors, ∀ n ∈ ns, n.IsCount) →
    {post : List Char} → Unsigned post → Unsigned (d.written ++ post)
  | .grade before name divisor, hns, post, h => by
    rw [Derivation.factors, List.forall_mem_cons, List.forall_mem_cons] at hns
    rw [Derivation.written, List.append_assoc, List.append_assoc]
    exact ((h.prepend (Divisor.isSign_lexemes hns.2.1)).prepend name.isSign_chars).prepend
      (Multipliers.isSign_lexemes hns.1)
  | .group before members after divisor, hns, post, h => by
    rw [Derivation.factors, List.forall_mem_cons, List.forall_mem_cons, List.forall_mem_append] at hns
    obtain ⟨⟨hbefore, hafter⟩, hdivisor, hmembers⟩ := hns
    have hend := (h.prepend (Divisor.isSign_lexemes hdivisor)).prepend (isSign_numeral hafter)
    have hmembers := members.unsigned_written hmembers (hend.cons (x := ')') rfl)
    have hopen := (hmembers.cons (x := '(') rfl).prepend (Multipliers.isSign_lexemes hbefore)
    simpa [Derivation.written] using hopen

theorem Row.unsigned_written : (ts : Row) → (∀ ns ∈ ts.factors, ∀ n ∈ ns, n.IsCount) →
    {post : List Char} → Unsigned post → Unsigned (ts.written ++ post)
  | .last t, hns, _, h => t.unsigned_written hns h
  | .cons t rest, hns, post, h => by
    rw [Row.factors, List.forall_mem_append] at hns
    have hrest := ((rest.unsigned_written hns.2 h).sign_cons '+').cons (x := ' ') rfl
    simpa [Row.written] using t.unsigned_written hns.1 hrest

end

namespace Derivation

/-- The numbers are counts, the coefficients make up the whole, and all factors together, times the
distinct denominators, times the number of grades are far from the largest integer. -/
structure WellFormed (d : Derivation) : Prop where
  counts : ∀ ns ∈ d.factors, ∀ n ∈ ns, n.IsCount
  total : (d.coefficients fun ns => count ns).total = 1
  small : (d.factors.map count).prod * (d.portions.map Portion.divisor).dedup.prod * d.names.length
    < 2 ^ 31

instance (d : Derivation) : Decidable d.WellFormed :=
  decidable_of_iff ((∀ ns ∈ d.factors, ∀ n ∈ ns, n.IsCount) ∧
    (d.coefficients fun ns => count ns).total = 1 ∧
    (d.factors.map count).prod * (d.portions.map Portion.divisor).dedup.prod * d.names.length < 2 ^ 31)
    ⟨fun h => ⟨h.1, h.2.1, h.2.2⟩, fun h => ⟨h.1, h.2, h.3⟩⟩

variable {d : Derivation}

theorem WellFormed.portions_ne_nil (h : d.WellFormed) : d.portions ≠ [] := by
  intro hnil
  have htotal := h.total
  rw [← d.ofPortions_portions, hnil] at htotal
  exact zero_ne_one htotal

/-- The limits that keep a well-formed formula far from the largest integer. -/
theorem WellFormed.exists_limits (h : d.WellFormed) : ∃ L M Q, Limits L M Q ∧
    Modest L M Q d.portions ∧ (∀ ns ∈ d.factors, Counted ns) ∧
    (d.portions.map Portion.divisor).dedup.prod < 2 ^ 31 ∧
    M * (d.portions.map Portion.divisor).dedup.prod < 2 ^ 31 := by
  obtain ⟨M, Q, hprod, hdvd⟩ := d.exists_bounds
  have hpos : 0 < M * Q := hprod ▸ List.prod_pos fun k hk => by
    obtain ⟨ns, hns, rfl⟩ := List.mem_map.1 hk
    exact count_pos (h.counts ns hns)
  have hM := Nat.pos_of_mul_pos_right hpos
  have hQ := Nat.pos_of_mul_pos_left hpos
  have hdiv : ∀ p ∈ d.portions, 0 < p.divisor := fun p hp => Nat.pos_of_dvd_of_pos (hdvd p hp).2 hQ
  have hsmall := h.small
  have hL := List.length_pos_iff.2 h.portions_ne_nil
  have hD : 0 < (d.portions.map Portion.divisor).dedup.prod := List.prod_pos fun k hk => by
    obtain ⟨p, hp, rfl⟩ := List.mem_map.1 (List.mem_dedup.1 hk)
    exact hdiv p hp
  rw [← d.names_portions, List.length_map] at hsmall
  generalize (d.portions.map Portion.divisor).dedup.prod = D at hsmall hD ⊢
  generalize hlength : d.portions.length = L at hsmall hL
  -- What divides the product of them all is no larger than it.
  have hlt : ∀ {k}, k ∣ M * Q * D * L → k < 2 ^ 31 := fun hk =>
    (Nat.le_of_dvd (Nat.mul_pos (Nat.mul_pos hpos hD) hL) hk).trans_lt (hprod ▸ hsmall)
  refine ⟨L, M, Q, ⟨hQ, hlt ⟨M * D * L, by ring⟩, hlt ⟨Q * D * L, by ring⟩, hlt ⟨D, by ring⟩⟩,
    ⟨hlength.le, fun p hp => ?_⟩, fun ns hns => ⟨h.counts ns hns, ?_⟩,
    hlt ⟨M * Q * L, by ring⟩, hlt ⟨Q * L, by ring⟩⟩
  · exact ⟨Nat.le_of_dvd hM (hdvd p hp).1, hdiv p hp, (hdvd p hp).2⟩
  · have hdvd : count ns ∣ M * Q * D * L := by
      rw [hprod, mul_assoc]
      exact (List.dvd_prod (List.mem_map_of_mem hns)).mul_right _
    exact (hlt hdvd).le.trans (by decide)

/-- A well-formed formula of shallow shape makes a calculator. -/
theorem WellFormed.exists_calculator {ν : Type} (h : d.WellFormed) (hshape : d.shape.shallow = true) :
    ∃ c : Calculator ν, (d.build >>= toCalculator) = .ok c := by
  obtain ⟨L, M, Q, hlim, hps, hfactors, hdens, hnum⟩ := h.exists_limits
  obtain ⟨t, ht, hholds⟩ := d.exists_build hlim hfactors hps
  have htotal : (Shares.ofPortions d.portions).total = 1 := d.ofPortions_portions ▸ h.total
  obtain ⟨c, hc⟩ := hholds.exists_toCalculator hps htotal (d.shape_build ht ▸ hshape) hnum hdens
  exact ⟨c, by rw [ht, ok_bind, hc]⟩

end Derivation

end Term

namespace Formula

variable {d : Term.Derivation} {text : String} {f : Formula}

/-- Whatever formula is accepted is shallow. -/
theorem shallow_of_parse (hs : Spaced d.lexemes text.toList) (hu : Unsigned text.toList)
    (h : parse text = .ok f) : d.shape.shallow = true := by
  rw [parse_of_spaced hs hu, map_eq_ok] at h
  obtain ⟨c, hc, -⟩ := h
  obtain ⟨t, ht, hc⟩ := bind_eq_ok.1 hc
  exact d.shape_build ht ▸ Term.shallow_of_toCalculator hc

theorem names_of_parse (hs : Spaced d.lexemes text.toList) (hu : Unsigned text.toList)
    (h : parse text = .ok f) : f.calculator.grades.map Grade.name = d.names := by
  rw [parse_of_spaced hs hu, map_eq_ok] at h
  obtain ⟨c, hc, rfl⟩ := h
  obtain ⟨t, ht, hc⟩ := bind_eq_ok.1 hc
  exact (Calculator.partitions_of_build ht hc).names

/-- A well-formed formula, however it is spaced, is accepted just if it is shallow, and then with one
grade for each name in order. -/
theorem parse_wellFormed (hd : d.WellFormed) :
    Spaced d.lexemes d.written ∧ Unsigned d.written ∧
    ∀ text : String, Spaced d.lexemes text.toList → Unsigned text.toList →
      ((∃ f, parse text = .ok f) ↔ d.shape.shallow = true) ∧
      ∀ f, parse text = .ok f → f.calculator.grades.map Grade.name = d.names := by
  have hwritten : Unsigned (d.written ++ []) := d.unsigned_written hd.counts List.isChain_nil
  rw [List.append_nil] at hwritten
  refine ⟨d.spaced_written, hwritten, fun text hs hu => ⟨⟨?_, fun hshape => ?_⟩, fun f hf => ?_⟩⟩
  · rintro ⟨f, hf⟩
    exact shallow_of_parse hs hu hf
  · obtain ⟨c, hc⟩ := hd.exists_calculator (ν := Float) hshape
    exact ⟨⟨text, c⟩, by rw [parse_of_spaced hs hu, hc]; rfl⟩
  · exact names_of_parse hs hu hf

theorem parse_wellFormed_nested : ∃ f, parse "((A + 3*B)/4 + ((C)))/2" = .ok f ∧
    f.calculator.grades.map Grade.name = ["A", "B", "C"] := by
  let number (x : Char) (h : isNumeral [x] = true) : Numeral := ⟨[x], h⟩
  let name (x : Char) (h : isWord [x] = true) : Word := ⟨[x], h⟩
  let first : Term.Derivation := .grade ⟨none, []⟩ (name 'A' rfl) none
  let second : Term.Derivation := .grade ⟨some (number '3' rfl), [none]⟩ (name 'B' rfl) none
  let third : Term.Derivation := .grade ⟨none, []⟩ (name 'C' rfl) none
  let pair : Term.Derivation :=
    .group ⟨none, []⟩ (.cons first (.last second)) none (some (some (number '4' rfl)))
  let single : Term.Derivation :=
    .group ⟨none, []⟩ (.last (.group ⟨none, []⟩ (.last third) none none)) none none
  let d : Term.Derivation :=
    .group ⟨none, []⟩ (.cons pair (.last single)) none (some (some (number '2' rfl)))
  have hd : d.WellFormed := by decide +kernel
  obtain ⟨-, -, h⟩ := parse_wellFormed hd
  obtain ⟨hparse, hnames⟩ :=
    h "((A + 3*B)/4 + ((C)))/2" (spaced_of_spells (by decide)) (by decide)
  obtain ⟨f, hf⟩ := hparse.2 (by decide)
  exact ⟨f, hf, hnames f hf⟩

/-- A well-formed formula with groups of several terms within such groups is not accepted. -/
theorem parse_nested_groups : ∃ d : Term.Derivation, d.WellFormed ∧
    d.written = "(((A + B)/2 + C)/2 + D)/2".toList ∧ d.names = ["A", "B", "C", "D"] ∧
    ¬∃ f, parse "(((A + B)/2 + C)/2 + D)/2" = .ok f := by
  let name (x : Char) (h : isWord [x] = true) : Term.Derivation :=
    .grade ⟨none, []⟩ ⟨[x], h⟩ none
  let halved (s t : Term.Derivation) : Term.Derivation :=
    .group ⟨none, []⟩ (.cons s (.last t)) none (some (some ⟨['2'], rfl⟩))
  let d : Term.Derivation :=
    halved (halved (halved (name 'A' rfl) (name 'B' rfl)) (name 'C' rfl)) (name 'D' rfl)
  have hs : Spaced d.lexemes "(((A + B)/2 + C)/2 + D)/2".toList := spaced_of_spells (by decide)
  refine ⟨d, by decide +kernel, by decide, by decide, ?_⟩
  rintro ⟨f, hf⟩
  have hshape := shallow_of_parse hs (by decide) hf
  exact absurd hshape (by decide)

end Formula

end Reckoner
