import Reckoner.Proofs.Decimal.Integer
import Reckoner.Proofs.Grade.Average
import Reckoner.Proofs.Grade.Meaning

/-!
# Setting every name of a formula

A name finds the first grade that is called so. So when every name of a formula has been set, in
whatever order, just the first grade of each name is set (`Calculator.setAll_eq`), and the average is
over these. They are all grades, and the average is that of the formula, if and only if no name occurs
in it twice (`Formula.setAll_completes_iff`).
-/

namespace Reckoner

open Text Grammar

variable {ν : Type}

/-- The grade, set to what the values say of its name. -/
def Grade.give (value : String → ν) (g : Grade ν) : Grade ν :=
  { g with value := some (value g.name) }

namespace Calculator

/-- Sets the names in order, each to its value. -/
def setAll (c : Calculator ν) (value : String → ν) (order : List String) :
    Except GradeError (Calculator ν) :=
  order.foldlM (fun c name => c.set name (value name)) c

/-- The grades, of which the first that is called by each of the names is set. -/
def fill (value : String → ν) : List String → List (Grade ν) → List (Grade ν)
  | _, [] => []
  | names, g :: gs =>
    if g.name ∈ names then g.give value :: fill value (names.filter (· ≠ g.name)) gs
    else g :: fill value names gs

/-- The grades without those that come after another of their name. -/
def firsts (gs : List (Grade ν)) : List (Grade ν) :=
  gs.eraseDupsBy fun g h => g.name = h.name

/-- The mean of the grades' values, weighted. -/
def meanOf (value : String → ℚ) (gs : List (Grade ν)) : ℚ :=
  (gs.map fun g => value g.name * (g.weighting.toInt : ℚ)).sum /
    (gs.map fun g => (g.weighting.toInt : ℚ)).sum

theorem firsts_cons (g : Grade ν) (gs : List (Grade ν)) :
    firsts (g :: gs) = g :: firsts (gs.filter (·.name ≠ g.name)) := by
  simp only [firsts, List.eraseDupsBy_cons, decide_eq_false_iff_not]

/-- Where all names differ, each grade comes first. -/
theorem firsts_eq_self {gs : List (Grade ν)} (h : (gs.map Grade.name).Nodup) : firsts gs = gs := by
  induction gs with
  | nil => rfl
  | cons g gs ih =>
    rw [List.map_cons, List.nodup_cons, List.mem_map] at h
    have hfilter : gs.filter (·.name ≠ g.name) = gs := by
      rw [List.filter_eq_self]
      intro f hf
      exact decide_eq_true fun hname => h.1 ⟨f, hf, hname⟩
    rw [firsts_cons, hfilter, ih h.2]

section Fill

variable {value : String → ν} {names : List String} {gs : List (Grade ν)} {name : String}

theorem fill_nil (gs : List (Grade ν)) : fill value [] gs = gs := by
  induction gs with
  | nil => rfl
  | cons g gs ih => rw [fill, if_neg (by simp), ih]

/-- Names and weightings stay. -/
theorem map_fill {β : Type} {key : Grade ν → β} (hkey : ∀ g : Grade ν, key (g.give value) = key g)
    (names : List String) (gs : List (Grade ν)) : (fill value names gs).map key = gs.map key := by
  induction gs generalizing names with
  | nil => rfl
  | cons g gs ih =>
    rw [fill]
    split
    · rw [List.map_cons, hkey, ih, List.map_cons]
    · rw [List.map_cons, ih, List.map_cons]

/-- One more name is set, before the others or not. -/
theorem fill_cons (name : String) (names : List String) (gs : List (Grade ν)) :
    fill value (name :: names) gs =
      fill value names (updateFirst name (fun g => { g with value := some (value name) }) gs) := by
  induction gs generalizing names with
  | nil => rfl
  | cons g gs ih =>
    by_cases hname : g.name = name
    · subst hname
      rw [fill, if_pos List.mem_cons_self, updateFirst, if_pos rfl, fill]
      by_cases hmem : g.name ∈ names
      · rw [if_pos hmem, List.filter_cons_of_neg (by simp)]
        rfl
      · have hfilter : names.filter (· ≠ g.name) = names := by
          rw [List.filter_eq_self]
          rintro n hn
          exact decide_eq_true (ne_of_mem_of_not_mem hn hmem)
        rw [if_neg hmem, List.filter_cons_of_neg (by simp), hfilter]
        rfl
    · rw [fill, updateFirst, if_neg hname, fill]
      simp only [List.mem_cons, hname, false_or]
      split
      · rw [List.filter_cons_of_pos (by simpa using Ne.symm hname), ih]
      · rw [ih]

theorem map_updateFirst {β : Type} {key : Grade ν → β} {change : Grade ν → Grade ν}
    (hkey : ∀ g, key (change g) = key g) (gs : List (Grade ν)) :
    (updateFirst name change gs).map key = gs.map key := by
  induction gs with
  | nil => rfl
  | cons g gs ih =>
    rw [updateFirst]
    split
    · rw [List.map_cons, hkey, List.map_cons]
    · rw [List.map_cons, ih, List.map_cons]

theorem isSome_grade? (c : Calculator ν) (name : String) :
    (c.grade? name).isSome = true ↔ name ∈ c.grades.map Grade.name := by
  simp [grade?]

/-- Names that there are can be set one after the other, and the first grade of each is. -/
theorem setAll_eq {c : Calculator ν} (h : ∀ name ∈ names, name ∈ c.grades.map Grade.name) :
    c.setAll value names = .ok ⟨fill value names c.grades⟩ := by
  induction names generalizing c with
  | nil => rw [fill_nil]; rfl
  | cons name names ih =>
    obtain ⟨hname, hnames⟩ := List.forall_mem_cons.1 h
    rw [setAll, List.foldlM_cons, set, if_pos ((isSome_grade? c name).2 hname), ok_bind, fill_cons]
    have hstay : (updateFirst name (fun g => { g with value := some (value name) }) c.grades).map
        Grade.name = c.grades.map Grade.name := map_updateFirst (fun _ => by rfl) c.grades
    exact ih fun n hn => hstay ▸ hnames n hn

/-- The grades that are set are the first of each name. -/
theorem filter_isSet_fill (hgs : ∀ g ∈ gs, g.isSet = false) (names : List String) :
    (fill value names gs).filter Grade.isSet =
      (firsts (gs.filter (·.name ∈ names))).map (Grade.give value) := by
  induction gs generalizing names with
  | nil => rfl
  | cons g gs ih =>
    obtain ⟨hg, hgs⟩ := List.forall_mem_cons.1 hgs
    rw [fill]
    split
    · rename_i hmem
      rw [List.filter_cons_of_pos rfl, ih hgs, List.filter_cons_of_pos (by simpa using hmem),
        firsts_cons, List.map_cons, List.filter_filter]
      refine congrArg (fun hs => g.give value :: (firsts hs).map (Grade.give value))
        (List.filter_congr fun h _ => ?_)
      simp [and_comm]
    · rename_i hmem
      rw [List.filter_cons_of_neg (by simp [hg]), ih hgs,
        List.filter_cons_of_neg (by simpa using hmem)]

/-- All grades are set just if they have different names, and these are given. -/
theorem forall_isSet_fill_iff (hgs : ∀ g ∈ gs, g.isSet = false) (names : List String) :
    (∀ g ∈ fill value names gs, g.isSet = true) ↔
      (gs.map Grade.name).Nodup ∧ ∀ g ∈ gs, g.name ∈ names := by
  induction gs generalizing names with
  | nil => simp [fill]
  | cons g gs ih =>
    obtain ⟨hg, hgs⟩ := List.forall_mem_cons.1 hgs
    rw [fill]
    split
    · rename_i hmem
      have hsplit : (∀ h ∈ gs, h.name ∈ names.filter (· ≠ g.name)) ↔
          (∀ h ∈ gs, h.name ∈ names) ∧ g.name ∉ gs.map Grade.name := by
        simp only [List.mem_filter, decide_eq_true_eq, List.mem_map, not_exists, not_and]
        exact forall₂_and
      simp only [List.forall_mem_cons, ih hgs, hsplit, List.map_cons, List.nodup_cons]
      have hset : (g.give value).isSet = true := rfl
      tauto
    · rename_i hmem
      simp [hg, hmem]

end Fill

/-- The average is the mean of the grades that have been given their values. -/
theorem exactAverage_of_filter {c : Calculator Float} {value : String → Float}
    {gs : List (Grade Float)} (h : c.grades.filter Grade.isSet = gs.map (Grade.give value)) :
    c.exactAverage = meanOf (fun name => doubleValue (value name)) gs := by
  have hmarks : c.marks = gs.map fun g => (value g.name, g.weighting.toInt) := by
    have hset : c.marks = (Calculator.mk (c.grades.filter Grade.isSet)).marks := by
      rw [marks, marks, List.filterMap_filter]
      refine List.filterMap_congr fun g _ => ?_
      cases hv : g.value <;> simp [Grade.isSet, hv]
    rw [hset, h, marks, List.filterMap_map]
    exact congrFun List.filterMap_eq_map gs
  rw [exactAverage_eq, hmarks, List.map_map, List.map_map]
  rfl

end Calculator

theorem Term.isSet_of_aligns {dens : List Int64} {ts : List Term} {gs : List (Grade ν)}
    (h : List.Forall₂ (Aligns dens) ts gs) : ∀ g ∈ gs, g.isSet = false := by
  induction h with
  | nil => simp
  | cons hg _ ih =>
    obtain ⟨_, _, _, -, -, rfl⟩ := hg
    exact List.forall_mem_cons.2 ⟨rfl, ih⟩

theorem eq_map_unset {gs : List (Grade ν)} (h : ∀ g ∈ gs, g.isSet = false) :
    gs = (gs.map fun g => (g.name, g.weighting)).map fun p => Grade.unset p.1 p.2 := by
  rw [List.map_map]
  refine (List.map_id gs).symm.trans (List.map_congr_left fun g hg => ?_)
  rcases g with ⟨name, weighting, _ | v⟩
  · rfl
  · cases h _ hg

namespace Formula

theorem isSet_of_parse {text : String} {f : Formula} (h : parse text = .ok f) :
    ∀ g ∈ f.calculator.grades, g.isSet = false := by
  obtain ⟨d, t, -, -, hc⟩ := exists_derivation_of_parse h
  exact Term.isSet_of_aligns (Term.toCalculator_eq_ok.1 hc).2

/-- When each name of a formula has been set to its value, in any order, just the first grade of each
name is set. All are, and the average without rounding is that of all, if and only if the names
differ. -/
theorem setAll_completes_iff {text : String} {f : Formula} (h : parse text = .ok f)
    (value : String → Float) {order : List String}
    (horder : ∀ name, name ∈ order ↔ name ∈ f.calculator.grades.map Grade.name) :
    (∃ d : Term.Derivation, Spaced d.lexemes text.toList ∧
      f.calculator.grades.map Grade.name = d.names) ∧
    (f.calculator.grades.map fun g => g.weighting.toInt).sum ≠ 0 ∧
    ∃ c, f.calculator.setAll value order = .ok c ∧
      (c.grades.map fun g => (g.name, g.weighting))
        = (f.calculator.grades.map fun g => (g.name, g.weighting)) ∧
      c.grades.filter Grade.isSet = (Calculator.firsts f.calculator.grades).map (Grade.give value) ∧
      (((∀ g ∈ c.grades, g.isSet = true) ∧ c.exactAverage
          = Calculator.meanOf (fun name => doubleValue (value name)) f.calculator.grades) ↔
        (f.calculator.grades.map Grade.name).Nodup) := by
  obtain ⟨d, t, hs, ht, hc⟩ := exists_derivation_of_parse h
  obtain ⟨hnames, ⟨-, -, D, hD, hsum, -⟩, -, -⟩ := Calculator.partitions_of_build ht hc
  have hunset := isSet_of_parse h
  have hall : ∀ g ∈ f.calculator.grades, g.name ∈ order := fun g hg =>
    (horder g.name).2 (List.mem_map_of_mem hg)
  have hset : (Calculator.fill value order f.calculator.grades).filter Grade.isSet
      = (Calculator.firsts f.calculator.grades).map (Grade.give value) := by
    rw [Calculator.filter_isSet_fill hunset,
      List.filter_eq_self.2 fun g hg => decide_eq_true (hall g hg)]
  refine ⟨⟨d, hs, hnames⟩, hsum ▸ hD, _,
    Calculator.setAll_eq fun name hname => (horder name).1 hname,
    Calculator.map_fill (fun _ => by rfl) _ _, hset, ?_⟩
  rw [Calculator.forall_isSet_fill_iff hunset]
  constructor
  · rintro ⟨⟨hnodup, -⟩, -⟩
    exact hnodup
  · intro hnodup
    refine ⟨⟨hnodup, hall⟩, ?_⟩
    rw [Calculator.firsts_eq_self hnodup] at hset
    exact Calculator.exactAverage_of_filter hset

theorem exists_grades_of_build (ws : List (String × Int64)) {text : String}
    {d : Term.Derivation} (hs : Spaced d.lexemes text.toList) (hu : Unsigned text.toList)
    (h : (d.build >>= Term.toCalculator (ν := Float)).map
      (fun c => c.grades.map fun g => (g.name, g.weighting)) = .ok ws) :
    ∃ f, parse text = .ok f ∧ f.calculator.grades = ws.map fun p => .unset p.1 p.2 := by
  obtain ⟨f, hf, hgrades⟩ := exists_of_build ws hs hu h
  exact ⟨f, hf, hgrades ▸ eq_map_unset (isSet_of_parse hf)⟩

/-- One for the name `A`, and four for any other. -/
def oneForA (name : String) : Float :=
  floatOfInt (if name = "A" then 1 else 4)

theorem doubleValue_oneForA (name : String) :
    doubleValue (oneForA name) = if name = "A" then 1 else 4 := by
  rw [oneForA, (doubleValue_floatOfInt (isDouble_intCast (by split <;> decide))).2]
  split <;> rfl

theorem setAll_completes_iff_distinct : ∃ f c, parse "(A + 2*B)/3" = .ok f ∧
    (∀ name, name ∈ ["B", "A"] ↔ name ∈ f.calculator.grades.map Grade.name) ∧
    f.calculator.setAll oneForA ["B", "A"] = .ok c ∧
    (∀ g ∈ c.grades, g.isSet = true) ∧ c.exactAverage = 3 := by
  let name (x : Char) (h : isWord [x] = true) : Word := ⟨[x], h⟩
  let first : Term.Derivation := .grade ⟨none, []⟩ (name 'A' rfl) none
  let second : Term.Derivation := .grade ⟨some ⟨['2'], rfl⟩, [none]⟩ (name 'B' rfl) none
  let d : Term.Derivation :=
    .group ⟨none, []⟩ (.cons first (.last second)) none (some (some ⟨['3'], rfl⟩))
  have hs : Spaced d.lexemes "(A + 2*B)/3".toList := spaced_of_spells (by decide)
  obtain ⟨f, hf, hgrades⟩ := exists_grades_of_build [("A", 1), ("B", 2)] hs (by decide)
    (by decide +kernel)
  have horder : ∀ name, name ∈ ["B", "A"] ↔ name ∈ f.calculator.grades.map Grade.name := by
    simp [hgrades, Grade.unset, or_comm]
  obtain ⟨-, -, c, hc, -, -, hiff⟩ := setAll_completes_iff hf oneForA horder
  obtain ⟨hset, hmean⟩ := hiff.2 (by rw [hgrades]; decide)
  refine ⟨f, c, hf, horder, hc, hset, ?_⟩
  rw [hmean, hgrades]
  have hone : (1 : Int64).toInt = 1 := rfl
  have htwo : (2 : Int64).toInt = 2 := rfl
  have hne : ¬ "B" = "A" := by decide
  norm_num [Calculator.meanOf, doubleValue_oneForA, Grade.unset, hone, htwo, hne]

/-- A name that occurs twice is set once, and the average is not that of the formula. -/
theorem setAll_repeated_name : ∃ f c, parse "(A + A + B)/3" = .ok f ∧
    f.calculator.grades.map Grade.name = ["A", "A", "B"] ∧
    f.calculator.setAll oneForA ["A", "B"] = .ok c ∧
    (∃ g ∈ c.grades, g.isSet = false) ∧ c.exactAverage = 5 / 2 ∧
    Calculator.meanOf (fun name => doubleValue (oneForA name)) f.calculator.grades = 2 := by
  let name (x : Char) (h : isWord [x] = true) : Term.Derivation := .grade ⟨none, []⟩ ⟨[x], h⟩ none
  let d : Term.Derivation :=
    .group ⟨none, []⟩ (.cons (name 'A' rfl) (.cons (name 'A' rfl) (.last (name 'B' rfl)))) none
      (some (some ⟨['3'], rfl⟩))
  have hs : Spaced d.lexemes "(A + A + B)/3".toList := spaced_of_spells (by decide)
  obtain ⟨f, hf, hgrades⟩ := exists_grades_of_build [("A", 1), ("A", 1), ("B", 1)] hs
    (by decide) (by decide +kernel)
  have hset : f.calculator.setAll oneForA ["A", "B"]
      = .ok ⟨Calculator.fill oneForA ["A", "B"] f.calculator.grades⟩ :=
    Calculator.setAll_eq (by simp [hgrades, Grade.unset])
  have hfirsts : Calculator.firsts (f.calculator.grades.filter (·.name ∈ ["A", "B"]))
      = [.unset "A" 1, .unset "B" 1] := by
    rw [hgrades]
    rfl
  have haverage := Calculator.exactAverage_of_filter
    (c := ⟨Calculator.fill oneForA ["A", "B"] f.calculator.grades⟩)
    (Calculator.filter_isSet_fill (isSet_of_parse hf) _)
  rw [hfirsts] at haverage
  have hone : (1 : Int64).toInt = 1 := rfl
  have hne : ¬ "B" = "A" := by decide
  refine ⟨f, _, hf, by rw [hgrades]; rfl, hset, ⟨.unset "A" 1, ?_, rfl⟩, haverage.trans ?_, ?_⟩
  · simp [hgrades, Calculator.fill, Grade.unset]
  · norm_num [Calculator.meanOf, doubleValue_oneForA, Grade.unset, hone, hne]
  · rw [hgrades]
    norm_num [Calculator.meanOf, doubleValue_oneForA, Grade.unset, hone, hne]

end Formula

end Reckoner
