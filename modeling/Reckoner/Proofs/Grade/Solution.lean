import Mathlib.Algebra.BigOperators.Ring.Finset
import Mathlib.Tactic.Linarith
import Reckoner.Proofs.Except
import Reckoner.Proofs.Grade.Average
import Reckoner.Proofs.Grade.Fraction

/-!
# Solving for a grade

The value that a grade needs is the only one with which the average comes to the target, weighed
without rounding (`Calculator.required_solves`): it does not hang on what is held under the name of
the grade (`Calculator.required_forget`), and it solves the average for the value of the first grade
of that name where no other of the name is set.
-/

namespace Reckoner

namespace Calculator

variable {ν : Type}

/-- The calculator without the values that are held under the name. -/
def forget (name : String) (c : Calculator ν) : Calculator ν :=
  ⟨c.grades.map fun g => if g.name = name then { g with value := none } else g⟩

/-- The grade is the first of its name, with grades before it and after it. -/
structure FirstAt (c : Calculator ν) (name : String) (before : List (Grade ν)) (g : Grade ν)
    (after : List (Grade ν)) : Prop where
  grades_eq : c.grades = before ++ g :: after
  name_eq : g.name = name
  first : ∀ h ∈ before, h.name ≠ name

/-- The sum of the weightings of the grades that are set. -/
def weightSum (gs : List (Grade ν)) : ℤ :=
  ((Calculator.mk gs).marks.map Prod.snd).sum

/-- The sum of the values that are set, each times its weighting. -/
def points (gs : List (Grade ℚ)) : ℚ :=
  ((Calculator.mk gs).marks.map fun m => m.1 * (m.2 : ℚ)).sum

section Forget

variable (c : Calculator ν) (name : String)

theorem grade?_forget : (c.forget name).grade? name =
    (c.grade? name).map fun g => { g with value := none } := by
  have hname : ∀ g : Grade ν, (if g.name = name then { g with value := none } else g).name = g.name := by
    intro g
    split <;> rfl
  rw [grade?, forget, List.find?_map, grade?]
  have hp : (fun g : Grade ν => decide (g.name = name)) ∘
      (fun g : Grade ν => if g.name = name then { g with value := none } else g) =
      fun g => decide (g.name = name) := funext fun g => by rw [Function.comp_apply, hname]
  rw [hp]
  cases h : c.grades.find? fun g => decide (g.name = name) with
  | none => rfl
  | some g =>
    have hg : g.name = name := by simpa using List.find?_some h
    rw [Option.map_some, Option.map_some, if_pos hg]

theorem filter_forget :
    (c.forget name).grades.filter (·.name ≠ name) = c.grades.filter (·.name ≠ name) := by
  rw [forget]
  induction c.grades with
  | nil => rfl
  | cons g gs ih =>
    rw [List.map_cons]
    by_cases hg : g.name = name
    · rw [if_pos hg, List.filter_cons_of_neg (by simpa using hg), ih,
        List.filter_cons_of_neg (by simpa using hg)]
    · rw [if_neg hg, List.filter_cons_of_pos (by simpa using hg), ih,
        List.filter_cons_of_pos (by simpa using hg)]

/-- What a grade needs does not hang on what is held under its name. -/
theorem required_forget [Weighable ν] (target : ν) :
    (c.forget name).required name target = c.required name target := by
  rw [required, required, grade?_forget, filter_forget]
  cases c.grade? name <;> rfl

end Forget

theorem required_eq_unknownGrade_iff [Weighable ν] {c : Calculator ν} {name : String} {target : ν} :
    c.required name target = .error (.unknownGrade name) ↔ ∀ g ∈ c.grades, g.name ≠ name := by
  have hnone : c.grade? name = none ↔ ∀ g ∈ c.grades, g.name ≠ name := by
    simp [grade?, List.find?_eq_none]
  rw [← hnone, required]
  cases c.grade? name with
  | none => simp
  | some g =>
    dsimp only
    split <;> simp

theorem exists_firstAt {c : Calculator ν} {name : String} (h : ∃ g ∈ c.grades, g.name = name) :
    ∃ before g after, c.FirstAt name before g after := by
  have hsome : (c.grades.find? (·.name = name)).isSome := by simpa using h
  obtain ⟨g, hg⟩ := Option.isSome_iff_exists.1 hsome
  obtain ⟨hname, before, after, hgrades, hfirst⟩ := List.find?_eq_some_iff_append.1 hg
  exact ⟨before, g, after, hgrades, by simpa using hname, fun f hf => by simpa using hfirst f hf⟩

namespace FirstAt

variable {c : Calculator ν} {name : String} {before after : List (Grade ν)} {g : Grade ν}

theorem grade?_eq (h : c.FirstAt name before g after) : c.grade? name = some g := by
  rw [grade?, List.find?_eq_some_iff_append]
  refine ⟨by simpa using h.name_eq, before, after, h.grades_eq, fun f hf => ?_⟩
  simpa using h.first f hf

theorem updateFirst_eq (h : c.FirstAt name before g after) (change : Grade ν → Grade ν) :
    updateFirst name change c.grades = before ++ change g :: after := by
  obtain ⟨gs⟩ := c
  obtain ⟨rfl, hname, hfirst⟩ := h
  induction before with
  | nil => rw [List.nil_append, updateFirst, if_pos hname, List.nil_append]
  | cons f before ih =>
    obtain ⟨hf, hbefore⟩ := List.forall_mem_cons.1 hfirst
    rw [List.cons_append, updateFirst, if_neg hf, List.cons_append]
    exact congrArg (f :: ·) (ih hbefore)

/-- The first grade of the name is set, and nothing else changes. -/
theorem set_eq (h : c.FirstAt name before g after) (y : ν) :
    c.set name y = .ok ⟨before ++ { g with value := some y } :: after⟩ := by
  rw [set, h.grade?_eq, Option.isSome_some, if_pos rfl, h.updateFirst_eq]

theorem required_eq_zeroWeighting_iff [Weighable ν] (h : c.FirstAt name before g after) {target : ν} :
    c.required name target = .error (.zeroWeighting name) ↔ g.weighting = 0 := by
  rw [required, h.grade?_eq]
  dsimp only
  split
  · simp [*]
  · simp [*]

end FirstAt

section Sums

theorem weightSum_append (gs hs : List (Grade ν)) :
    weightSum (gs ++ hs) = weightSum gs + weightSum hs := by
  simp [weightSum, marks]

theorem points_append (gs hs : List (Grade ℚ)) : points (gs ++ hs) = points gs + points hs := by
  simp [points, marks]

theorem weightSum_cons_some (g : Grade ν) (y : ν) (gs : List (Grade ν)) :
    weightSum ({ g with value := some y } :: gs) = g.weighting.toInt + weightSum gs := by
  simp [weightSum, marks]

theorem points_cons_some (g : Grade ℚ) (y : ℚ) (gs : List (Grade ℚ)) :
    points ({ g with value := some y } :: gs) = y * g.weighting.toInt + points gs := by
  simp [points, marks]

theorem cast_weightSum (gs : List (Grade ν)) :
    (weightSum gs : ℚ) = ((Calculator.mk gs).marks.map fun m => (m.2 : ℚ)).sum := by
  rw [weightSum, Int.cast_list_sum, List.map_map]
  rfl

theorem average_eq_div (c : Calculator ℚ) : c.average = points c.grades / weightSum c.grades := by
  rw [average_eq, cast_weightSum, points]

/-- Grades that are not set count for nothing. -/
theorem marks_filter {gs : List (Grade ν)} {p : Grade ν → Bool}
    (h : ∀ g ∈ gs, p g = false → g.value = none) :
    (Calculator.mk (gs.filter p)).marks = (Calculator.mk gs).marks := by
  rw [marks, marks, List.filterMap_filter]
  refine List.filterMap_congr fun g hg => ?_
  split
  · rfl
  · rename_i hp
    rw [h g hg (by simpa using hp), Option.map_none]

end Sums

section Solve

variable {c : Calculator ℚ} {name : String} {before after : List (Grade ℚ)} {g : Grade ℚ} {target : ℚ}

/-- A grade that carries weight is solved for over the grades of other names. -/
theorem FirstAt.required_eq (h : c.FirstAt name before g after) (hw : g.weighting ≠ 0) :
    c.required name target = .ok
      ((target * (g.weighting.toInt + weightSum (c.grades.filter (·.name ≠ name)))
        - points (c.grades.filter (·.name ≠ name))) / g.weighting.toInt) := by
  have hzero : (Weighable.ofInt 0 : ℚ) = 0 := Int.cast_zero
  rw [required, h.grade?_eq]
  simp only [if_neg hw, foldl_accumulate, hzero, zero_add, cast_weightSum]
  rfl

/-- Where no other grade of the name is set, those of other names are all others. -/
theorem FirstAt.marks_others (h : c.FirstAt name before g after)
    (hafter : ∀ f ∈ after, f.name = name → f.value = none) :
    (Calculator.mk (c.grades.filter (·.name ≠ name))).marks = (Calculator.mk (before ++ after)).marks := by
  have hself : decide (g.name ≠ name) = false := by simpa using h.name_eq
  have hothers : c.grades.filter (·.name ≠ name) = (before ++ after).filter (·.name ≠ name) := by
    rw [h.grades_eq, List.filter_append, List.filter_cons_of_neg (by simp [hself]), List.filter_append]
  rw [hothers]
  refine marks_filter fun f hf hname => ?_
  have hname : f.name = name := by simpa using hname
  rcases List.mem_append.1 hf with hf | hf
  · exact absurd hname (h.first f hf)
  · exact hafter f hf hname

/-- With one more grade set, the average is the target for one value only. -/
theorem average_some_iff (hw : g.weighting ≠ 0)
    (hne : weightSum (before ++ after) + g.weighting.toInt ≠ 0) {y : ℚ} :
    (Calculator.mk (before ++ { g with value := some y } :: after)).average = target ↔
      y = (target * (g.weighting.toInt + weightSum (before ++ after)) - points (before ++ after))
        / g.weighting.toInt := by
  have hw' : (g.weighting.toInt : ℚ) ≠ 0 := Int.cast_ne_zero.2 (Fraction.toInt_ne_zero.2 hw)
  have hne' : (weightSum before + (g.weighting.toInt + weightSum after) : ℚ) ≠ 0 := by
    rw [weightSum_append] at hne
    exact_mod_cast fun h0 => hne (by linarith)
  rw [average_eq_div]
  simp only [weightSum_append, points_append, weightSum_cons_some, points_cons_some, Int.cast_add]
  rw [div_eq_iff hne', eq_div_iff hw']
  constructor <;> intro heq <;> linarith

end Solve

/-- Solving for a grade fails if there is none of the name or the first of the name carries no weight.
Otherwise it gives a value, whatever is held under the name. Where no second grade of the name is set
and the weightings do not come to zero, setting that value makes the average the target, and setting
any other does not. -/
theorem required_solves (c : Calculator ℚ) (name : String) (target : ℚ) :
    (c.required name target = .error (.unknownGrade name) ↔ ∀ g ∈ c.grades, g.name ≠ name) ∧
    ((∃ g ∈ c.grades, g.name = name) → ∃ before g after, c.FirstAt name before g after) ∧
    ∀ before g after, c.FirstAt name before g after →
      (c.required name target = .error (.zeroWeighting name) ↔ g.weighting = 0) ∧
      (g.weighting ≠ 0 → ∃ x, c.required name target = .ok x ∧
        (∀ c' : Calculator ℚ, c'.forget name = c.forget name → c'.required name target = .ok x) ∧
        ((∀ f ∈ after, f.name = name → f.value = none) →
          weightSum (before ++ after) + g.weighting.toInt ≠ 0 →
          (∃ c', c.set name x = .ok c' ∧ c'.average = target) ∧
          ∀ y c', c.set name y = .ok c' → c'.average = target → y = x)) := by
  refine ⟨required_eq_unknownGrade_iff, exists_firstAt, fun before g after h =>
    ⟨h.required_eq_zeroWeighting_iff, ?_⟩⟩
  intro hw
  refine ⟨_, h.required_eq hw, fun c' hc' => ?_, fun hafter hne => ?_⟩
  · rw [← required_forget, hc', required_forget, h.required_eq hw]
  · have hmarks := h.marks_others hafter
    rw [weightSum, points, hmarks]
    refine ⟨⟨_, h.set_eq _, (average_some_iff hw hne).2 rfl⟩, fun y c' hc' havg => ?_⟩
    rw [h.set_eq y] at hc'
    obtain rfl := Except.ok.inj hc'
    exact (average_some_iff hw hne).1 havg

/-- A second grade of the name that is not set changes nothing, however much weight it carries. -/
theorem required_solves_repeated :
    let c : Calculator ℚ := ⟨[⟨"SE1", 1, some 6⟩, ⟨"PW", 1, some 3⟩, ⟨"SE2", -2, some 9⟩, ⟨"PW", 5, none⟩,
      ⟨"SE3", 4, some 9⟩]⟩
    c.required "PW" (15 / 2) = .ok 6 ∧
      (∃ c', c.set "PW" 6 = .ok c' ∧ c'.average = 15 / 2) ∧
      ∀ y c', c.set "PW" y = .ok c' → c'.average = 15 / 2 → y = 6 := by
  intro c
  have hfirst : c.FirstAt "PW" [⟨"SE1", 1, some 6⟩] ⟨"PW", 1, some 3⟩
      [⟨"SE2", -2, some 9⟩, ⟨"PW", 5, none⟩, ⟨"SE3", 4, some 9⟩] := ⟨rfl, rfl, by decide⟩
  have hvalue : c.required "PW" (15 / 2) = .ok 6 := by decide +kernel
  obtain ⟨-, -, h⟩ := required_solves c "PW" (15 / 2)
  obtain ⟨x, hx, -, hsolves⟩ := (h _ _ _ hfirst).2 (by decide)
  obtain rfl : 6 = x := Except.ok.inj (hvalue.symm.trans hx)
  exact ⟨hvalue, hsolves (by decide) (by decide)⟩

end Calculator

end Reckoner
