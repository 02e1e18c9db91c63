import Mathlib.Data.List.Induction
import Reckoner.Calculation.Registry

/-!
# Registering in a row

Offering calculations one after the other adds, for each name, the first that has it, unless the name
was taken before (`Registry.lookup_registerAll`). So a registry that started empty finds under a name
the first of all that were offered to it, and holds as many as they have names
(`Registry.holds_registerAll`).
-/

namespace Reckoner

namespace Registry

/-- The registry after calculations have been offered to it one after the other. -/
def registerAll (r : Registry) (fs : List Calculation) : Registry :=
  fs.foldl (fun r f => (r.register f).2) r

theorem registerAll_cons (r : Registry) (f : Calculation) (fs : List Calculation) :
    r.registerAll (f :: fs) = (r.register f).2.registerAll fs :=
  rfl

theorem registerAll_append (r : Registry) (fs gs : List Calculation) :
    r.registerAll (fs ++ gs) = (r.registerAll fs).registerAll gs :=
  List.foldl_append

theorem builtin_eq : builtin = empty.registerAll Calculation.builtins :=
  rfl

variable {r : Registry} {f : Calculation} {name : String}

theorem name_of_lookup (h : r.lookup name = some f) : f.name = some name := by
  simpa using List.find?_some h

theorem register_fst (r : Registry) (f : Calculation) :
    (r.register f).1 = true ↔ ∃ name, f.name = some name ∧ r.lookup name = none := by
  rw [register]
  cases hf : f.name with
  | none => simp
  | some name => cases h : r.lookup name <;> simp [h]

/-- What is registered stays, and one more is added behind it if its name is new. -/
theorem calculations_register (r : Registry) (f : Calculation) :
    (r.register f).2.calculations = r.calculations ++ if (r.register f).1 then [f] else [] := by
  rw [register]
  cases f.name with
  | none => simp
  | some name => by_cases h : (r.lookup name).isSome = true <;> simp [h]

theorem lookup_register (r : Registry) (f : Calculation) (name : String) :
    (r.register f).2.lookup name
      = (r.lookup name).or (if f.name = some name then some f else none) := by
  rw [lookup, calculations_register, List.find?_append]
  change (r.lookup name).or _ = _
  by_cases hf : f.name = some name
  · cases h : r.lookup name with
    | some g => simp
    | none =>
      rw [if_pos ((register_fst r f).2 ⟨name, hf, h⟩)]
      simp [hf]
  · split <;> simp [hf]

/-- Under a name stands what was registered before, or else the first that was offered. -/
theorem lookup_registerAll (r : Registry) (fs : List Calculation) (name : String) :
    (r.registerAll fs).lookup name = (r.lookup name).or (fs.find? (·.name = some name)) := by
  induction fs generalizing r with
  | nil => simp [registerAll]
  | cons f fs ih =>
    rw [registerAll_cons, ih, lookup_register, Option.or_assoc, List.find?_cons]
    by_cases hf : f.name = some name <;> simp [hf]

theorem lookup_registerAll_empty (fs : List Calculation) (name : String) :
    (empty.registerAll fs).lookup name = fs.find? (·.name = some name) := by
  rw [lookup_registerAll]
  rfl

/-- One more is added just if none that was offered has its name. -/
theorem register_registerAll_fst (fs : List Calculation) (f : Calculation) :
    ((empty.registerAll fs).register f).1 = true ↔
      ∃ name, f.name = some name ∧ ∀ g ∈ fs, g.name ≠ some name := by
  simp only [register_fst, lookup_registerAll_empty, List.find?_eq_none, decide_eq_true_eq]

/-- The names of what is registered are those that were offered, each once. -/
theorem map_name_registerAll (fs : List Calculation) :
    (empty.registerAll fs).calculations.map (·.name) =
      (fs.filterMap (·.name)).eraseDups.map some := by
  induction fs using List.reverseRecOn with
  | nil => rfl
  | append_singleton fs f ih =>
    have hnew := register_registerAll_fst fs f
    rw [registerAll_append, registerAll_cons, registerAll, List.foldl_nil, calculations_register,
      List.map_append, ih, List.filterMap_append, List.eraseDups_append, List.map_append]
    congr 1
    cases hf : f.name with
    | none =>
      rw [if_neg (by simp [hnew, hf])]
      simp [hf, List.removeAll]
    | some name =>
      by_cases hmem : ∃ g ∈ fs, g.name = some name
      · rw [if_neg (by simpa [hnew, hf] using hmem)]
        simp [hf, List.removeAll, hmem]
      · rw [if_pos (by simpa [hnew, hf] using hmem)]
        simp [hf, List.removeAll, hmem, List.eraseDups_cons]

/-- The registry is what comes of an empty one when calculations are offered to it in a row. -/
structure Holds (r : Registry) (offered : List Calculation) : Prop where
  lookup_eq : ∀ name, r.lookup name = offered.find? (·.name = some name)
  name_eq : ∀ name f, r.lookup name = some f → f.name = some name
  register_iff : ∀ f, (r.register f).1 = true ↔
    ∃ name, f.name = some name ∧ ∀ g ∈ offered, g.name ≠ some name
  size_eq : r.size = (offered.filterMap (·.name)).eraseDups.length

/-- Whatever is offered to an empty registry, the first of each name stays. -/
theorem holds_registerAll (fs : List Calculation) : (empty.registerAll fs).Holds fs where
  lookup_eq := lookup_registerAll_empty fs
  name_eq _ _ := name_of_lookup
  register_iff := register_registerAll_fst fs
  size_eq := by rw [size, ← List.length_map (·.name), map_name_registerAll, List.length_map]

example : (builtin.registerAll [.named "sin" Float.cos, .add, .named "half" (· / 2)]).size = 10 := by
  decide

end Registry

end Reckoner
