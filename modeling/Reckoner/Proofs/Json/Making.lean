import Reckoner.Proofs.Json.Acceptance
import Reckoner.Proofs.Json.Editing

/-!
# Making values

A value is read, or it is made of other values by the changes that objects and arrays have, or it is
taken out of one (`Json.Made`). Each of these keeps the keys of objects ascending, and every value in
which they ascend can be made, so that the values that can be made are the proper ones
(`Json.made_iff_proper`). What holds of proper values, as of their texts (`Json.parse_compact_pretty`)
and of their writing (`Json.write_sends_front`), holds of all values there can be.
-/

namespace Reckoner.Json

/-- The values that can be made. -/
inductive Made : Json → Prop where
  | number (n : Float) : Made (number n)
  | boolean (b : Bool) : Made (boolean b)
  | string (s : String) : Made (string s)
  | null : Made null
  | newObject : Made (object [])
  | newArray : Made (array [])
  | edit {ms : Members Json} (h : Made (object ms)) (e : Edit) (hv : ∀ v ∈ e.stored, Made v) :
      Made (object (e.apply ms).2)
  | push {vs : List Json} {v : Json} (h : Made (array vs)) (hv : Made v) : Made (array (vs ++ [v]))
  | setItem {vs ws : List Json} {index : Nat} {v old : Json} (h : Made (array vs)) (hv : Made v)
      (hs : setItem vs index v = .ok (old, ws)) : Made (array ws)
  | removeItem {vs ws : List Json} {index : Nat} {old : Json} (h : Made (array vs))
      (hr : removeItem vs index = .ok (old, ws)) : Made (array ws)
  | member {ms : Members Json} {key : String} {v : Json} (h : Made (object ms))
      (hv : member ms key = .ok v) : Made v
  | item {vs : List Json} {index : Nat} {v : Json} (h : Made (array vs))
      (hv : item vs index = .ok v) : Made v
  | read {c d : Cursor} {v : Json} (h : readDocument c = (.ok (some v), d)) : Made v

section Proper

variable {ms : Members Json} {vs ws : List Json} {v old : Json} {index : Nat}

theorem proper_erase (h : (object ms).Proper) (key : String) :
    (object (Members.erase key ms)).Proper := by
  rw [Proper, properMembers_iff] at h ⊢
  exact ⟨Members.ascending_erase h.1, fun m hm => h.2 m (List.mem_filter.1 hm).1⟩

theorem proper_edit (h : (object ms).Proper) (e : Edit) (hv : ∀ v ∈ e.stored, v.Proper) :
    (object (e.apply ms).2).Proper := by
  rw [e.apply_eq h.1]
  cases hstored : e.stored with
  | none => exact proper_erase h e.key
  | some v => exact proper_insert h (hv v hstored) e.key

theorem proper_append_singleton (h : (array vs).Proper) (hv : v.Proper) :
    (array (vs ++ [v])).Proper := by
  rw [Proper, properItems_iff] at h ⊢
  exact List.forall_mem_append.2 ⟨h, by simpa using hv⟩

theorem proper_setItem (h : (array vs).Proper) (hv : v.Proper)
    (hs : setItem vs index v = .ok (old, ws)) : (array ws).Proper := by
  obtain ⟨_, -, hws⟩ := bind_eq_ok.1 hs
  obtain ⟨-, rfl⟩ := Prod.mk.inj (Except.ok.inj hws)
  rw [Proper, properItems_iff] at h ⊢
  intro w hw
  rcases List.mem_or_eq_of_mem_set hw with hw | rfl
  · exact h w hw
  · exact hv

theorem proper_removeItem (h : (array vs).Proper) (hr : removeItem vs index = .ok (old, ws)) :
    (array ws).Proper := by
  obtain ⟨_, -, hws⟩ := bind_eq_ok.1 hr
  obtain ⟨-, rfl⟩ := Prod.mk.inj (Except.ok.inj hws)
  rw [Proper, properItems_iff] at h ⊢
  exact fun w hw => h w (List.mem_of_mem_eraseIdx hw)

theorem proper_member {key : String} (h : (object ms).Proper) (hv : member ms key = .ok v) :
    v.Proper := by
  rw [Proper, properMembers_iff] at h
  rw [member] at hv
  cases hget : ms.get? key with
  | none =>
    rw [hget] at hv
    cases hv
  | some w =>
    rw [hget] at hv
    obtain rfl := Except.ok.inj hv
    obtain ⟨m, hfind, rfl⟩ := Option.map_eq_some_iff.1 hget
    exact h.2 m (List.mem_of_find?_eq_some hfind)

theorem proper_item (h : (array vs).Proper) (hv : item vs index = .ok v) : v.Proper := by
  rw [Proper, properItems_iff] at h
  rw [item] at hv
  cases hget : vs[index]? with
  | none =>
    rw [hget] at hv
    cases hv
  | some w =>
    rw [hget] at hv
    obtain rfl := Except.ok.inj hv
    exact h w (List.mem_of_getElem? hget)

theorem Made.proper (h : v.Made) : v.Proper := by
  induction h with
  | number | boolean | string | null => trivial
  | newObject => exact ⟨.nil, trivial⟩
  | newArray => trivial
  | edit _ e _ ih ihv => exact proper_edit ih e ihv
  | push _ _ ih ihv => exact proper_append_singleton ih ihv
  | setItem _ _ hs ih ihv => exact proper_setItem ih ihv hs
  | removeItem _ hr ih => exact proper_removeItem ih hr
  | member _ hv ih => exact proper_member ih hv
  | item _ hv ih => exact proper_item ih hv
  | read h => exact (afforded_of_readDocument h).2.proper

end Proper

mutual

/-- Members are set from the last to the first, and items pushed from the first to the last. -/
theorem made_of_proper : (v : Json) → v.Proper → v.Made
  | object ms, h => made_object ms h.1 h.2
  | array vs, h => made_array [] vs .newArray h
  | .number n, _ => .number n
  | .boolean b, _ => .boolean b
  | .string s, _ => .string s
  | .null, _ => .null

theorem made_object : (ms : List (String × Json)) → Members.Ascending ms → ProperMembers ms →
    (object ms).Made
  | [], _, _ => .newObject
  | (k, v) :: ms, ha, hp => by
    obtain ⟨hlt, ha⟩ := Members.ascending_cons.1 ha
    have hset := (made_object ms ha hp.2).edit (.set k v) fun w hw =>
      Option.some.inj hw ▸ made_of_proper v hp.1
    rw [Edit.apply_eq ha] at hset
    rwa [← insert_of_forall_lt hlt]

theorem made_array (before : List Json) : (vs : List Json) → (array before).Made → ProperItems vs →
    (array (before ++ vs)).Made
  | [], h, _ => by rwa [List.append_nil]
  | v :: vs, h, hp => by
    rw [List.append_cons]
    exact made_array (before ++ [v]) vs (h.push (made_of_proper v hp.1)) hp.2

end

/-- The values that can be made are those in which the keys of every object ascend. -/
theorem made_iff_proper {v : Json} : v.Made ↔ v.Proper :=
  ⟨Made.proper, made_of_proper v⟩

end Reckoner.Json
