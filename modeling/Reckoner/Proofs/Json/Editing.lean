import Mathlib.Data.List.Induction
import Mathlib.Data.String.Basic
import Reckoner.Json.Access
import Reckoner.Proofs.Json.Entries

/-!
# Editing objects

After any edits of a new object its keys ascend (`Json.codePoints_content`) and what stands under each key
is what was last set there and not removed since (`Json.get?_content`). So edits that leave the same under
each key leave the same members (`Json.content_eq`), and objects are equal just if they hold equal values
under each key (`Json.object_beq_iff`).
-/

namespace Reckoner.Json

/-- A change to an object. -/
inductive Edit where
  | set (key : String) (value : Json)
  | setNull (key : String)
  | remove (key : String)

namespace Edit

def key : Edit → String
  | set key _ | setNull key | remove key => key

/-- What is stored under the key afterwards. -/
def stored : Edit → Option Json
  | set _ value => some value
  | setNull _ => some null
  | remove _ => none

/-- Makes the change, and gives what was stored under the key before. -/
def apply : Edit → Members Json → Option Json × Members Json
  | set key value, ms => ms.exchange key value
  | setNull key, ms => ms.exchange key null
  | remove key, ms => ms.withdraw key

variable {ms : Members Json}

theorem apply_eq (h : ms.Ascending) (e : Edit) :
    e.apply ms = (ms.get? e.key, e.stored.elim (ms.erase e.key) fun v => ms.insert e.key v) := by
  cases e with
  | set key value => exact Members.exchange_eq h key value
  | setNull key => exact Members.exchange_eq h key null
  | remove key => exact Members.withdraw_eq h key

theorem ascending_apply (h : ms.Ascending) (e : Edit) : (e.apply ms).2.Ascending := by
  rw [apply_eq h]
  cases e.stored with
  | none => exact Members.ascending_erase h
  | some value => exact Members.ascending_insert h

theorem get?_apply (h : ms.Ascending) (e : Edit) (key : String) :
    (e.apply ms).2.get? key = if e.key = key then e.stored else ms.get? key := by
  rw [apply_eq h]
  cases e.stored with
  | none => exact Members.get?_erase ms e.key key
  | some value => exact Members.get?_insert ms e.key value key

end Edit

/-- The members of a new object after edits. -/
def content (edits : List Edit) : Members Json :=
  edits.foldl (fun ms e => (e.apply ms).2) []

/-- What was last stored under the key, if it was not removed since. -/
def standing (edits : List Edit) (key : String) : Option Json :=
  (edits.filter (·.key = key)).getLast?.bind Edit.stored

/-- The code points of a text in order. -/
def codePoints (s : String) : List Nat :=
  s.toList.map Char.toNat

section Content

theorem content_append_singleton (edits : List Edit) (e : Edit) :
    content (edits ++ [e]) = (e.apply (content edits)).2 :=
  List.foldl_append

theorem standing_append_singleton (edits : List Edit) (e : Edit) (key : String) :
    standing (edits ++ [e]) key = if e.key = key then e.stored else standing edits key := by
  rw [standing, List.filter_append, List.getLast?_append]
  by_cases h : e.key = key <;> simp [h, standing]

theorem ascending_content (edits : List Edit) : (content edits).Ascending := by
  induction edits using List.reverseRecOn with
  | nil => exact .nil
  | append_singleton edits e ih =>
    rw [content_append_singleton]
    exact e.ascending_apply ih

/-- Under each key stands what was last set there and not removed since. -/
theorem get?_content (edits : List Edit) (key : String) :
    (content edits).get? key = standing edits key := by
  induction edits using List.reverseRecOn with
  | nil => rfl
  | append_singleton edits e ih =>
    rw [content_append_singleton, e.get?_apply (ascending_content edits), ih, standing_append_singleton]

theorem apply_content (edits : List Edit) (e : Edit) :
    (e.apply (content edits)).1 = standing edits e.key := by
  rw [e.apply_eq (ascending_content edits), get?_content]

theorem member_content (edits : List Edit) (key : String) :
    member (content edits) key = (standing edits key).elim (.error (.missingKey key)) .ok := by
  rw [member, get?_content]
  cases standing edits key <;> rfl

theorem content_eq {edits others : List Edit} (h : ∀ key, standing others key = standing edits key) :
    content others = content edits :=
  Members.eq_of_get? (ascending_content others) (ascending_content edits) fun key => by
    rw [get?_content, get?_content, h]

theorem codePoints_lt {s t : String} (h : s < t) : codePoints s < codePoints t :=
  List.map_lt (fun _ _ h => h) (String.lt_iff_toList_lt.1 h)

theorem codePoints_content (edits : List Edit) :
    (content edits).keys.Pairwise fun a b => codePoints a < codePoints b :=
  List.pairwise_map.2 ((ascending_content edits).imp codePoints_lt)

end Content

section Equality

theorem equalMembers_iff {a b : Members Json} :
    equalMembers a b = true ↔ List.Forall₂ (fun m n => m.1 = n.1 ∧ (m.2 == n.2) = true) a b := by
  induction a generalizing b with
  | nil => cases b <;> simp [equalMembers]
  | cons m a ih =>
    cases b with
    | nil => simp [equalMembers]
    | cons n b =>
      rw [equalMembers, Bool.and_eq_true, Bool.and_eq_true, beq_iff_eq, ih, List.forall₂_cons]
      exact Iff.rfl

theorem beq_iff_rel {v w : Option Json} :
    (v == w) = true ↔ Option.Rel (fun v w => (v == w) = true) v w := by
  cases v <;> cases w <;> simp

/-- Objects are equal just if they hold equal values under each key. -/
theorem object_beq_iff {a b : Members Json} (ha : a.Ascending) (hb : b.Ascending) :
    (object a == object b) = true ↔ ∀ key, (a.get? key == b.get? key) = true := by
  refine equalMembers_iff.trans ?_
  rw [Members.forall₂_iff_get? (R := fun v w => (v == w) = true) ha hb]
  exact forall_congr' fun key => beq_iff_rel.symm

theorem content_beq_iff (edits others : List Edit) :
    (object (content others) == object (content edits)) = true ↔
      ∀ key, (standing others key == standing edits key) = true := by
  rw [object_beq_iff (ascending_content others) (ascending_content edits)]
  simp only [get?_content]

end Equality

end Reckoner.Json
