import Reckoner.Json.Access
import Reckoner.Proofs.Decimal.Bits
import Reckoner.Proofs.Except

/-!
# What a value contains

The texts and the numbers of a value, at any depth. Equal values have the same texts
(`texts_eq_of_equals`), and a value whose numbers are finite is equal to itself (`equals_self`).

A value is proper if the keys of each of its objects ascend. Sorting the members of its objects makes
any value proper (`proper_sorted`) and leaves a proper one as it is (`sorted_of_proper`).
-/

namespace Reckoner.Json

mutual

/-- The texts of a value from left to right, keys included. -/
def texts : Json → List String
  | object ms => memberTexts ms
  | array vs => itemTexts vs
  | number _ => []
  | boolean _ => []
  | string s => [s]
  | null => []

def memberTexts : List (String × Json) → List String
  | [] => []
  | (k, v) :: rest => k :: (v.texts ++ memberTexts rest)

def itemTexts : List Json → List String
  | [] => []
  | v :: rest => v.texts ++ itemTexts rest

end

mutual

/-- The numbers of a value from left to right. -/
def numbers : Json → List Float
  | object ms => memberNumbers ms
  | array vs => itemNumbers vs
  | number n => [n]
  | boolean _ => []
  | string _ => []
  | null => []

def memberNumbers : List (String × Json) → List Float
  | [] => []
  | (_, v) :: rest => v.numbers ++ memberNumbers rest

def itemNumbers : List Json → List Float
  | [] => []
  | v :: rest => v.numbers ++ itemNumbers rest

end

mutual

/-- The keys of every object in the value ascend. -/
def Proper : Json → Prop
  | object ms => Members.Ascending ms ∧ ProperMembers ms
  | array vs => ProperItems vs
  | number _ => True
  | boolean _ => True
  | string _ => True
  | null => True

def ProperMembers : List (String × Json) → Prop
  | [] => True
  | (_, v) :: rest => v.Proper ∧ ProperMembers rest

def ProperItems : List Json → Prop
  | [] => True
  | v :: rest => v.Proper ∧ ProperItems rest

end

mutual

theorem texts_eq_of_equals : {v w : Json} → equals v w = true → v.texts = w.texts
  | object a, w, h => by
    cases w with
    | object b => exact memberTexts_eq_of_equals (by simpa only [equals] using h)
    | _ => simp [equals] at h
  | array a, w, h => by
    cases w with
    | array b => exact itemTexts_eq_of_equals (by simpa only [equals] using h)
    | _ => simp [equals] at h
  | number a, w, h => by
    cases w with
    | number b => rfl
    | _ => simp [equals] at h
  | boolean a, w, h => by
    cases w with
    | boolean b => rfl
    | _ => simp [equals] at h
  | string a, w, h => by
    cases w with
    | string b => rw [show a = b by simpa [equals] using h]
    | _ => simp [equals] at h
  | null, w, h => by
    cases w with
    | null => rfl
    | _ => simp [equals] at h

theorem memberTexts_eq_of_equals :
    {a b : List (String × Json)} → equalMembers a b = true → memberTexts a = memberTexts b
  | [], [], _ => rfl
  | [], _ :: _, h => by simp [equalMembers] at h
  | _ :: _, [], h => by simp [equalMembers] at h
  | (k, v) :: a, (l, w) :: b, h => by
    simp only [equalMembers, Bool.and_eq_true, beq_iff_eq] at h
    rw [memberTexts, memberTexts, h.1.1, texts_eq_of_equals h.1.2, memberTexts_eq_of_equals h.2]

theorem itemTexts_eq_of_equals :
    {a b : List Json} → equalItems a b = true → itemTexts a = itemTexts b
  | [], [], _ => rfl
  | [], _ :: _, h => by simp [equalItems] at h
  | _ :: _, [], h => by simp [equalItems] at h
  | v :: a, w :: b, h => by
    simp only [equalItems, Bool.and_eq_true] at h
    rw [itemTexts, itemTexts, texts_eq_of_equals h.1, itemTexts_eq_of_equals h.2]

end

mutual

theorem equals_self : (v : Json) → (∀ n ∈ v.numbers, n.isFinite = true) → equals v v = true
  | object ms, h => by
    rw [equals]
    exact equalMembers_self ms h
  | array vs, h => by
    rw [equals]
    exact equalItems_self vs h
  | number n, h => by
    rw [equals]
    exact beq_self_of_isFinite (h n (List.mem_singleton_self n))
  | boolean _, _ => by simp [equals]
  | string _, _ => by simp [equals]
  | null, _ => by simp [equals]

theorem equalMembers_self : (ms : List (String × Json)) →
    (∀ n ∈ memberNumbers ms, n.isFinite = true) → equalMembers ms ms = true
  | [], _ => by simp [equalMembers]
  | (k, v) :: rest, h => by
    obtain ⟨hv, hrest⟩ := List.forall_mem_append.1 h
    simp [equalMembers, equals_self v hv, equalMembers_self rest hrest]

theorem equalItems_self : (vs : List Json) →
    (∀ n ∈ itemNumbers vs, n.isFinite = true) → equalItems vs vs = true
  | [], _ => by simp [equalItems]
  | v :: rest, h => by
    obtain ⟨hv, hrest⟩ := List.forall_mem_append.1 h
    simp [equalItems, equals_self v hv, equalItems_self rest hrest]

end

theorem properMembers_iff {ms : List (String × Json)} :
    ProperMembers ms ↔ ∀ m ∈ ms, m.2.Proper := by
  induction ms with
  | nil => simp [ProperMembers]
  | cons m ms ih => simp [ProperMembers, ih]

theorem properItems_iff {vs : List Json} : ProperItems vs ↔ ∀ v ∈ vs, v.Proper := by
  induction vs with
  | nil => simp [ProperItems]
  | cons v vs ih => simp [ProperItems, ih]

theorem itemTexts_eq (vs : List Json) : itemTexts vs = vs.flatMap texts := by
  induction vs with
  | nil => rfl
  | cons v vs ih => rw [itemTexts, ih, List.flatMap_cons]

theorem itemNumbers_eq (vs : List Json) : itemNumbers vs = vs.flatMap numbers := by
  induction vs with
  | nil => rfl
  | cons v vs ih => rw [itemNumbers, ih, List.flatMap_cons]

theorem proper_insert {ms : Members Json} {v : Json} (h : (object ms).Proper) (hv : v.Proper)
    (key : String) : (object (ms.insert key v)).Proper := by
  rw [Proper, properMembers_iff] at h ⊢
  refine ⟨Members.ascending_insert h.1, fun m hm => ?_⟩
  rcases Members.mem_insert hm with rfl | hm
  · exact hv
  · exact h.2 m hm

mutual

/-- The value with the members of each object in the order of their keys. -/
def sorted : Json → Json
  | object ms => object (sortedMembers ms)
  | array vs => array (sortedItems vs)
  | number n => number n
  | boolean b => boolean b
  | string s => string s
  | null => null

def sortedMembers : List (String × Json) → Members Json
  | [] => []
  | (k, v) :: rest => (sortedMembers rest).insert k v.sorted

def sortedItems : List Json → List Json
  | [] => []
  | v :: rest => v.sorted :: sortedItems rest

end

mutual

theorem proper_sorted : (v : Json) → v.sorted.Proper
  | object ms => by
    rw [sorted]
    exact proper_sortedMembers ms
  | array vs => by
    rw [sorted, Proper]
    exact proper_sortedItems vs
  | number _ | boolean _ | string _ | null => by rw [sorted, Proper]; trivial

theorem proper_sortedMembers : (ms : List (String × Json)) → (object (sortedMembers ms)).Proper
  | [] => by
    rw [sortedMembers, Proper]
    exact ⟨.nil, trivial⟩
  | (k, v) :: rest => by
    rw [sortedMembers]
    exact proper_insert (proper_sortedMembers rest) (proper_sorted v) k

theorem proper_sortedItems : (vs : List Json) → ProperItems (sortedItems vs)
  | [] => trivial
  | v :: rest => ⟨proper_sorted v, proper_sortedItems rest⟩

end

/-- A member that comes before all others is stored at the front. -/
theorem insert_of_forall_lt {key : String} {value : Json} {ms : Members Json}
    (h : ∀ m ∈ ms, key < m.1) : ms.insert key value = (key, value) :: ms := by
  cases ms with
  | nil => rfl
  | cons m ms => rw [Members.insert, if_pos (h m List.mem_cons_self)]

mutual

theorem sorted_of_proper : (v : Json) → v.Proper → v.sorted = v
  | object ms, h => by rw [sorted, sortedMembers_of_proper ms h.1 h.2]
  | array vs, h => by rw [sorted, sortedItems_of_proper vs h]
  | number _, _ | boolean _, _ | string _, _ | null, _ => by rw [sorted]

theorem sortedMembers_of_proper : (ms : List (String × Json)) → Members.Ascending ms →
    ProperMembers ms → sortedMembers ms = ms
  | [], _, _ => by rw [sortedMembers]
  | (k, v) :: rest, ha, hp => by
    obtain ⟨hlt, ha⟩ := List.pairwise_cons.1 ha
    rw [sortedMembers, sorted_of_proper v hp.1, sortedMembers_of_proper rest ha hp.2,
      insert_of_forall_lt hlt]

theorem sortedItems_of_proper : (vs : List Json) → ProperItems vs → sortedItems vs = vs
  | [], _ => by rw [sortedItems]
  | v :: rest, h => by rw [sortedItems, sorted_of_proper v h.1, sortedItems_of_proper rest h.2]

end

end Reckoner.Json
