import Mathlib.Data.List.Forall2
import Mathlib.Data.Option.Basic
import Reckoner.Json.Members

/-!
# Entries under keys

What is stored under each key after an entry was stored (`Members.get?_insert`) or removed
(`Members.get?_erase`), and that members whose keys ascend are settled by what
they hold under each key (`Members.eq_of_get?`). Where keys ascend, an exchange stores an entry and gives
the one that was there (`Members.exchange_eq`), and a withdrawal removes it (`Members.withdraw_eq`).
-/

namespace Reckoner.Members

variable {α β : Type} {ms : Members α} {key : String}

theorem get?_cons (m : String × α) (ms : Members α) (key : String) :
    get? (m :: ms) key = if m.1 = key then some m.2 else ms.get? key := by
  rw [get?, List.find?_cons]
  by_cases h : m.1 = key <;> simp [h, get?]

theorem get?_eq_none_of_forall_lt (h : ∀ m ∈ ms, key < m.1) : ms.get? key = none := by
  rw [get?, Option.map_eq_none_iff, List.find?_eq_none]
  intro m hm
  rw [decide_eq_true_eq]
  rintro rfl
  exact String.lt_irrefl _ (h m hm)

theorem ascending_cons {m : String × α} :
    Ascending (m :: ms) ↔ (∀ n ∈ ms, m.1 < n.1) ∧ ms.Ascending :=
  List.pairwise_cons

theorem get?_cons_eq_none {m : String × α} (h : Ascending (m :: ms)) (hkey : key < m.1) :
    get? (m :: ms) key = none :=
  get?_eq_none_of_forall_lt <| List.forall_mem_cons.2
    ⟨hkey, fun n hn => String.lt_trans hkey ((ascending_cons.1 h).1 n hn)⟩

theorem get?_insert (ms : Members α) (key : String) (value : α) (k : String) :
    (ms.insert key value).get? k = if key = k then some value else ms.get? k := by
  induction ms with
  | nil => rw [insert, get?_cons]
  | cons m ms ih =>
    rw [insert]
    split
    · rw [get?_cons]
    · split
      · rename_i heq
        rw [get?_cons, get?_cons, heq]
        split <;> rfl
      · rename_i hne
        rw [get?_cons, get?_cons, ih]
        by_cases hk : m.1 = k
        · subst hk
          simp [hne]
        · simp [hk]

theorem erase_cons (key : String) (m : String × α) (ms : Members α) :
    erase key (m :: ms) = if m.1 = key then erase key ms else m :: erase key ms := by
  rw [erase, List.filter_cons]
  by_cases h : m.1 = key <;> simp [h, erase]

theorem erase_of_forall_ne (h : ∀ m ∈ ms, m.1 ≠ key) : erase key ms = ms :=
  List.filter_eq_self.2 fun m hm => by simpa using h m hm

theorem get?_erase (ms : Members α) (key k : String) :
    (erase key ms).get? k = if key = k then none else ms.get? k := by
  induction ms with
  | nil => simp [erase, get?]
  | cons m ms ih =>
    rw [erase_cons]
    split
    · rename_i heq
      rw [ih, get?_cons, heq]
      split <;> rfl
    · rename_i hne
      rw [get?_cons, get?_cons, ih]
      by_cases hk : m.1 = k
      · subst hk
        simp [Ne.symm hne]
      · simp [hk]

theorem exchange_eq (h : ms.Ascending) (key : String) (value : α) :
    ms.exchange key value = (ms.get? key, ms.insert key value) := by
  induction ms with
  | nil => rfl
  | cons m ms ih =>
    obtain ⟨-, hms⟩ := ascending_cons.1 h
    rw [exchange, insert]
    split
    · rename_i hkey
      rw [get?_cons_eq_none h hkey]
    · split
      · rename_i heq
        rw [get?_cons, if_pos heq.symm]
      · rename_i hne
        rw [ih hms, get?_cons, if_neg (Ne.symm hne)]

theorem withdraw_eq (h : ms.Ascending) (key : String) :
    ms.withdraw key = (ms.get? key, erase key ms) := by
  induction ms with
  | nil => rfl
  | cons m ms ih =>
    obtain ⟨hlt, hms⟩ := ascending_cons.1 h
    rw [withdraw, erase_cons, get?_cons]
    split
    · rename_i heq
      have hne : ∀ n ∈ ms, n.1 ≠ key := by
        rintro n hn rfl
        exact String.lt_irrefl _ (heq ▸ hlt n hn)
      rw [erase_of_forall_ne hne]
    · rw [ih hms]

/-- Members whose keys ascend have the same keys, with values that are related, just if they hold values
that are related under each key. -/
theorem forall₂_iff_get? {R : α → β → Prop} {a : Members α} {b : Members β} (ha' : a.Ascending)
    (hb' : b.Ascending) : List.Forall₂ (fun m n => m.1 = n.1 ∧ R m.2 n.2) a b ↔
      ∀ key, Option.Rel R (a.get? key) (b.get? key) := by
  constructor
  · intro h key
    induction h with
    | nil => exact .none
    | @cons m n a b hmn _ ih =>
      rw [get?_cons, get?_cons, ← hmn.1]
      split
      · exact .some hmn.2
      · exact ih (ascending_cons.1 ha').2 (ascending_cons.1 hb').2
  · intro h
    induction a generalizing b with
    | nil =>
      cases b with
      | nil => exact .nil
      | cons n b =>
        have hn := h n.1
        rw [get?_cons, if_pos rfl] at hn
        cases hn
    | cons m a ih =>
      obtain ⟨hm, ha⟩ := ascending_cons.1 ha'
      cases b with
      | nil =>
        have hm := h m.1
        rw [get?_cons, if_pos rfl] at hm
        cases hm
      | cons n b =>
        obtain ⟨hn, hb⟩ := ascending_cons.1 hb'
        -- Each first key is held on the other side too, where nothing is held below the first.
        have hkeys : m.1 = n.1 := by
          have hnm : ¬ n.1 < m.1 := by
            intro hlt
            have hrel := h n.1
            rw [get?_cons_eq_none ha' hlt, get?_cons, if_pos rfl] at hrel
            cases hrel
          have hmn : ¬ m.1 < n.1 := by
            intro hlt
            have hrel := h m.1
            rw [get?_cons_eq_none hb' hlt, get?_cons, if_pos rfl] at hrel
            cases hrel
          exact String.le_antisymm (String.not_lt.1 hnm) (String.not_lt.1 hmn)
        have hvalues : R m.2 n.2 := by
          have hrel := h m.1
          rw [get?_cons, get?_cons, if_pos rfl, if_pos hkeys.symm] at hrel
          cases hrel
          assumption
        refine .cons ⟨hkeys, hvalues⟩ (ih ha hb fun key => ?_)
        by_cases hkey : m.1 = key
        · rw [get?_eq_none_of_forall_lt (hkey ▸ hm), get?_eq_none_of_forall_lt (hkey ▸ hkeys ▸ hn)]
          exact .none
        · have hrel := h key
          rwa [get?_cons, get?_cons, if_neg hkey, if_neg (hkeys ▸ hkey)] at hrel

theorem eq_of_get? {a b : Members α} (ha : a.Ascending) (hb : b.Ascending)
    (h : ∀ key, a.get? key = b.get? key) : a = b := by
  have hrel : List.Forall₂ (fun m n => m.1 = n.1 ∧ m.2 = n.2) a b := by
    refine (forall₂_iff_get? ha hb).2 fun key => ?_
    rw [h key]
    cases b.get? key with
    | none => exact .none
    | some v => exact .some rfl
  rw [← List.forall₂_eq_eq_eq]
  exact hrel.imp fun m n hmn => Prod.ext hmn.1 hmn.2

end Reckoner.Members
