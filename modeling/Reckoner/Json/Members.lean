/-!
# Members of an object

The entries of an object: keys with values, the keys strictly ascending in the order of their code
points (`ascending_insert`, `ascending_erase`), so that what the entries are settles their order.
-/

namespace Reckoner

/-- Keys with their values. -/
abbrev Members (α : Type) : Type := List (String × α)

namespace Members

variable {α : Type}

/-- The keys in order. -/
def keys (ms : Members α) : List String :=
  ms.map Prod.fst

/-- The value under `key`. -/
def get? (ms : Members α) (key : String) : Option α :=
  (ms.find? (·.1 = key)).map Prod.snd

/-- Stores `value` under `key`, in place of what was there. -/
def insert (key : String) (value : α) : Members α → Members α
  | [] => [(key, value)]
  | (k, v) :: rest =>
    if key < k then (key, value) :: (k, v) :: rest
    else if key = k then (key, value) :: rest
    else (k, v) :: insert key value rest

/-- Removes what is stored under `key`. -/
def erase (key : String) (ms : Members α) : Members α :=
  ms.filter (·.1 ≠ key)

/-- Stores `value` under `key`; also gives what was there. -/
def exchange (key : String) (value : α) : Members α → Option α × Members α
  | [] => (none, [(key, value)])
  | (k, v) :: rest =>
    if key < k then (none, (key, value) :: (k, v) :: rest)
    else if key = k then (some v, (key, value) :: rest)
    else
      let (old, rest) := exchange key value rest
      (old, (k, v) :: rest)

/-- Takes out what is stored under `key`, and gives it. -/
def withdraw (key : String) : Members α → Option α × Members α
  | [] => (none, [])
  | (k, v) :: rest =>
    if k = key then (some v, rest)
    else
      let (old, rest) := withdraw key rest
      (old, (k, v) :: rest)

/-- Whether the keys ascend strictly. -/
def Ascending (ms : Members α) : Prop :=
  ms.Pairwise fun a b => a.1 < b.1

theorem mem_insert {key : String} {value : α} {ms : Members α} {m : String × α}
    (h : m ∈ insert key value ms) : m = (key, value) ∨ m ∈ ms := by
  induction ms with
  | nil => simpa [insert] using h
  | cons e rest ih =>
    simp only [insert] at h
    split at h
    · simpa using h
    · split at h
      · simp only [List.mem_cons] at h ⊢
        exact h.imp_right Or.inr
      · simp only [List.mem_cons] at h ⊢
        rcases h with h | h
        · exact .inr (.inl h)
        · exact (ih h).imp_right Or.inr

theorem ascending_insert {key : String} {value : α} {ms : Members α} (h : ms.Ascending) :
    (insert key value ms).Ascending := by
  induction ms with
  | nil => simp [insert, Ascending]
  | cons e rest ih =>
    obtain ⟨hlt, hrest⟩ := List.pairwise_cons.1 h
    simp only [insert]
    split
    · rename_i hk
      refine List.pairwise_cons.2 ⟨fun m hm => ?_, h⟩
      rcases List.mem_cons.1 hm with rfl | hm
      · exact hk
      · exact String.lt_trans hk (hlt m hm)
    · split
      · rename_i heq
        refine List.pairwise_cons.2 ⟨fun m hm => ?_, hrest⟩
        exact heq ▸ hlt m hm
      · rename_i hge hne
        refine List.pairwise_cons.2 ⟨fun m hm => ?_, ih hrest⟩
        rcases mem_insert hm with rfl | hm
        · refine Decidable.byContradiction fun hnot => hne ?_
          exact String.le_antisymm (String.not_lt.1 hnot) (String.not_lt.1 hge)
        · exact hlt m hm

theorem ascending_erase {key : String} {ms : Members α} (h : ms.Ascending) :
    (erase key ms).Ascending :=
  List.Pairwise.filter _ h

end Members

end Reckoner
