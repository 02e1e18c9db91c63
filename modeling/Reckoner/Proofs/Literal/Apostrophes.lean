import Reckoner.Proofs.Except
import Reckoner.Proofs.Literal.Quotation
import Reckoner.Proofs.Literal.Remaining

/-!
# What texts cost

A text that double quotes cannot close is read only from between two apostrophes. With its own
apostrophes they make up its cost, and no literal rule gives a text that costs more apostrophes than
it takes (`Literal.cost_add_apostrophes_readValue`).
-/

namespace Reckoner

open Text

namespace Cursor

/-- How many apostrophes remain to be read. -/
def apostrophes (c : Cursor) : Nat :=
  c.remaining.count '\''

theorem apostrophes_le_of_suffix {c d : Cursor} (h : d.remaining <:+ c.remaining) :
    d.apostrophes ≤ c.apostrophes :=
  h.sublist.count_le _

theorem apostrophes_pop_le (c : Cursor) : c.pop.2.apostrophes ≤ c.apostrophes :=
  apostrophes_le_of_suffix c.pop_suffix

theorem apostrophes_skipBlanks_le (c : Cursor) : c.skipBlanks.apostrophes ≤ c.apostrophes :=
  apostrophes_le_of_suffix c.skipBlanks_suffix

theorem apostrophes_isNext_le (x : Char) (c : Cursor) :
    (c.isNext x).2.apostrophes ≤ c.apostrophes :=
  apostrophes_le_of_suffix (isNext_suffix x c)

theorem apostrophes_take_le (n : Nat) (c : Cursor) : (c.take n).2.apostrophes ≤ c.apostrophes :=
  apostrophes_le_of_suffix (take_suffix n c)

end Cursor

namespace Literal

/-- The apostrophes of a text, and two more where it cannot stand between double quotes. -/
def cost (s : String) : Nat :=
  s.toList.count '\'' + if closed '"' false s.toList then 0 else 2

theorem cost_add_apostrophes_readString {c d : Cursor} {o : Option String}
    (h : readString c = (.ok o, d)) : o.elim 0 cost + d.apostrophes ≤ c.apostrophes := by
  have hblanks := c.apostrophes_skipBlanks_le
  simp only [readString] at h
  split at h
  · rename_i quote hpeek
    split at h
    · rename_i hquote
      split at h
      · rename_i body rest hcontent
        obtain ⟨ho, rfl⟩ := Prod.mk.inj h
        obtain rfl := Except.ok.inj ho
        obtain ⟨hclosed, hrest⟩ := of_content hcontent
        rw [Cursor.apostrophes, Cursor.remaining_of_peek hpeek, hrest] at hblanks
        refine Nat.le_trans ?_ hblanks
        simp only [Bool.or_eq_true, decide_eq_true_eq] at hquote
        rcases hquote with rfl | rfl
        · simp only [cost, Option.elim_some, String.toList_ofList, List.count_cons_self,
            List.count_append, Cursor.apostrophes]
          split <;> omega
        · simp [cost, Cursor.apostrophes, hclosed]
      · cases (Prod.mk.inj h).1
    · obtain ⟨ho, rfl⟩ := Prod.mk.inj h
      obtain rfl := Except.ok.inj ho
      simpa using hblanks
  · obtain ⟨ho, rfl⟩ := Prod.mk.inj h
    obtain rfl := Except.ok.inj ho
    simpa using hblanks

theorem apostrophes_readNumber_le (exponent : Bool) (c : Cursor) :
    (readNumber exponent c).2.apostrophes ≤ c.apostrophes :=
  (subperm_readNumber exponent c).count_le _

theorem apostrophes_readBoolean_le (c : Cursor) :
    (readBoolean c).2.apostrophes ≤ c.apostrophes := by
  have hword (b : Bool) : (readWord b c.skipBlanks).2.apostrophes ≤ c.skipBlanks.apostrophes := by
    have htake := Cursor.apostrophes_take_le (word b).length c.skipBlanks
    simp only [readWord]
    split <;> exact htake
  have hblanks := c.apostrophes_skipBlanks_le
  simp only [readBoolean]
  split
  · exact Nat.le_trans (hword true) hblanks
  · exact Nat.le_trans (hword false) hblanks
  · exact hblanks

/-- The cost of a literal is that of its text, if it is one. -/
def literalCost : Literal → Nat
  | string s => cost s
  | number _ => 0
  | boolean _ => 0

/-- No literal costs more apostrophes than were taken for it. -/
theorem cost_add_apostrophes_readValue {c d : Cursor} {o : Option Literal}
    (h : readValue c = (.ok o, d)) : o.elim 0 literalCost + d.apostrophes ≤ c.apostrophes := by
  have hblanks := c.apostrophes_skipBlanks_le
  simp only [readValue] at h
  split at h
  · obtain ⟨ho, rfl⟩ := Prod.mk.inj h
    obtain rfl := Except.ok.inj ho
    simpa using hblanks
  · rename_i x _
    split at h
    · obtain ⟨ho, rfl⟩ := Prod.mk.inj h
      obtain ⟨s, hs, rfl⟩ := map_eq_ok.1 ho
      have hread := cost_add_apostrophes_readString (Prod.ext hs rfl)
      cases s <;> exact Nat.le_trans hread hblanks
    · split at h
      · obtain ⟨ho, rfl⟩ := Prod.mk.inj h
        obtain ⟨n, -, rfl⟩ := map_eq_ok.1 ho
        have hread := apostrophes_readNumber_le true c.skipBlanks
        cases n <;> simpa [literalCost] using Nat.le_trans hread hblanks
      · split at h
        · obtain ⟨ho, rfl⟩ := Prod.mk.inj h
          obtain ⟨b, -, rfl⟩ := map_eq_ok.1 ho
          have hread := apostrophes_readBoolean_le c.skipBlanks
          cases b <;> simpa [literalCost] using Nat.le_trans hread hblanks
        · obtain ⟨ho, rfl⟩ := Prod.mk.inj h
          obtain rfl := Except.ok.inj ho
          simpa using hblanks

end Literal

end Reckoner
