import Mathlib.Data.List.Perm.Subperm
import Reckoner.Proofs.Cursor.Remaining
import Reckoner.Proofs.Literal.Scientific

/-!
# What the number rule leaves

The number rule leaves no character that was not there, and none more often than it was: what it holds
goes back only without a digit (`returned`), and a mark that it passes over not at all
(`Literal.subperm_readPlain_pop`).
-/

namespace Reckoner

open Text Cursor

/-- What the rule that holds `taken` may still hand back. -/
def returned (taken : List Char) : List Char :=
  if taken.any Char.isDigit then [] else taken

theorem returned_sublist (taken : List Char) : (returned taken).Sublist taken := by
  rw [returned]
  split
  · exact List.nil_sublist taken
  · exact .refl taken

theorem returned_withUnit_sublist (taken : List Char) :
    (returned (withUnit taken)).Sublist (returned taken) := by
  rw [withUnit]
  split
  · rename_i h
    simp only [Bool.or_eq_true, decide_eq_true_eq] at h
    rcases h with rfl | rfl <;> exact List.nil_sublist _
  · exact .refl _

theorem returned_append_singleton (taken : List Char) (x : Char) (cs : List Char) :
    (returned (taken ++ [x]) ++ cs).Sublist (returned taken ++ x :: cs) := by
  have hskip : cs.Sublist (returned taken ++ x :: cs) :=
    (List.sublist_cons_self x cs).trans (List.sublist_append_right _ _)
  rw [returned, List.any_append]
  split
  · exact hskip
  · rename_i h
    have hd : ¬ taken.any Char.isDigit = true := by
      intro h'
      rw [h', Bool.true_or] at h
      exact h rfl
    rw [returned, if_neg hd, List.append_assoc, List.singleton_append]

namespace Literal

variable {c : Cursor}

theorem subperm_settle (taken : List Char) (c : Cursor) :
    (settle taken c).2.remaining.Subperm (returned taken ++ c.remaining) := by
  rw [settle, returned]
  split
  · exact .refl _
  · exact (perm_remaining_inject c taken).subperm

theorem subperm_scanPlain (taken : List Char) (c : Cursor) :
    (scanPlain taken c).2.remaining.Subperm (returned taken ++ c.remaining) := by
  fun_induction scanPlain taken c with
  | case1 => exact subperm_settle _ _
  | case2 taken c x hp _ ih =>
    rw [remaining_of_peek hp]
    exact ih.trans (returned_append_singleton taken x _).subperm
  | case3 taken c => exact (List.sublist_append_right _ c.remaining).subperm
  | case4 => exact subperm_settle _ _

theorem subperm_readPlain (c : Cursor) : (readPlain c).2.remaining.Subperm c.remaining :=
  (subperm_scanPlain [] c.skipBlanks).trans c.skipBlanks_suffix.sublist.subperm

/-- Reading on behind a character does not bring it back. -/
theorem subperm_readPlain_pop {x : Char} (h : c.peek = some x) :
    (x :: (readPlain c.pop.2).2.remaining).Subperm c.remaining := by
  rw [remaining_of_peek h]
  exact List.subperm_cons x |>.2 (subperm_readPlain c.pop.2)

theorem subperm_afterMark {x : Char} (h : c.peek = some x) (cs : List Char) :
    (readPlain c.pop.2).2.remaining.Subperm (cs ++ c.remaining) :=
  ((List.sublist_cons_self x _).subperm.trans (subperm_readPlain_pop h)).trans
    (List.sublist_append_right cs _).subperm

theorem subperm_scanScientific (taken : List Char) (c : Cursor) :
    (scanScientific taken c).2.remaining.Subperm (returned taken ++ c.remaining) := by
  fun_induction scanScientific taken c with
  | case1 => exact subperm_settle _ _
  | case2 taken c x hp _ ih =>
    rw [remaining_of_peek hp]
    exact ih.trans (returned_append_singleton taken x _).subperm
  | case3 taken c => exact (List.sublist_append_right _ c.remaining).subperm
  | case4 taken c x hp => exact subperm_afterMark hp _
  | case5 taken c x hp => exact subperm_afterMark hp _
  | case6 taken c x hp _ _ _ taken' after _ ih =>
    have hunit : (returned taken').Subperm (returned taken) :=
      (returned_withUnit_sublist taken).subperm
    have hafter : after.2.remaining.Subperm c.remaining := subperm_afterMark hp []
    exact ih.trans (hunit.append hafter)
  | case7 => exact subperm_settle _ _

theorem subperm_readNumber (exponent : Bool) (c : Cursor) :
    (readNumber exponent c).2.remaining.Subperm c.remaining := by
  rw [readNumber]
  split
  · exact (subperm_scanScientific [] c.skipBlanks).trans c.skipBlanks_suffix.sublist.subperm
  · exact subperm_readPlain c

end Literal

end Reckoner
