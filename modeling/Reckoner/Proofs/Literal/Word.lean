import Reckoner.Cursor.Name
import Reckoner.Proofs.Literal.Numeral

/-!
# Words

A word is a name as it is written. It is taken whole in front of anything that cannot go on with it
(`Grammar.name_word`), and whatever name the cursor takes is a word (`Grammar.exists_word_of_name`).
A word and a numeral never start with the same character (`startsNumeral_of_isNameStart`).
-/

namespace Reckoner

open Text Cursor

/-- A letter or an underscore, and then letters, digits and underscores. -/
def isWord (cs : List Char) : Bool :=
  cs.head?.any isNameStart && cs.all isNameRest

theorem toNat_of_isAlpha {x : Char} (h : x.isAlpha = true) :
    0x41 ≤ x.toNat ∧ x.toNat ≤ 0x5a ∨ 0x61 ≤ x.toNat ∧ x.toNat ≤ 0x7a := by
  have h : (decide ('A'.val ≤ x.val ∧ x.val ≤ 'Z'.val) ||
    (decide ('a'.val ≤ x.val) && decide (x.val ≤ 'z'.val))) = true := h
  simp only [Bool.or_eq_true, Bool.and_eq_true, decide_eq_true_eq, UInt32.le_iff_toNat_le] at h
  exact h

theorem toNat_of_isNameRest {x : Char} (h : isNameRest x = true) :
    0x30 ≤ x.toNat ∧ x.toNat ≤ 0x7a := by
  simp only [isNameRest, Char.isAlphanum, Bool.or_eq_true, decide_eq_true_eq,
    Char.isDigit_iff_toNat] at h
  rcases h with (h | h) | rfl
  · rcases toNat_of_isAlpha h with h | h
    · exact ⟨Nat.le_trans (by decide) h.1, Nat.le_trans h.2 (by decide)⟩
    · exact ⟨Nat.le_trans (by decide) h.1, Nat.le_trans h.2 (by decide)⟩
  · exact ⟨Nat.le_trans (by decide) h.1, Nat.le_trans h.2 (by decide)⟩
  · decide

theorem isNameRest_of_isBlank {x : Char} (h : isBlank x = true) : isNameRest x = false := by
  have hb := toNat_of_isBlank h
  by_contra hx
  have := toNat_of_isNameRest (by simpa using hx)
  omega

theorem isNameRest_of_isNameStart {x : Char} (h : isNameStart x = true) : isNameRest x = true := by
  simp only [isNameStart, isNameRest, Char.isAlphanum, Bool.or_eq_true] at h ⊢
  exact h.imp_left .inl

theorem isBlank_of_isNameStart {x : Char} (h : isNameStart x = true) : isBlank x = false := by
  by_contra hb
  have hrest := isNameRest_of_isNameStart h
  rw [isNameRest_of_isBlank (by simpa using hb)] at hrest
  cases hrest

theorem startsNumeral_of_isNameStart {x : Char} (h : isNameStart x = true) :
    (isSign x || inNumeral x) = false := by
  by_contra hx
  simp only [isSign, inNumeral, Bool.not_eq_false, Bool.or_eq_true, decide_eq_true_eq] at hx
  rcases hx with (rfl | rfl) | hd | rfl
  · exact absurd h (by decide)
  · exact absurd h (by decide)
  · have hd : 0x30 ≤ x.toNat ∧ x.toNat ≤ 0x39 := Char.isDigit_iff_toNat.1 hd
    simp only [isNameStart, Bool.or_eq_true, decide_eq_true_eq] at h
    rcases h with h | rfl
    · rcases toNat_of_isAlpha h with h | h
      · exact absurd (Nat.le_trans h.1 hd.2) (by decide)
      · exact absurd (Nat.le_trans h.1 hd.2) (by decide)
    · exact absurd hd.2 (by decide)
  · exact absurd h (by decide)

/-- A name as it is written. -/
@[ext]
structure Word where
  chars : List Char
  isWord : isWord chars = true

/-- The name that the word spells. -/
def Word.text (w : Word) : String :=
  String.ofList w.chars

theorem Word.chars_eq_cons (w : Word) :
    ∃ x cs, w.chars = x :: cs ∧ isNameStart x = true ∧ ∀ y ∈ w.chars, isNameRest y = true := by
  have h := w.isWord
  simp only [Reckoner.isWord, Bool.and_eq_true, List.all_eq_true] at h
  rcases hc : w.chars with _ | ⟨x, cs⟩
  · simp [hc] at h
  · rw [hc] at h
    exact ⟨x, cs, rfl, by simpa using h.1, h.2⟩

namespace Grammar

/-- A word is taken whole in front of anything that cannot go on with it. -/
theorem name_word (w : Word) {post : List Char} (h : ∀ x ∈ post.head?, isNameRest x = false) :
    (ofList (w.chars ++ post)).name = (some w.text, ofList post) := by
  obtain ⟨x, cs, hw, hx, hall⟩ := w.chars_eq_cons
  have hhead : (w.chars ++ post).head?.any isNameStart = true := by simp [hw, hx]
  rw [name_ofList, if_pos hhead, List.takeWhile_append_of_pos hall,
    List.dropWhile_append_of_pos hall]
  cases post with
  | nil => simp [Word.text]
  | cons y post =>
    have hy : ¬ isNameRest y = true := by simpa using h y rfl
    rw [List.takeWhile_cons_of_neg hy, List.dropWhile_cons_of_neg hy, List.append_nil, Word.text]

/-- A name that the cursor takes is a word. -/
theorem exists_word_of_name {cs : List Char} {n : String} {d : Cursor} (h : (ofList cs).name = (some n, d)) :
    ∃ w : Word, ∃ post, cs = w.chars ++ post ∧ d = ofList post ∧ n = w.text := by
  rw [name_ofList] at h
  split at h
  · rename_i hstart
    obtain ⟨hn, rfl⟩ := Prod.mk.inj h
    have hw : isWord (cs.takeWhile isNameRest) = true := by
      cases cs with
      | nil => simp at hstart
      | cons x cs =>
        have hx : isNameStart x = true := by simpa using hstart
        rw [List.takeWhile_cons_of_pos (isNameRest_of_isNameStart hx)]
        simp only [isWord, List.head?_cons, Option.any_some, hx, Bool.true_and, List.all_cons,
          isNameRest_of_isNameStart hx]
        exact List.all_eq_true.2 fun _ hy => List.mem_takeWhile_imp hy
    exact ⟨⟨_, hw⟩, _, List.takeWhile_append_dropWhile.symm, rfl, (Option.some.inj hn).symm⟩
  · cases (Prod.mk.inj h).1

end Grammar

end Reckoner
