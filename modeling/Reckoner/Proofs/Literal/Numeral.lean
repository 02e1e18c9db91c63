import Reckoner.Literal.Basic
import Reckoner.Proofs.Cursor.OverList

/-!
# Numerals

A numeral is a number written without an exponent. Over a list the number rule takes the longest
front that can be one (`numeralFront`), refuses it if it has a second point and gives its value if
it has a digit (`readPlain_ofList`). So it reads a numeral in front of anything that cannot go on
with it (`readPlain_numeral`), and whatever number it gives was a numeral
(`exists_numeral_of_readPlain`).
-/

namespace Reckoner

open Text Cursor

/-- Whether the character can stand inside a numeral after its sign. -/
def inNumeral (x : Char) : Bool :=
  x.isDigit || x = '.'

def isSign (x : Char) : Bool :=
  x = '+' || x = '-'

theorem inNumeral_of_isBlank {x : Char} (h : isBlank x = true) : inNumeral x = false := by
  have hb := toNat_of_isBlank h
  by_contra hx
  simp only [inNumeral, Bool.not_eq_false, Bool.or_eq_true, decide_eq_true_eq] at hx
  rcases hx with hx | rfl
  · have : 0x30 ≤ x.toNat ∧ x.toNat ≤ 0x39 := Char.isDigit_iff_toNat.1 hx
    omega
  · exact absurd h (by decide)

theorem isBlank_of_startsNumeral {x : Char} (h : (isSign x || inNumeral x) = true) :
    isBlank x = false := by
  by_contra hb
  have hb : isBlank x = true := by simpa using hb
  simp only [isSign, inNumeral_of_isBlank hb, Bool.or_false, Bool.or_eq_true,
    decide_eq_true_eq] at h
  rcases h with rfl | rfl <;> exact absurd hb (by decide)

theorem isSign_of_inNumeral {x : Char} (h : inNumeral x = true) : isSign x = false := by
  by_contra hs
  simp only [isSign, Bool.not_eq_false, Bool.or_eq_true, decide_eq_true_eq] at hs
  rcases hs with rfl | rfl <;> exact absurd h (by decide)

/-- An optional sign, then digits with at most one point among them, and at least one digit. -/
def isNumeral (cs : List Char) : Bool :=
  let body := (Decimal.splitSign cs).2
  body.all inNumeral && body.count '.' ≤ 1 && body.any Char.isDigit

namespace Decimal

theorem splitSign_of_not_isSign {x : Char} (h : isSign x = false) (cs : List Char) :
    splitSign (x :: cs) = (false, x :: cs) := by
  simp only [isSign, Bool.or_eq_false_iff, decide_eq_false_iff_not] at h
  unfold splitSign
  split
  · rename_i heq
    exact absurd (List.cons.inj heq).1 h.2
  · rename_i heq
    exact absurd (List.cons.inj heq).1 h.1
  · rfl

theorem splitSign_of_isSign {x : Char} (h : isSign x = true) (cs : List Char) :
    (splitSign (x :: cs)).2 = cs := by
  simp only [isSign, Bool.or_eq_true, decide_eq_true_eq] at h
  rcases h with rfl | rfl <;> rfl

theorem exists_readUnsigned? {cs : List Char} (ha : cs.all inNumeral) (hp : cs.count '.' ≤ 1)
    (hd : cs.any Char.isDigit) : ∃ p, readUnsigned? cs = some p := by
  have hcs : cs.takeWhile Char.isDigit ++ cs.dropWhile Char.isDigit = cs :=
    List.takeWhile_append_dropWhile
  have hw : ∀ x ∈ cs.takeWhile Char.isDigit, x.isDigit = true := fun _ hx => List.mem_takeWhile_imp hx
  unfold readUnsigned?
  dsimp only
  cases hr : cs.dropWhile Char.isDigit with
  | nil =>
    rw [hr, List.append_nil] at hcs
    rw [hcs]
    cases cs with
    | nil => simp at hd
    | cons x cs => exact ⟨_, rfl⟩
  | cons x part =>
    have hx : x.isDigit = false := of_mem_head?_dropWhile x (by rw [hr]; rfl)
    have hdot : x = '.' := by
      have : inNumeral x = true := by
        refine List.all_eq_true.1 ha x ?_
        rw [← hcs, hr]
        simp
      simpa [inNumeral, hx] using this
    subst hdot
    have hpart : part.all Char.isDigit = true := by
      rw [List.all_eq_true]
      intro y hy
      have hy' : inNumeral y = true := by
        refine List.all_eq_true.1 ha y ?_
        rw [← hcs, hr]
        simp [hy]
      have hcount : part.count '.' = 0 := by
        rw [← hcs, hr, List.count_append, List.count_cons_self] at hp
        omega
      have hne : y ≠ '.' := fun h => List.count_eq_zero.1 hcount (h ▸ hy)
      simpa [inNumeral, hne] using hy'
    have hne : ((cs.takeWhile Char.isDigit).isEmpty && part.isEmpty) = false := by
      by_contra h
      simp only [Bool.not_eq_false, Bool.and_eq_true, List.isEmpty_iff] at h
      rw [← hcs, hr, h.1, h.2] at hd
      simp at hd
    refine ⟨(natOfDigits (cs.takeWhile Char.isDigit ++ part), -part.length), ?_⟩
    simp only [hpart, hne, Bool.not_false, Bool.and_self, ↓reduceIte]

theorem exists_readPlain? {cs : List Char} (h : isNumeral cs) : ∃ d, readPlain? cs = some d := by
  simp only [isNumeral, Bool.and_eq_true, decide_eq_true_eq] at h
  obtain ⟨p, hp⟩ := exists_readUnsigned? h.1.1 h.1.2 h.2
  exact ⟨⟨(splitSign cs).1, p.1, p.2⟩, by simp [readPlain?, hp]⟩

theorem readUnsigned?_eq_none {cs : List Char} (h : cs.any Char.isDigit = false) :
    readUnsigned? cs = none := by
  have hnone : ∀ x ∈ cs, ¬ x.isDigit = true := by simpa using h
  cases cs with
  | nil => rfl
  | cons x part =>
    obtain ⟨hx, hpart⟩ := List.forall_mem_cons.1 hnone
    rw [readUnsigned?, List.takeWhile_cons_of_neg hx, List.dropWhile_cons_of_neg hx]
    split
    · rfl
    · rename_i part' heq
      cases heq
      cases part with
      | nil => rfl
      | cons y part => simp [hpart y List.mem_cons_self]
    · rfl

theorem readPlain?_eq_none {cs : List Char} (h : cs.any Char.isDigit = false) :
    readPlain? cs = none := by
  have hbody : (splitSign cs).2.any Char.isDigit = false := by
    cases cs with
    | nil => rfl
    | cons x cs =>
      by_cases hx : isSign x = true
      · rw [List.any_cons, Bool.or_eq_false_iff] at h
        rw [splitSign_of_isSign hx, h.2]
      · rwa [splitSign_of_not_isSign (by simpa using hx)]
  simp [readPlain?, readUnsigned?_eq_none hbody]
end Decimal

/-- A number as it is written. -/
@[ext]
structure Numeral where
  chars : List Char
  isNumeral : isNumeral chars = true

namespace Numeral

/-- The number that the numeral spells. -/
def value (n : Numeral) : Float :=
  ((Decimal.readPlain? n.chars).get
    (Option.isSome_iff_exists.2 (Decimal.exists_readPlain? n.isNumeral))).toFloat

theorem readPlain?_chars (n : Numeral) :
    (Decimal.readPlain? n.chars).map Decimal.toFloat = some n.value := by
  obtain ⟨d, hd⟩ := Decimal.exists_readPlain? n.isNumeral
  simp [value, hd]

theorem any_isDigit (n : Numeral) : n.chars.any Char.isDigit = true := by
  have h := n.isNumeral
  simp only [Reckoner.isNumeral, Bool.and_eq_true] at h
  rcases hc : n.chars with _ | ⟨x, cs⟩
  · simp [hc, Decimal.splitSign] at h
  · rw [hc] at h
    by_cases hx : isSign x = true
    · rw [Decimal.splitSign_of_isSign hx] at h
      rw [List.any_cons, h.2, Bool.or_true]
    · rw [Decimal.splitSign_of_not_isSign (by simpa using hx)] at h
      exact h.2

theorem count_point_le (n : Numeral) : n.chars.count '.' ≤ 1 := by
  have h := n.isNumeral
  simp only [Reckoner.isNumeral, Bool.and_eq_true, decide_eq_true_eq] at h
  rcases hc : n.chars with _ | ⟨x, cs⟩
  · simp
  · rw [hc] at h
    by_cases hx : isSign x = true
    · rw [Decimal.splitSign_of_isSign hx] at h
      rw [List.count_cons_of_ne]
      · exact h.1.2
      · rintro rfl
        simp [isSign] at hx
    · rw [Decimal.splitSign_of_not_isSign (by simpa using hx)] at h
      exact h.1.2

/-- The first character is a sign, a digit or a point, and the others are digits and points. -/
theorem chars_eq_cons (n : Numeral) : ∃ x cs, n.chars = x :: cs ∧ (isSign x || inNumeral x) = true ∧
    cs.all inNumeral = true := by
  have h := n.isNumeral
  simp only [Reckoner.isNumeral, Bool.and_eq_true] at h
  rcases hc : n.chars with _ | ⟨x, cs⟩
  · simp [hc, Decimal.splitSign] at h
  · rw [hc] at h
    refine ⟨x, cs, rfl, ?_⟩
    by_cases hx : isSign x = true
    · rw [Decimal.splitSign_of_isSign hx] at h
      exact ⟨by simp [hx], h.1.1⟩
    · rw [Decimal.splitSign_of_not_isSign (by simpa using hx), List.all_cons, Bool.and_eq_true] at h
      exact ⟨by simp [h.1.1.1], h.1.1.2⟩

theorem skipBlanks_ofList_chars (n : Numeral) (post : List Char) :
    (ofList (n.chars ++ post)).skipBlanks = ofList (n.chars ++ post) := by
  obtain ⟨x, cs, hn, hx, -⟩ := n.chars_eq_cons
  rw [hn, List.cons_append, Cursor.skipBlanks_ofList,
    dropWhile_isBlank_cons (isBlank_of_startsNumeral hx)]

theorem isSign_or_inNumeral (n : Numeral) :
    ∀ x ∈ n.chars, (isSign x || inNumeral x) = true := by
  obtain ⟨x, cs, hn, hx, hcs⟩ := n.chars_eq_cons
  intro y hy
  rw [hn, List.mem_cons] at hy
  rcases hy with rfl | hy
  · exact hx
  · rw [List.all_eq_true.1 hcs y hy, Bool.or_true]

theorem chars_ne_nil (n : Numeral) : n.chars ≠ [] := by
  obtain ⟨x, cs, hn, -⟩ := n.chars_eq_cons
  simp [hn]

theorem count_eq_zero (n : Numeral) {x : Char} (hs : isSign x = false) (hx : inNumeral x = false) :
    n.chars.count x = 0 := by
  obtain ⟨y, cs, hn, hy, hcs⟩ := n.chars_eq_cons
  rw [List.count_eq_zero, hn, List.mem_cons, not_or]
  constructor
  · rintro rfl
    simp [hs, hx] at hy
  · intro hmem
    have := List.all_eq_true.1 hcs x hmem
    simp [hx] at this

end Numeral

/-- The longest front that consists of an optional sign and of digits and points. -/
def numeralFront : List Char → List Char
  | [] => []
  | x :: cs => if isSign x || inNumeral x then x :: cs.takeWhile inNumeral else []

/-- What stands after that front. -/
def numeralRest : List Char → List Char
  | [] => []
  | x :: cs => if isSign x || inNumeral x then cs.dropWhile inNumeral else x :: cs

theorem numeralFront_append_numeralRest (cs : List Char) :
    numeralFront cs ++ numeralRest cs = cs := by
  cases cs with
  | nil => rfl
  | cons x cs =>
    simp only [numeralFront, numeralRest]
    split <;> simp

/-- A front with a digit and at most one point is a numeral. -/
theorem isNumeral_numeralFront {cs : List Char} (hp : (numeralFront cs).count '.' ≤ 1)
    (hd : (numeralFront cs).any Char.isDigit = true) : isNumeral (numeralFront cs) = true := by
  cases cs with
  | nil => simp [numeralFront] at hd
  | cons x cs =>
    by_cases hx : (isSign x || inNumeral x) = true
    · simp only [numeralFront, if_pos hx] at hp hd ⊢
      have hall : (cs.takeWhile inNumeral).all inNumeral = true :=
        List.all_eq_true.2 fun _ hy => List.mem_takeWhile_imp hy
      simp only [isNumeral]
      by_cases hs : isSign x = true
      · have hx' : x.isDigit = false := by
          simp only [isSign, Bool.or_eq_true, decide_eq_true_eq] at hs
          rcases hs with rfl | rfl <;> rfl
        rw [List.any_cons, hx', Bool.false_or] at hd
        have : (cs.takeWhile inNumeral).count '.' ≤ 1 :=
          Nat.le_trans (List.Sublist.count_le _ (List.sublist_cons_self _ _)) hp
        rw [Decimal.splitSign_of_isSign hs]
        simp only [hall, hd, this, decide_true, Bool.and_true]
      · have hs' : isSign x = false := by simpa using hs
        rw [hs', Bool.false_or] at hx
        rw [Decimal.splitSign_of_not_isSign hs']
        simp only [List.all_cons, hx, hall, hd, hp, decide_true, Bool.and_true]
    · rw [numeralFront, if_neg hx] at hd
      simp at hd

namespace Literal

theorem continues_nil (x : Char) : continues [] x = (isSign x || inNumeral x) := by
  simp only [continues, isSign, inNumeral, List.isEmpty_nil, List.contains_nil, Bool.not_false,
    Bool.and_true]
  cases x.isDigit <;> simp

theorem continues_of_ne_nil {taken : List Char} (ht : taken ≠ []) (x : Char) :
    continues taken x = (x.isDigit || (x = '.' && !taken.contains '.')) := by
  have : taken.isEmpty = false := by simpa using ht
  simp [continues, this]

theorem scanPlain_ofList_nil (taken : List Char) :
    scanPlain taken (ofList []) = settle taken (ofList []) := by
  rw [scanPlain]
  rfl

theorem scanPlain_ofList_cons (taken : List Char) (x : Char) (cs : List Char) :
    scanPlain taken (ofList (x :: cs)) = if continues taken x then scanPlain (taken ++ [x]) (ofList cs)
      else if x = '.' then (.error .multipleDecimalPoints, ofList (x :: cs))
      else settle taken (ofList (x :: cs)) := by
  rw [scanPlain]
  rfl

/-- With something taken, the rule takes all digits and points that follow. -/
theorem scanPlain_ofList {taken : List Char} (ht : taken ≠ []) (hp : taken.count '.' ≤ 1)
    (cs : List Char) :
    ((taken ++ cs.takeWhile inNumeral).count '.' ≤ 1 ∧ scanPlain taken (ofList cs)
        = settle (taken ++ cs.takeWhile inNumeral) (ofList (cs.dropWhile inNumeral)))
    ∨ (1 < (taken ++ cs.takeWhile inNumeral).count '.'
      ∧ (scanPlain taken (ofList cs)).1 = .error .multipleDecimalPoints) := by
  induction cs generalizing taken with
  | nil =>
    left
    simp [scanPlain_ofList_nil, hp]
  | cons x cs ih =>
    rw [scanPlain_ofList_cons, continues_of_ne_nil ht]
    by_cases hd : x.isDigit = true
    · have hx : inNumeral x = true := by simp [inNumeral, hd]
      have hne : x ≠ '.' := by
        rintro rfl
        simp at hd
      have hp' : (taken ++ [x]).count '.' ≤ 1 := by
        rw [List.count_append, List.count_singleton]
        simp [hne, hp]
      have := ih (by simp) hp'
      rw [List.takeWhile_cons_of_pos hx, List.dropWhile_cons_of_pos hx]
      simpa [hd, List.append_assoc] using this
    · by_cases hdot : x = '.'
      · subst hdot
        rw [List.takeWhile_cons_of_pos (by rfl), List.dropWhile_cons_of_pos (by rfl)]
        by_cases hc : taken.contains '.' = true
        · right
          have : 1 ≤ taken.count '.' := List.count_pos_iff.2 (by simpa using hc)
          refine ⟨?_, by simp only [hc]; rfl⟩
          rw [List.count_append, List.count_cons_self]
          omega
        · have hc' : taken.contains '.' = false := by simpa using hc
          have h0 : taken.count '.' = 0 := List.count_eq_zero.2 (by simpa using hc)
          have hp' : (taken ++ ['.']).count '.' ≤ 1 := by
            rw [List.count_append, h0]
            simp
          have := ih (by simp) hp'
          rw [if_pos (by rw [hc']; rfl)]
          simpa [List.append_assoc] using this
      · left
        have hx : ¬ inNumeral x = true := by simp [inNumeral, hd, hdot]
        rw [List.takeWhile_cons_of_neg hx, List.dropWhile_cons_of_neg hx]
        simp [hd, hdot, hp]

theorem settle_nil (c : Cursor) : settle [] c = (.ok none, c) := by
  simp [settle, inject]

/-- Over a list, the rule takes the longest front that can be a numeral. -/
theorem scanPlain_nil_ofList (cs : List Char) :
    ((numeralFront cs).count '.' ≤ 1
      ∧ scanPlain [] (ofList cs) = settle (numeralFront cs) (ofList (numeralRest cs)))
    ∨ (1 < (numeralFront cs).count '.'
      ∧ (scanPlain [] (ofList cs)).1 = .error .multipleDecimalPoints) := by
  cases cs with
  | nil =>
    left
    simp [scanPlain_ofList_nil, numeralFront, numeralRest]
  | cons x cs =>
    rw [scanPlain_ofList_cons, continues_nil]
    simp only [numeralFront, numeralRest]
    split
    · have hp : [x].count '.' ≤ 1 := List.count_le_length
      simpa using scanPlain_ofList (by simp) hp cs
    · rename_i hx
      have hdot : x ≠ '.' := by
        rintro rfl
        exact hx rfl
      left
      simp [hdot]

theorem numeralFront_append {n : Numeral} {post : List Char}
    (h : ∀ x ∈ post.head?, inNumeral x = false) :
    numeralFront (n.chars ++ post) = n.chars ∧ numeralRest (n.chars ++ post) = post := by
  obtain ⟨x, cs, hc, hx, hcs⟩ := n.chars_eq_cons
  have hall : ∀ y ∈ cs, inNumeral y = true := List.all_eq_true.1 hcs
  rw [hc, List.cons_append, numeralFront, numeralRest, if_pos hx, if_pos hx,
    List.takeWhile_append_of_pos hall, List.dropWhile_append_of_pos hall]
  cases post with
  | nil => simp
  | cons y post =>
    have hy : ¬ inNumeral y = true := by simpa using h y rfl
    rw [List.takeWhile_cons_of_neg hy, List.dropWhile_cons_of_neg hy]
    simp

/-- A numeral is read in front of anything that cannot go on with it. -/
theorem readPlain_numeral (n : Numeral) {c : Cursor} {post : List Char}
    (hc : c.skipBlanks = ofList (n.chars ++ post)) (h : ∀ x ∈ post.head?, inNumeral x = false) :
    readPlain c = (.ok (some n.value), ofList post) := by
  obtain ⟨hf, hr⟩ := numeralFront_append h
  have hp := n.count_point_le
  rcases scanPlain_nil_ofList (n.chars ++ post) with ⟨-, hs⟩ | ⟨hlt, -⟩
  · rw [readPlain, hc, hs, hf, hr, settle, if_pos n.any_isDigit, n.readPlain?_chars]
  · rw [hf] at hlt
    omega

/-- Where no numeral can start, nothing is taken. -/
theorem readPlain_none {c : Cursor} {cs : List Char} (hc : c.skipBlanks = ofList cs)
    (h : ∀ x ∈ cs.head?, (isSign x || inNumeral x) = false) :
    readPlain c = (.ok none, ofList cs) := by
  rw [readPlain, hc]
  cases cs with
  | nil => rw [scanPlain_ofList_nil, settle_nil]
  | cons x cs =>
    have hx := h x rfl
    have hdot : x ≠ '.' := by
      rintro rfl
      exact absurd hx (by decide)
    rw [scanPlain_ofList_cons, continues_nil, hx, settle_nil]
    simp [hdot]

/-- A front with a digit gives the value of a numeral, any other is handed back. -/
theorem settle_numeralFront {cs : List Char} (hp : (numeralFront cs).count '.' ≤ 1) :
    (∃ n : Numeral, numeralFront cs = n.chars ∧ settle (numeralFront cs) (ofList (numeralRest cs))
        = (.ok (some n.value), ofList (numeralRest cs)))
    ∨ (numeralFront cs).any Char.isDigit = false ∧ settle (numeralFront cs) (ofList (numeralRest cs))
        = (.ok none, (ofList (numeralRest cs)).inject (numeralFront cs)) := by
  by_cases hd : (numeralFront cs).any Char.isDigit = true
  · left
    let n : Numeral := ⟨numeralFront cs, isNumeral_numeralFront hp hd⟩
    refine ⟨n, rfl, ?_⟩
    rw [settle, if_pos hd, show numeralFront cs = n.chars from rfl, n.readPlain?_chars]
  · exact .inr ⟨by simpa using hd, by rw [settle, if_neg hd]⟩

/-- Whatever number the rule gives was a numeral after blanks. -/
theorem exists_numeral_of_readPlain {cs : List Char} {v : Float} {d : Cursor}
    (h : readPlain (ofList cs) = (.ok (some v), d)) :
    ∃ gap, ∃ n : Numeral, ∃ post, cs = gap ++ n.chars ++ post ∧ Blanks gap ∧ d = ofList post
      ∧ v = n.value := by
  rw [readPlain, skipBlanks_ofList] at h
  have hcs := List.takeWhile_append_dropWhile (p := isBlank) (l := cs)
  rw [← numeralFront_append_numeralRest (cs.dropWhile isBlank)] at hcs
  rcases scanPlain_nil_ofList (cs.dropWhile isBlank) with ⟨hp, hs⟩ | ⟨-, hs⟩
  · rw [hs] at h
    rcases settle_numeralFront hp with ⟨n, hn, hset⟩ | ⟨-, hset⟩
    · rw [hset] at h
      obtain ⟨hv, rfl⟩ := Prod.mk.inj h
      rw [hn, ← List.append_assoc] at hcs
      exact ⟨_, n, _, hcs.symm, blanks_takeWhile cs, rfl,
        (Option.some.inj (Except.ok.inj hv)).symm⟩
    · rw [hset] at h
      cases (Prod.mk.inj h).1
  · rw [h] at hs
    cases hs

end Literal

end Reckoner
