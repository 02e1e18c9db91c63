import Reckoner.Proofs.Literal.Scientific
import Reckoner.Proofs.Literal.Stub

/-!
# What the number rule takes

The number rule takes a mark before it knows that an exponent follows. Where none does it passes over
the mark and the blanks behind it, keeps a point that stands there for the mantissa, and goes on
(`Stray`). Even with an exponent at its end a mantissa may be without a digit: then the rule has taken
a token and gives no number (`Lost`). Any other token gives one (`Found`). What the rule takes and
does not hand back is a token (`Literal.cases_of_readNumber`).
-/

namespace Reckoner

open Text Cursor

/-- A mark that no exponent follows, the blanks behind it, and a point if one stands there. -/
structure Stray where
  mark : Char
  gap : List Char
  point : Bool
  isMark : isMark mark = true
  blanks : Blanks gap

namespace Stray

/-- What the mantissa keeps. -/
def kept (s : Stray) : List Char :=
  if s.point then ['.'] else []

def chars (s : Stray) : List Char :=
  s.mark :: (s.gap ++ s.kept)

end Stray

/-- An exponent with blanks in front of its power. -/
structure Remote extends Exponent where
  gap : List Char
  blanks : Blanks gap

def Remote.chars (e : Remote) : List Char :=
  e.mark :: (e.gap ++ e.power.chars)

/-- What is held of a mantissa after stray marks. -/
def gather : List Char → List Stray → List Char
  | taken, [] => taken
  | taken, s :: ss => gather (withUnit taken ++ s.kept) ss

/-- A digit or a sign, then digits and points, one point at most. -/
def isHeld (cs : List Char) : Bool :=
  cs.head?.any announcesNumber && cs.tail.all inNumeral && cs.count '.' ≤ 1

/-- What the number rule takes. -/
structure Token where
  front : List Char
  strays : List Stray
  exponent : Option Remote
  held : isHeld (gather front strays) = true

namespace Token

/-- What follows the front. -/
def tail (t : Token) : List Char :=
  t.strays.flatMap Stray.chars ++ t.exponent.elim [] Remote.chars

def chars (t : Token) : List Char :=
  t.front ++ t.tail

/-- The mantissa as it is read in the end. -/
def mantissa (t : Token) : List Char :=
  t.exponent.elim (gather t.front t.strays) fun _ => withUnit (gather t.front t.strays)

/-- No mark is without an exponent right behind it. -/
def Sound (t : Token) : Prop :=
  t.strays = [] ∧ ∀ e ∈ t.exponent, e.gap = []

end Token

section Held

variable {cs : List Char}

theorem isHeld_iff : isHeld cs = true ↔ ∃ x xs, cs = x :: xs ∧ announcesNumber x = true ∧
    xs.all inNumeral = true ∧ cs.count '.' ≤ 1 := by
  cases cs with
  | nil => simp [isHeld]
  | cons x xs => simp [isHeld, and_assoc]

theorem ne_nil_of_isHeld (h : isHeld cs = true) : cs ≠ [] := by
  rintro rfl
  cases h

/-- What is held is a numeral once there is a digit in it. -/
theorem isNumeral_of_isHeld (h : isHeld cs = true) (hd : cs.any Char.isDigit = true) :
    isNumeral cs = true := by
  obtain ⟨x, xs, rfl, hx, hxs, hp⟩ := isHeld_iff.1 h
  have hx' := startsNumeral_of_announcesNumber hx
  have htake : xs.takeWhile inNumeral = xs := List.takeWhile_eq_self_iff.2 (List.all_eq_true.1 hxs)
  have hfront : numeralFront (x :: xs) = x :: xs := by rw [numeralFront, if_pos hx', htake]
  rw [← hfront] at hp hd ⊢
  exact isNumeral_numeralFront hp hd

theorem isSign_of_isHeld (h : isHeld cs = true) (hd : cs.any Char.isDigit = false) :
    ∃ x xs, cs = x :: xs ∧ isSign x = true := by
  obtain ⟨x, xs, rfl, hx, -⟩ := isHeld_iff.1 h
  rw [List.any_cons, Bool.or_eq_false_iff] at hd
  rw [announcesNumber, hd.1, Bool.false_or] at hx
  exact ⟨x, xs, rfl, hx⟩

theorem isHeld_withUnit (h : isHeld cs = true) : isHeld (withUnit cs) = true := by
  rw [withUnit]
  split
  · rename_i hs
    simp only [Bool.or_eq_true, decide_eq_true_eq] at hs
    rcases hs with rfl | rfl <;> rfl
  · exact h

theorem isHeld_append_point (h : isHeld cs = true) (hp : cs.contains '.' = false) :
    isHeld (cs ++ ['.']) = true := by
  obtain ⟨x, xs, rfl, hx, hxs, -⟩ := isHeld_iff.1 h
  have hcount : (x :: xs).count '.' = 0 := List.count_eq_zero.2 (by simpa using hp)
  refine isHeld_iff.2 ⟨x, xs ++ ['.'], rfl, hx, ?_, ?_⟩
  · rw [List.all_append, hxs]
    rfl
  · rw [List.count_append, hcount]
    decide

end Held

/-- A token that gives a number. -/
structure Found extends Token where
  hasDigit : toToken.mantissa.any Char.isDigit = true

/-- A token that gives none: a mantissa without a digit, and an exponent. -/
structure Lost extends Token where
  hasNoDigit : toToken.mantissa.any Char.isDigit = false
  raised : toToken.exponent.isSome = true

theorem Token.isHeld_mantissa (t : Token) : isHeld t.mantissa = true := by
  rw [mantissa]
  cases t.exponent with
  | none => exact t.held
  | some _ => exact isHeld_withUnit t.held

namespace Found

def numeral (t : Found) : Numeral :=
  ⟨t.mantissa, isNumeral_of_isHeld t.isHeld_mantissa t.hasDigit⟩

/-- The number that is given. -/
def value (t : Found) : Float :=
  t.exponent.elim t.numeral.value fun e => t.numeral.value * Float.pow 10 e.power.value

theorem numeral_eq {t : Found} {n : Numeral} (h : t.mantissa = n.chars) : t.numeral = n :=
  Numeral.ext h

/-- The numeral that a sign alone stands for. -/
def unit (s : Char) (h : isSign s = true) : Numeral :=
  ⟨[s, '1'], by
    simp only [isSign, Bool.or_eq_true, decide_eq_true_eq] at h
    rcases h with rfl | rfl <;> rfl⟩

/-- A sound token is a number of a document, or a sign that stands for a unit and an exponent. -/
theorem cases_of_sound (t : Found) (h : t.Sound) :
    (∃ n : Scientific, t.chars = n.chars ∧ t.value = n.value) ∨
      ∃ s, ∃ hs : isSign s = true, ∃ e : Exponent, t.chars = s :: e.mark :: e.power.chars ∧
        t.value = (unit s hs).value * Float.pow 10 e.power.value := by
  obtain ⟨⟨front, strays, exponent, held⟩, hasDigit⟩ := t
  obtain ⟨rfl, hgap⟩ : strays = [] ∧ ∀ e ∈ exponent, e.gap = [] := h
  have held : isHeld front = true := held
  obtain ⟨x, xs, hfront, hx, -⟩ := isHeld_iff.1 held
  have hhead : front.head?.any announcesNumber = true := by rw [hfront]; exact hx
  cases exponent with
  | none =>
    let n : Scientific := ⟨⟨front, isNumeral_of_isHeld held hasDigit⟩, hhead, none⟩
    exact .inl ⟨n, by simp [Token.chars, Token.tail, Scientific.chars, n], rfl⟩
  | some e =>
    obtain ⟨e, gap, hg⟩ := e
    obtain rfl : gap = [] := hgap _ rfl
    by_cases hunit : front = ['+'] ∨ front = ['-']
    · obtain ⟨s, hs, rfl⟩ : ∃ s, isSign s = true ∧ front = [s] := by
        rcases hunit with rfl | rfl <;> exact ⟨_, rfl, rfl⟩
      refine .inr ⟨s, hs, e, by simp [Token.chars, Token.tail, Remote.chars], ?_⟩
      rw [value, numeral_eq (n := unit s hs) (by rcases hunit with h | h <;> cases h <;> rfl)]
      rfl
    · have hunit : withUnit front = front := by
        rw [withUnit, if_neg]
        simpa using hunit
      have hasDigit : (withUnit front).any Char.isDigit = true := hasDigit
      rw [hunit] at hasDigit
      let m : Numeral := ⟨front, isNumeral_of_isHeld held hasDigit⟩
      refine .inl ⟨⟨m, hhead, some e⟩, ?_, ?_⟩
      · simp [Token.chars, Token.tail, Scientific.chars, Remote.chars, m]
      · rw [value, numeral_eq (n := m) (by simp only [Token.mantissa, gather, Option.elim_some, hunit, m])]
        rfl

end Found

namespace Scientific

/-- A number of a document as the rule takes it. -/
def found (n : Scientific) : Found where
  front := n.mantissa.chars
  strays := []
  exponent := n.exponent.map fun e => ⟨e, [], blanks_nil⟩
  held := by
    have ha := n.announced
    obtain ⟨x, xs, hm, -, hxs⟩ := n.mantissa.chars_eq_cons
    have hp := n.mantissa.count_point_le
    rw [hm] at ha hp
    rw [gather, hm]
    exact isHeld_iff.2 ⟨x, xs, rfl, by simpa using ha, hxs, hp⟩
  hasDigit := by
    have hd := n.mantissa.any_isDigit
    rw [Token.mantissa]
    cases n.exponent with
    | none => exact hd
    | some e =>
      rw [Option.map_some, Option.elim_some, gather, n.mantissa.withUnit_chars, hd]

theorem chars_found (n : Scientific) : n.found.chars = n.chars := by
  obtain ⟨m, ha, _ | e⟩ := n <;> simp [found, Token.chars, Token.tail, Scientific.chars, Remote.chars]

theorem numeral_found (n : Scientific) : n.found.numeral = n.mantissa := by
  refine Found.numeral_eq ?_
  obtain ⟨m, ha, _ | e⟩ := n
  · rfl
  · exact m.withUnit_chars

theorem value_found (n : Scientific) : n.found.value = n.value := by
  rw [Found.value, numeral_found]
  obtain ⟨m, ha, _ | e⟩ := n <;> rfl

theorem sound_found (n : Scientific) : n.found.Sound := by
  refine ⟨rfl, fun e he => ?_⟩
  obtain ⟨e', -, rfl⟩ := Option.map_eq_some_iff.1 he
  rfl

end Scientific

/-- The number that the rule gives for the token. -/
inductive Token.Gives (t : Token) : Option Float → Prop
  | found (h : t.mantissa.any Char.isDigit = true) : Gives t (some (Found.value ⟨t, h⟩))
  | lost : t.mantissa.any Char.isDigit = false → t.exponent.isSome = true → Gives t none

theorem Token.Gives.eq_read {t : Token} {r : Option Float} (h : t.Gives r) :
    r = (Decimal.readPlain? t.mantissa).map fun m =>
      t.exponent.elim m.toFloat fun e => m.toFloat * Float.pow 10 e.power.value := by
  cases h with
  | found hd =>
    obtain ⟨m, hm, hv⟩ := Option.map_eq_some_iff.1 (Found.numeral ⟨t, hd⟩).readPlain?_chars
    have hm : Decimal.readPlain? t.mantissa = some m := hm
    rw [hm, Option.map_some, Found.value, ← hv]
  | lost hd => rw [Decimal.readPlain?_eq_none hd, Option.map_none]

/-- A stray mark in front of a token changes what it gives no more than what it leaves in hand. -/
theorem Token.Gives.stray_iff {taken : List Char} {s : Stray} {strays : List Stray}
    {e : Option Remote} (held : isHeld (gather (withUnit taken ++ s.kept) strays) = true)
    {r : Option Float} : Token.Gives ⟨taken, s :: strays, e, held⟩ r ↔
      Token.Gives ⟨withUnit taken ++ s.kept, strays, e, held⟩ r := by
  constructor
  · rintro (hd | ⟨hd, he⟩)
    · exact @found ⟨withUnit taken ++ s.kept, strays, e, held⟩ hd
    · exact .lost hd he
  · rintro (hd | ⟨hd, he⟩)
    · exact @found ⟨taken, s :: strays, e, held⟩ hd
    · exact .lost hd he

namespace Cursor

variable {c d : Cursor} {taken : List Char}

/-- What comes next is a sign, with which no document goes on. -/
def Stuck (c : Cursor) : Prop :=
  ∃ x, c.peek = some x ∧ isSign x = true

theorem stuck_inject (hq : ∀ x ∈ c.queue.head?, isSign x = true) {x : Char} {xs : List Char}
    (hx : isSign x = true) : (c.inject (x :: xs)).Stuck := by
  rw [Stuck, peek, inject]
  cases hc : c.queue with
  | nil => exact ⟨x, rfl, hx⟩
  | cons y ys => exact ⟨y, rfl, hq y (by rw [hc]; rfl)⟩

end Cursor

namespace Literal

variable {c d : Cursor} {r : Option Float} {taken cs : List Char}

/-- Where the rule ends without an exponent it gives a number, or hands back what begins with a
sign. -/
theorem cases_of_settle (ht : isHeld taken = true) (hq : ∀ x ∈ c.queue.head?, isSign x = true)
    (h : settle taken c = (.ok r, d)) :
    (∃ hd : taken.any Char.isDigit = true,
      r = some (Numeral.value ⟨taken, isNumeral_of_isHeld ht hd⟩) ∧ d = c) ∨ d.Stuck := by
  by_cases hd : taken.any Char.isDigit = true
  · rw [settle, if_pos hd, Numeral.readPlain?_chars ⟨taken, isNumeral_of_isHeld ht hd⟩] at h
    cases h
    exact .inl ⟨hd, rfl, rfl⟩
  · obtain ⟨x, xs, rfl, hx⟩ := isSign_of_isHeld ht (by simpa using hd)
    rw [settle, if_neg hd] at h
    cases h
    exact .inr (stuck_inject hq hx)

/-- The rule goes on with all digits and points that follow, which have no second point. -/
theorem exists_of_scanScientific (ht : taken ≠ []) (hp : taken.count '.' ≤ 1)
    (h : scanScientific taken (ofList cs) = (.ok r, d)) :
    (taken ++ cs.takeWhile inNumeral).count '.' ≤ 1 ∧
      scanScientific (taken ++ cs.takeWhile inNumeral) (ofList (cs.dropWhile inNumeral))
        = (.ok r, d) := by
  induction cs generalizing taken with
  | nil => simpa using ⟨hp, h⟩
  | cons x cs ih =>
    by_cases hx : inNumeral x = true
    · rw [List.takeWhile_cons_of_pos hx, List.dropWhile_cons_of_pos hx]
      rw [scanScientific_ofList_cons] at h
      split at h
      · rename_i hc
        rw [continues_of_ne_nil ht] at hc
        have hp' : (taken ++ [x]).count '.' ≤ 1 := by
          rw [List.count_append, List.count_singleton]
          by_cases hdot : x = '.'
          · subst hdot
            have h0 : taken.count '.' = 0 := List.count_eq_zero.2 (by simpa using hc)
            rw [h0]
            decide
          · simpa [hdot] using hp
        simpa using ih (by simp) hp' h
      · rename_i hc
        have hdot : x = '.' := by
          rw [continues_of_ne_nil ht, Bool.or_eq_true, not_or] at hc
          simpa [inNumeral, hc.1] using hx
        rw [if_pos hdot] at h
        cases (Prod.mk.inj h).1
    · rw [List.takeWhile_cons_of_neg hx, List.dropWhile_cons_of_neg hx, List.append_nil]
      exact ⟨hp, h⟩

/-- With `taken` in hand over `cs` the rule gives `r`: it has taken the rest of a token, unless what it
hands back stops whatever comes next. -/
def Takes (taken cs : List Char) (r : Option Float) (d : Cursor) : Prop :=
  d.Stuck ∨ ∃ t : Token, ∃ post, t.front = taken ∧ cs = t.tail ++ post ∧ d = ofList post ∧ t.Gives r

theorem takes_of_settle (ht : isHeld taken = true) (h : settle taken (ofList cs) = (.ok r, d)) :
    Takes taken cs r d := by
  rcases cases_of_settle ht (by simp [queue_ofList]) h with ⟨hd, rfl, rfl⟩ | hstuck
  · let t : Token := ⟨taken, [], none, ht⟩
    exact .inr ⟨t, cs, rfl, rfl, rfl, @Token.Gives.found t hd⟩
  · exact .inl hstuck

theorem takes_exponent (ht : isHeld taken = true) (e : Remote) (post : List Char) :
    Takes taken (e.chars ++ post)
      ((Decimal.readPlain? (withUnit taken)).map fun m => m.toFloat * Float.pow 10 e.power.value)
      (ofList post) := by
  let t : Token := ⟨taken, [], some e, ht⟩
  refine .inr ⟨t, post, rfl, rfl, rfl, ?_⟩
  by_cases hd : t.mantissa.any Char.isDigit = true
  · have := Token.Gives.found hd
    exact this.eq_read ▸ this
  · have := Token.Gives.lost (t := t) (by simpa using hd) rfl
    exact this.eq_read ▸ this

/-- A stray mark goes before whatever the rule takes next. -/
theorem Takes.of_stray {held : List Char} (h : Takes held cs r d) (stray : Stray)
    (hheld : held = withUnit taken ++ stray.kept) : Takes taken (stray.chars ++ cs) r d := by
  subst hheld
  rcases h with hstuck | ⟨⟨front, strays, exponent, held⟩, post, hfront, rfl, rfl, hr⟩
  · exact .inl hstuck
  · obtain rfl : front = withUnit taken ++ stray.kept := hfront
    let t : Token := ⟨taken, stray :: strays, exponent, held⟩
    exact .inr ⟨t, post, rfl, by simp [t, Token.tail], rfl, (Token.Gives.stray_iff held).2 hr⟩

theorem continues_of_isSign (ht : taken ≠ []) {x : Char} (hx : isSign x = true) :
    continues taken x = false ∧ x ≠ '.' ∧ isMark x = false := by
  rw [continues_of_ne_nil ht]
  simp only [isSign, Bool.or_eq_true, decide_eq_true_eq] at hx
  rcases hx with rfl | rfl <;> exact ⟨rfl, by decide, rfl⟩

/-- Over a stub that was handed back the rule stops, unless the stub is a point, which it takes. -/
theorem cases_of_scanScientific_stub {stub rest : List Char} (hs : isStub stub = true)
    (ht : isHeld taken = true)
    (h : scanScientific taken ((ofList rest).inject stub) = (.ok r, d)) :
    d.Stuck ∨ stub = ['.'] ∧ taken.contains '.' = false ∧
      scanScientific (taken ++ ['.']) (ofList rest) = (.ok r, d) := by
  have hne := ne_nil_of_isHeld ht
  obtain ⟨x, xs, rfl, hx, -⟩ := eq_cons_of_isStub hs
  rw [scanScientific, peek_inject] at h
  simp only [pop_inject] at h
  by_cases hsign : isSign x = true
  · obtain ⟨hcont, hdot, hmark⟩ := continues_of_isSign hne hsign
    have hmark' : (x = 'e' || x = 'E') = false := hmark
    rw [hcont, if_neg (by simp), if_neg hdot, hmark', if_neg (by simp)] at h
    have hqueue : ∀ y ∈ ((ofList rest).inject (x :: xs)).queue.head?, isSign y = true := by
      simpa [queue_inject] using hsign
    rcases cases_of_settle ht hqueue h with ⟨-, -, rfl⟩ | hstuck
    · exact .inl ⟨x, peek_inject .., hsign⟩
    · exact .inl hstuck
  · have hstub : x = '.' ∧ xs = [] := by
      rcases eq_of_isStub hs with h | h | h | h | h <;> cases h <;>
        first | exact ⟨rfl, rfl⟩ | exact absurd rfl hsign
    obtain ⟨rfl, rfl⟩ := hstub
    rw [continues_of_ne_nil hne, inject_nil] at h
    by_cases hc : taken.contains '.' = true
    · rw [hc, if_neg (by decide), if_pos rfl] at h
      cases (Prod.mk.inj h).1
    · have hc' : taken.contains '.' = false := by simpa using hc
      rw [hc', if_pos (by decide)] at h
      exact .inr ⟨rfl, hc', h⟩

/-- Past the front, the rule takes the rest of a token. -/
theorem takes_of_scanScientific {taken cs : List Char} (ht : isHeld taken = true)
    (hcs : ∀ x ∈ cs.head?, inNumeral x = false) (h : scanScientific taken (ofList cs) = (.ok r, d)) :
    Takes taken cs r d := by
  have hne := ne_nil_of_isHeld ht
  have ht' := isHeld_withUnit ht
  match cs with
  | [] =>
    rw [scanScientific_stop hne (by simp)] at h
    exact takes_of_settle ht h
  | x :: cs =>
    have hgap := List.takeWhile_append_dropWhile (p := isBlank) (l := cs)
    by_cases hmark : isMark x = true
    · rw [scanScientific_mark hne hmark] at h
      match hafter : readPlain (ofList cs), h with
      | (.ok (some power), after), h =>
        obtain ⟨gap, n, post, rfl, hg, rfl, rfl⟩ := exists_numeral_of_readPlain hafter
        cases h
        simpa [Remote.chars] using takes_exponent ht ⟨⟨x, hmark, n⟩, gap, hg⟩ post
      | (.ok none, after), h =>
        rcases cases_of_readPlain_none hafter with
          ⟨rfl, hrest⟩ | ⟨stub, rest, hrest, hs, hnumeral, rfl⟩
        · have hlt : (cs.dropWhile isBlank).length ≤ cs.length := List.length_dropWhile_le ..
          have hnumeral : ∀ y ∈ (cs.dropWhile isBlank).head?, inNumeral y = false :=
            fun y hy => (Bool.or_eq_false_iff.1 (hrest y hy)).2
          rw [← List.append_nil (withUnit taken)] at h ht'
          have := (takes_of_scanScientific ht' hnumeral h).of_stray
            ⟨x, _, false, hmark, blanks_takeWhile cs⟩ rfl
          simpa [Stray.chars, Stray.kept, hgap] using this
        · rcases cases_of_scanScientific_stub hs ht' h with hstuck | ⟨rfl, hp, h⟩
          · exact .inl hstuck
          · rw [hrest, List.singleton_append] at hgap
            have hlt : rest.length < cs.length := by
              rw [← hgap, List.length_append, List.length_cons]
              omega
            have := (takes_of_scanScientific (isHeld_append_point ht' hp) hnumeral h).of_stray
              ⟨x, _, true, hmark, blanks_takeWhile cs⟩ rfl
            simpa [Stray.chars, Stray.kept, hgap] using this
    · have hstop : goesOn x = false := by
        rw [goesOn, hcs x rfl, Bool.false_or]
        simpa using hmark
      rw [scanScientific_stop hne (by simpa using hstop)] at h
      exact takes_of_settle ht h
termination_by cs.length

/-- Where a number is announced, what the rule takes is a token, unless what it hands back stops
whatever comes next. -/
theorem cases_of_readNumber {x : Char} (hc : c.skipBlanks = ofList (x :: cs))
    (hx : announcesNumber x = true) (h : readNumber true c = (.ok r, d)) :
    d.Stuck ∨ ∃ t : Token, ∃ post, x :: cs = t.chars ++ post ∧ d = ofList post ∧ t.Gives r := by
  have hfirst := startsNumeral_of_announcesNumber hx
  rw [readNumber, if_pos rfl, hc, scanScientific_ofList_cons, continues_nil, if_pos hfirst] at h
  obtain ⟨hp, h⟩ := exists_of_scanScientific (by simp) List.count_le_length h
  have hall : (cs.takeWhile inNumeral).all inNumeral = true :=
    List.all_eq_true.2 fun _ hy => List.mem_takeWhile_imp hy
  rcases takes_of_scanScientific (isHeld_iff.2 ⟨x, _, rfl, hx, hall, hp⟩) of_mem_head?_dropWhile h with
    hstuck | ⟨t, post, hfront, htail, rfl, hr⟩
  · exact .inl hstuck
  · refine .inr ⟨t, post, ?_, rfl, hr⟩
    rw [Token.chars, hfront, List.append_assoc, ← htail]
    simp

end Literal

end Reckoner
