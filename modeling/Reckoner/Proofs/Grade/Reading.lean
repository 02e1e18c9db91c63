import Mathlib.Data.List.Chain
import Reckoner.Proofs.Grade.Fusion
import Reckoner.Proofs.Literal.Stub

/-!
# Reading formulas

From the lexemes of a derivation the reader builds the term of the derivation, or meets the error
that building it meets, as long as no plus that joins two terms is fused with the number behind it
(`Formula.parse_of_not_misread`): such a plus is taken for the front of a number wherever one may
stand, and is handed back only where no number goes on with it. Nothing is fused where no sign stands
directly in front of a digit or a point (`Unsigned`).
-/

namespace Reckoner

open Text Cursor Grammar

/-- No sign stands directly in front of a digit or a point. -/
def Unsigned (cs : List Char) : Prop :=
  cs.IsChain fun x y => isSign x = true → inNumeral y = false

instance (cs : List Char) : Decidable (Unsigned cs) :=
  inferInstanceAs (Decidable (cs.IsChain fun x y => isSign x = true → inNumeral y = false))

theorem Unsigned.suffix {cs post : List Char} (h : Unsigned cs) (hs : post <:+ cs) : Unsigned post :=
  List.IsChain.suffix h hs

/-- Lexemes in which a plus is fused with a number have a sign in front of a digit or a point. -/
theorem Unsigned.not_passed {cs post : List Char} {d : Term.Derivation} {ls : List (List Char)}
    (h : Unsigned cs) (hd : d.Fuses ls) : ¬ Passed ls cs post := by
  rintro ⟨pre, rfl, hs⟩
  obtain ⟨x, l, hl, hx⟩ := d.exists_of_fuses hd
  obtain ⟨a, b, rfl⟩ := hs.infix hl
  have hchain : Unsigned ('+' :: x :: (l ++ (b ++ post))) := h.suffix ⟨a, by simp⟩
  rw [(List.isChain_cons_cons.1 hchain).1 rfl] at hx
  cases hx

namespace Cursor

variable {c : Cursor} {cs : List Char} {x : Char}

/-- Past blanks, the cursor shows the next character of `cs`, and is over a list past that. -/
def Shows (c : Cursor) (cs : List Char) : Prop :=
  c.skipBlanks.peek = (cs.dropWhile isBlank).head? ∧
    c.skipBlanks.pop.2 = ofList (cs.dropWhile isBlank).tail

theorem Faces.shows (h : c.Faces cs) : c.Shows cs := by
  rw [Shows, h, peek_ofList, pop_ofList]
  exact ⟨rfl, rfl⟩

theorem Shows.skipBlanks (h : c.Shows cs) : c.skipBlanks.Shows cs := by
  rwa [Shows, skipBlanks_skipBlanks]

theorem Shows.of_dropWhile (h : c.Shows (cs.dropWhile isBlank)) : c.Shows cs := by
  rwa [Shows, dropWhile_isBlank_idem] at h

theorem Shows.of_append {gap : List Char} (h : c.Shows (gap ++ cs)) (hg : Blanks gap) : c.Shows cs := by
  rwa [Shows, hg.dropWhile_append] at h

theorem Shows.isNext_true {gap : List Char} (h : c.Shows (gap ++ x :: cs)) (hg : Blanks gap)
    (hx : isBlank x = false) : c.isNext x = (true, ofList cs) := by
  rw [Shows, hg.dropWhile_append, dropWhile_isBlank_cons hx] at h
  rw [isNext, h.1, if_pos (by simp), h.2, List.tail_cons]

theorem Shows.isNext_false (h : c.Shows cs) (hb : Before (· ≠ x) cs) :
    c.isNext x = (false, c.skipBlanks) := by
  rw [isNext, h.1, if_neg]
  intro hx
  simpa using hb x hx

/-- A sign that was handed back shows as if it had never been taken. -/
theorem shows_stub (hx : isSign x = true) (rest : List Char) :
    ((ofList rest).inject [x]).Shows (x :: rest) := by
  have hs : isStub [x] = true := by
    simp only [isSign, Bool.or_eq_true, decide_eq_true_eq] at hx
    rcases hx with rfl | rfl <;> rfl
  obtain ⟨_, _, hcons, -, hb, -⟩ := eq_cons_of_isStub hs
  obtain ⟨rfl, rfl⟩ := List.cons.inj hcons
  rw [Shows, skipBlanks_stub hs, peek_inject, pop_inject, inject_nil, dropWhile_isBlank_cons hb]
  exact ⟨rfl, rfl⟩

end Cursor

namespace Term

variable {c : Cursor} {cs post : List Char}

/-- Whether a term can start with the character behind the numbers that multiply it. -/
def opensTerm (x : Char) : Bool :=
  x = '(' || isNameStart x

/-- Whether a term can go on with the character where a number may stand. -/
def startsBody (x : Char) : Bool :=
  x = '*' || opensTerm x

/-- Whether a term can end in front of the character. -/
def endsTerm (x : Char) : Bool :=
  x = '+' || x = ')'

/-- Whether the number behind a parenthesis or a slash can end in front of the character. -/
def endsFactor (x : Char) : Bool :=
  x = '/' || endsTerm x

theorem startsNumeral_of_startsBody {x : Char} (h : startsBody x = true) :
    (isSign x || inNumeral x) = false := by
  simp only [startsBody, opensTerm, Bool.or_eq_true, decide_eq_true_eq] at h
  rcases h with rfl | rfl | h
  · rfl
  · rfl
  · exact startsNumeral_of_isNameStart h

theorem isBlank_of_opensTerm {x : Char} (h : opensTerm x = true) : isBlank x = false := by
  simp only [opensTerm, Bool.or_eq_true, decide_eq_true_eq] at h
  rcases h with rfl | h
  · rfl
  · exact isBlank_of_isNameStart h

theorem inNumeral_of_endsFactor {x : Char} (h : endsFactor x = true) : inNumeral x = false := by
  simp only [endsFactor, endsTerm, Bool.or_eq_true, decide_eq_true_eq] at h
  rcases h with rfl | rfl | rfl <;> rfl

/-- The lexemes begin with the numbers in front of a term and with what can stand behind these. -/
def Opens (ls : List (List Char)) : Prop :=
  ∃ before : Multipliers, ∃ x l ms, ls = before.lexemes ++ (x :: l) :: ms ∧ opensTerm x = true

theorem Opens.append {ls : List (List Char)} (h : Opens ls) (ms : List (List Char)) :
    Opens (ls ++ ms) := by
  obtain ⟨before, x, l, ks, rfl, hx⟩ := h
  exact ⟨before, x, l, ks ++ ms, by simp, hx⟩

theorem Derivation.opens_lexemes (d : Derivation) : Opens d.lexemes := by
  cases d with
  | grade before name divisor =>
    obtain ⟨x, xs, hname, hx, -⟩ := name.chars_eq_cons
    exact ⟨before, x, xs, divisor.lexemes, by rw [lexemes, hname], by rw [opensTerm, hx, Bool.or_true]⟩
  | group before members after divisor => exact ⟨before, '(', [], _, rfl, rfl⟩

theorem Row.opens_lexemes (ts : Row) : Opens ts.lexemes := by
  cases ts with
  | last t => exact t.opens_lexemes
  | cons t rest => exact t.opens_lexemes.append _

/-- The first lexeme is not empty and does not begin with a blank. -/
theorem Opens.exists_cons {ls : List (List Char)} (h : Opens ls) :
    ∃ x l ms, ls = (x :: l) :: ms ∧ isBlank x = false := by
  obtain ⟨⟨first, starred⟩, x, l, ms, rfl, hx⟩ := h
  cases first with
  | some n =>
    obtain ⟨y, ys, hn, hy, -⟩ := n.chars_eq_cons
    exact ⟨y, ys, _, by simp [Multipliers.lexemes, hn]; rfl, isBlank_of_startsNumeral hy⟩
  | none =>
    cases starred with
    | nil => exact ⟨x, l, ms, rfl, isBlank_of_opensTerm hx⟩
    | cons n starred => exact ⟨'*', [], _, rfl, rfl⟩

/-- A plus that comes next has neither a digit nor a point behind it. -/
def Apart (cs : List Char) : Prop :=
  ∀ rest, cs.dropWhile isBlank = '+' :: rest → ∀ x ∈ rest.head?, inNumeral x = false

theorem Apart.blanks_append {gap cs : List Char} (h : Apart cs) (hg : Blanks gap) :
    Apart (gap ++ cs) := by
  rwa [Apart, hg.dropWhile_append]

theorem apart_of_before {p : Char → Bool} {cs : List Char} (h : Before p cs) (hp : p '+' = false) :
    Apart cs := by
  intro rest hrest
  have hplus : p '+' = true := h '+' (by rw [hrest]; rfl)
  rw [hp] at hplus
  cases hplus

theorem gives_readFactor {k : Option Float} {d : Cursor} {P : Cursor → Prop}
    (h : Literal.readPlain c = (.ok k, d)) (hd : P d) : (readFactor c).Gives (.ok k) P := by
  refine Step.gives_of_pair (d := d) ?_ hd
  have hpair : (readFactor c).pair = ((Literal.readPlain c).1.mapError .malformed, (Literal.readPlain c).2) := rfl
  rw [hpair, h]
  rfl

/-- A numeral is read in front of what cannot go on with it. -/
theorem gives_readFactor_numeral (n : Numeral) (hc : c.Faces cs)
    (hp : Passed [n.chars] cs post) (hb : Before (fun x => !inNumeral x) post) :
    (readFactor c).Gives (.ok (some n.value)) (·.Faces post) := by
  obtain ⟨gap, rest, rfl, hg, hrest⟩ := hp.of_cons
  obtain ⟨gap', rfl, hg'⟩ := hrest.of_nil
  have hsk : c.skipBlanks = ofList (n.chars ++ (gap' ++ post)) := by
    have := n.skipBlanks_ofList_chars (gap' ++ post)
    rw [skipBlanks_ofList] at this
    rw [hc, hg.dropWhile_append, this]
  have hhead := (hb.blanks_append hg').head_of_imp (fun x => inNumeral_of_isBlank) (by simp)
  refine gives_readFactor (Literal.readPlain_numeral n hsk hhead) ?_
  exact (faces_ofList _).of_append hg'

/-- A number or none in front of the rest of a term. -/
theorem gives_readFactor_front (n : Option Numeral) (hc : c.Faces cs)
    (hp : Passed (n.toList.map Numeral.chars) cs post) (hb : Before startsBody post) :
    (readFactor c).Gives (.ok (n.map Numeral.value)) (·.Faces post) := by
  cases n with
  | some n =>
    refine gives_readFactor_numeral n hc hp (hb.mono fun x hx => ?_)
    have := startsNumeral_of_startsBody hx
    simp [(Bool.or_eq_false_iff.1 this).2]
  | none =>
    obtain ⟨gap, rfl, hg⟩ := hp.of_nil
    have hpost := hc.of_append hg
    refine gives_readFactor (Literal.readPlain_none hpost fun x hx => ?_) ?_
    · exact startsNumeral_of_startsBody (hb x hx)
    · rw [← hpost]
      exact hpost.skipBlanks

/-- A plus behind which the lexemes of a term begin is not fused with a number. -/
theorem apart_of_not_passed {ls : List (List Char)} (ho : Opens ls) (hp : Passed (['+'] :: ls) cs post)
    (h : ∀ x l ms, ls = (x :: l) :: ms → inNumeral x = true → ¬ Passed (('+' :: x :: l) :: ms) cs post) :
    Apart cs := by
  obtain ⟨gap, rest, rfl, hg, hp⟩ := hp.of_cons
  intro rest' hrest y hy
  rw [hg.dropWhile_append] at hrest
  obtain rfl : rest = rest' := (List.cons.inj hrest).2
  obtain ⟨cs, rfl⟩ := List.head?_eq_some_iff.1 hy
  obtain ⟨x, l, ms, rfl, -⟩ := ho.exists_cons
  by_contra hx
  have hx : inNumeral y = true := by simpa using hx
  have hblank : isBlank y = false := isBlank_of_startsNumeral (by rw [hx, Bool.or_true])
  obtain ⟨rfl, hp⟩ := hp.grow hblank '+'
  exact h x l ms rfl hx ((passed_nil hg _).append hp)

/-- What stands behind the place of a number adds nothing to the number, nor puts one there. -/
def Rests : Option Numeral → List Char → Prop
  | none, post => Before endsFactor post ∧ Apart post
  | some _, post => Before (fun x => !inNumeral x) post

theorem rests_of_endsTerm {n : Option Numeral} (hb : Before endsTerm post) (ha : n = none → Apart post) :
    Rests n post := by
  have hends : Before endsFactor post := hb.mono fun x hx => by rw [endsFactor, hx, Bool.or_true]
  cases n with
  | none => exact ⟨hends, ha rfl⟩
  | some n => exact hends.mono fun x hx => by simp [inNumeral_of_endsFactor hx]

theorem Rests.blanks_append {n : Option Numeral} {gap : List Char} (h : Rests n post)
    (hg : Blanks gap) : Rests n (gap ++ post) := by
  cases n with
  | none => exact ⟨Before.blanks_append h.1 hg, h.2.blanks_append hg⟩
  | some n => exact Before.blanks_append h hg

/-- A number or none behind a parenthesis or a slash. -/
theorem gives_readFactor_back (n : Option Numeral) (hc : c.Faces cs)
    (hp : Passed (n.toList.map Numeral.chars) cs post) (hb : Rests n post) :
    (readFactor c).Gives (.ok (n.map Numeral.value)) (·.Shows post) := by
  cases n with
  | some n => exact (gives_readFactor_numeral n hc hp hb).mono fun d hd => hd.shows
  | none =>
    obtain ⟨gap, rfl, hg⟩ := hp.of_nil
    have hpost := hc.of_append hg
    by_cases hplus : (post.dropWhile isBlank).head? = some '+'
    · obtain ⟨rest, hrest⟩ := List.head?_eq_some_iff.1 hplus
      have hsk : c.skipBlanks = ofList ('+' :: rest) := hrest ▸ hpost
      refine gives_readFactor (Literal.readPlain_sign hsk rfl (hb.2 rest hrest))
        (Shows.of_dropWhile ?_)
      rw [hrest]
      exact shows_stub rfl rest
    · refine gives_readFactor (Literal.readPlain_none hpost fun x hx => ?_) ?_
      · have hx' := hb.1 x hx
        simp only [endsFactor, endsTerm, Bool.or_eq_true, decide_eq_true_eq] at hx'
        rcases hx' with rfl | rfl | rfl
        · rfl
        · exact absurd hx hplus
        · rfl
      · rw [← hpost]
        exact hpost.skipBlanks.shows

theorem before_starred {starred : List (Option Numeral)}
    (hp : Passed (starred.flatMap (marked '*')) cs post) (hb : Before opensTerm post) :
    Before startsBody cs := by
  cases starred with
  | nil =>
    obtain ⟨gap, rfl, hg⟩ := hp.of_nil
    exact (hb.mono fun x hx => by rw [startsBody, hx, Bool.or_true]).blanks_append hg
  | cons n starred => exact hp.before rfl rfl

theorem gives_readMultipliers {post : List Char} (hb : Before opensTerm post) :
    {acc : Option Float} → {c : Cursor} → {cs : List Char} → (starred : List (Option Numeral)) →
    c.Faces cs → Passed (starred.flatMap (marked '*')) cs post → (readMultipliers acc c).Gives
      (.ok (carriedFrom acc (starred.flatMap Option.toList))) (·.Faces post)
  | acc, c, cs, [], hc, hp => by
    obtain ⟨gap, rfl, hg⟩ := hp.of_nil
    have hpost := hc.of_append hg
    rw [readMultipliers]
    exact Step.gives_onNext_false (hpost.shows.isNext_false (hb.ne rfl)) fun _ =>
      Step.gives_done _ hpost.skipBlanks
  | acc, c, cs, n :: starred, hc, hp => by
    rw [List.flatMap_cons] at hp
    obtain ⟨gap, rest, rfl, hg, hp⟩ := hp.of_cons
    obtain ⟨rest₁, hn, hp⟩ := hp.of_append
    rw [readMultipliers]
    refine Step.gives_onNext_true (hc.shows.isNext_true hg rfl) fun _ => ?_
    have hfactor := gives_readFactor_front n (faces_ofList rest) hn (before_starred hp hb)
    refine hfactor.andThen_ok fun c₂ _ hc₂ => ?_
    rw [List.flatMap_cons, carriedFrom_append, carriedFrom_toList]
    exact gives_readMultipliers hb starred hc₂ hp

/-- What stands behind a divisor or none leaves it as it is. -/
def Divisor.Stops : Divisor → List Char → Prop
  | none, post => Before (· ≠ '/') post
  | some n, post => Rests n post

/-- What stands behind a term leaves it as it is. -/
def Derivation.Stops : Derivation → List Char → Prop
  | .grade _ _ divisor, post => divisor.Stops post ∧ (divisor = none → Before endsTerm post)
  | .group _ _ after divisor, post => divisor.Stops post ∧ (divisor = none → Rests after post)

theorem Divisor.stops_of_endsTerm {divisor : Divisor} (hb : Before endsTerm post)
    (ha : divisor = some none → Apart post) : divisor.Stops post := by
  cases divisor with
  | none => exact hb.ne rfl
  | some n => exact rests_of_endsTerm hb fun hn => ha (congrArg some hn)

theorem Derivation.stops_of_endsTerm {d : Derivation} (hb : Before endsTerm post)
    (ha : d.IsOpen → Apart post) : d.Stops post := by
  cases d with
  | grade before name divisor =>
    refine ⟨Divisor.stops_of_endsTerm hb fun h => ?_, fun _ => hb⟩
    subst h
    exact ha .divided
  | group before members after divisor =>
    refine ⟨Divisor.stops_of_endsTerm hb fun h => ?_, fun h => rests_of_endsTerm hb fun hn => ?_⟩
    · subst h
      exact ha .closedDivided
    · subst h hn
      exact ha .closed

theorem before_divisor {divisor : Divisor} (hp : Passed divisor.lexemes cs post)
    (hb : divisor = none → Before endsTerm post) : Before endsFactor cs := by
  cases divisor with
  | none =>
    obtain ⟨gap, rfl, hg⟩ := hp.of_nil
    exact ((hb rfl).mono fun x hx => by rw [endsFactor, hx, Bool.or_true]).blanks_append hg
  | some n => exact hp.before rfl rfl

theorem rests_divisor {divisor : Divisor} {n : Option Numeral} (hp : Passed divisor.lexemes cs post)
    (hb : divisor = none → Rests n post) : Rests n cs := by
  cases divisor with
  | none =>
    obtain ⟨gap, rfl, hg⟩ := hp.of_nil
    exact (hb rfl).blanks_append hg
  | some k =>
    have hslash : Before (· = '/') cs := hp.before rfl rfl
    cases n with
    | none => exact ⟨hslash.of_eq rfl, apart_of_before hslash rfl⟩
    | some n => exact Before.of_eq hslash rfl

variable {t : Term} {r : Except GradeError Term}

theorem gives_readDivisor (divisor : Divisor) (hc : c.Shows cs)
    (hp : Passed divisor.lexemes cs post) (hb : divisor.Stops post) :
    (readDivisor t c).Gives (divideBy (carried divisor.numbers) t) (·.Shows post) := by
  rw [readDivisor]
  cases divisor with
  | none =>
    obtain ⟨gap, rfl, hg⟩ := hp.of_nil
    refine Step.gives_onNext_false ((hc.of_append hg).isNext_false hb) fun _ => ?_
    exact Step.gives_done t (hc.of_append hg).skipBlanks
  | some n =>
    obtain ⟨gap, rest, rfl, hg, hp⟩ := hp.of_cons
    refine Step.gives_onNext_true (hc.isNext_true hg rfl) fun _ => ?_
    have hfactor := gives_readFactor_back n (faces_ofList rest) hp hb
    refine hfactor.andThen_ok fun c₂ _ hc₂ => ?_
    cases n with
    | none => exact Step.gives_done t hc₂
    | some n => exact Step.gives_of_pair rfl hc₂

theorem gives_finish (divisor : Divisor) (ns : List Numeral) (hc : c.Shows cs)
    (hp : Passed divisor.lexemes cs post) (hb : divisor.Stops post) :
    (finish (carried ns) r c).Gives
      (r.bind (scaleBy (carried ns)) >>= divideBy (carried divisor.numbers)) (·.Shows post) := by
  rw [finish]
  cases r.bind (scaleBy (carried ns)) with
  | error e => exact Step.gives_fail e
  | ok t => exact gives_readDivisor divisor hc hp hb

/-- What comes behind the numbers in front of a term: a group, or a name. -/
def readBody (multiplier : Option Float) (c : Cursor) : Step GradeError Term c :=
  .onNext '(' c (fun c₁ _ => readGroup multiplier c₁) fun c₁ _ =>
    .afterBlanks c₁ fun c₂ _ => (Step.name c₂).andThen fun name c₃ _ =>
      match name with
      | none => .fail .missingVariable c₃
      | some name => finish multiplier (.ok (grade name .one)) c₃

/-- A name, and the divisor behind it. -/
theorem gives_readBody_name (name : Word) (divisor : Divisor) (ns : List Numeral) (hc : c.Faces cs)
    (hp : Passed (name.chars :: divisor.lexemes) cs post) (hb : divisor.Stops post)
    (he : divisor = none → Before endsTerm post) : (readBody (carried ns) c).Gives
      (scaleBy (carried ns) (grade name.text .one) >>= divideBy (carried divisor.numbers))
      (·.Shows post) := by
  obtain ⟨gap, rest, rfl, hg, hp⟩ := hp.of_cons
  obtain ⟨x, xs, hname, hx, -⟩ := name.chars_eq_cons
  have hblank := isBlank_of_isNameStart hx
  have hdrop : (gap ++ (name.chars ++ rest)).dropWhile isBlank = name.chars ++ rest := by
    rw [hg.dropWhile_append, hname, List.cons_append, dropWhile_isBlank_cons hblank]
  have hsk : c.skipBlanks.skipBlanks = ofList (name.chars ++ rest) := by
    rw [skipBlanks_skipBlanks, hc, hdrop]
  have hne : Before (· ≠ '(') (gap ++ (name.chars ++ rest)) := by
    rw [hname]
    exact ((before_cons hblank hx _).ne rfl).blanks_append hg
  rw [readBody]
  refine Step.gives_onNext_false (hc.shows.isNext_false hne) fun _ => ?_
  refine Step.gives_afterBlanks hsk fun _ => ?_
  have hend : ∀ x ∈ rest.head?, isNameRest x = false := by
    refine (before_divisor hp he).head_of_imp (fun _ => isNameRest_of_isBlank) fun x hx => ?_
    simp only [endsFactor, endsTerm, Bool.or_eq_true, decide_eq_true_eq] at hx
    rcases hx with rfl | rfl | rfl <;> rfl
  refine (Step.gives_name (name_word name hend)).andThen_ok ?_
  rintro _ - rfl
  exact gives_finish divisor ns (faces_ofList rest).shows hp hb

/-- The numbers in front of a term are read, and then what comes behind them. -/
theorem exists_pair_readTerm (before : Multipliers) (hc : c.Faces cs)
    (hp : Passed before.lexemes cs post) (hb : Before opensTerm post) :
    ∃ d : Cursor, d.Faces post ∧ (readTerm c).pair = (readBody (carried before.numbers) d).pair := by
  obtain ⟨rest, hfirst, hstarred⟩ := hp.of_append
  obtain ⟨hfactor, hc₁⟩ := gives_readFactor_front before.first hc hfirst (before_starred hstarred hb)
  obtain ⟨hmultipliers, hc₂⟩ := gives_readMultipliers hb before.starred (hc₁ _ rfl) hstarred
  rw [carriedFrom_numbers] at hmultipliers
  refine ⟨_, hc₂ _ rfl, ?_⟩
  rw [readTerm, Step.pair_andThen_of_ok hfactor, Step.pair_andThen_of_ok hmultipliers]
  rfl

mutual

/-- A term is read in front of what leaves it as it is, as the derivation says. -/
theorem Derivation.gives_readTerm : (d : Derivation) → {c : Cursor} → {cs post : List Char} →
    c.Faces cs → (∀ ls, d.Fuses ls → ¬ Passed ls cs post) → Passed d.lexemes cs post → d.Stops post →
    (readTerm c).Gives d.build (·.Shows post)
  | .grade before name divisor, c, cs, post, hc, _, hp, hb => by
    obtain ⟨rest₁, hbefore, hp⟩ := hp.of_append
    have hopens : Before opensTerm rest₁ := by
      obtain ⟨x, xs, hname, hx, -⟩ := name.chars_eq_cons
      rw [hname] at hp
      exact hp.before (isBlank_of_isNameStart hx) (by rw [opensTerm, hx, Bool.or_true])
    obtain ⟨c₁, hc₁, hpair⟩ := exists_pair_readTerm before hc hbefore hopens
    exact (gives_readBody_name name divisor before.numbers hc₁ hp hb.1 hb.2).of_pair_eq hpair
  | .group before members after divisor, c, cs, post, hc, hm, hp, hb => by
    obtain ⟨rest₁, hbefore, hp⟩ := hp.of_append
    have hopens : Before opensTerm rest₁ := hp.before rfl rfl
    obtain ⟨c₁, hc₁, hpair⟩ := exists_pair_readTerm before hc hbefore hopens
    obtain ⟨gap, rest₂, rfl, hg, hp⟩ := hp.of_cons
    refine Step.Gives.of_pair_eq ?_ hpair
    rw [readBody]
    refine Step.gives_onNext_true (hc₁.shows.isNext_true hg rfl) fun _ => ?_
    obtain ⟨rest₃, hmembers, hp⟩ := hp.of_append
    have hclose : Before (· = ')') rest₃ := hp.before rfl rfl
    have hm : ∀ ls, members.Fuses ls → ¬ Passed ls rest₂ rest₃ := fun ls hls h =>
      hm _ (.group hls) (hbefore.append ((passed_char hg '(' rest₂).append (h.append hp)))
    obtain ⟨gap₁, rest₄, rfl, hg₁, hp⟩ := hp.of_cons
    obtain ⟨rest₅, hafter, hp⟩ := hp.of_append
    have hfactor := gives_readFactor_back after (faces_ofList rest₄) hafter (rests_divisor hp hb.2)
    rw [readGroup, Derivation.build]
    refine (members.gives_readMembers (faces_ofList rest₂) hm hmembers hclose).andThen ?_
    intro ts c₂ _ _ hc₂
    refine Step.gives_require (hc₂.isNext_true hg₁ rfl) fun _ => ?_
    refine hfactor.andThen_ok fun c₄ _ hc₄ => ?_
    rw [← carriedFrom_toList, carried, ← carriedFrom_append, ← bind_assoc_except]
    exact gives_finish divisor _ hc₄ hp hb.1

theorem Row.gives_readMembers : (ts : Row) → {c : Cursor} → {cs post : List Char} →
    c.Faces cs → (∀ ls, ts.Fuses ls → ¬ Passed ls cs post) → Passed ts.lexemes cs post →
    Before (· = ')') post → (readMembers c).Gives ts.build (·.Shows post)
  | .last t, c, cs, post, hc, hm, hp, hb => by
    have hstops : t.Stops post :=
      Derivation.stops_of_endsTerm (hb.of_eq rfl) fun _ => apart_of_before hb rfl
    rw [readMembers, Row.build]
    refine (t.gives_readTerm hc (fun ls h => hm ls (.last h)) hp hstops).andThen fun u c₁ _ _ hc₁ => ?_
    exact Step.gives_onNext_false (hc₁.isNext_false (hb.ne rfl)) fun _ =>
      Step.gives_done [u] hc₁.skipBlanks
  | .cons t rest, c, cs, post, hc, hm, hp, hb => by
    obtain ⟨rest₁, ht, hp⟩ := hp.of_append
    have hends : Before endsTerm rest₁ := hp.before rfl rfl
    have hmt : ∀ ls, t.Fuses ls → ¬ Passed ls cs rest₁ := fun ls h hls =>
      hm _ (.head h) (hls.append hp)
    have hapart : t.IsOpen → Apart rest₁ := fun hopen =>
      apart_of_not_passed rest.opens_lexemes hp fun x l ls hl hx hls =>
        hm _ (.join hopen hl hx) (ht.append hls)
    rw [readMembers, Row.build]
    refine (t.gives_readTerm hc hmt ht (Derivation.stops_of_endsTerm hends hapart)).andThen ?_
    intro u c₁ _ _ hc₁
    obtain ⟨gap, rest₂, rfl, hg, hp⟩ := hp.of_cons
    have hmrest : ∀ ls, rest.Fuses ls → ¬ Passed ls rest₂ post := fun ls h hls =>
      hm _ (.tail h) (ht.append ((passed_char hg '+' rest₂).append hls))
    refine Step.gives_onNext_true (hc₁.isNext_true hg rfl) fun _ => ?_
    have := (rest.gives_readMembers (faces_ofList rest₂) hmrest hp hb).map (u :: ·)
    rwa [map_eq_bind] at this

end

end Term

theorem Unsigned.apart {cs : List Char} (h : Unsigned cs) : Term.Apart cs := by
  intro rest hrest x hx
  have hchain := h.suffix (List.dropWhile_suffix isBlank)
  rw [hrest] at hchain
  exact hchain.rel_head? hx rfl

namespace Calculator

variable {ν : Type} {d : Term.Derivation} {cs post : List Char}

theorem read_of_stops (hp : Passed d.lexemes cs post) (hm : ∀ ls, d.Fuses ls → ¬ Passed ls cs post)
    (hb : d.Stops post) :
    ∃ rest, Calculator.read (ν := ν) (ofList cs) = (d.build >>= Term.toCalculator, rest) ∧
      ∀ t, d.build = .ok t → rest.Shows post := by
  obtain ⟨hr, hrest⟩ := d.gives_readTerm (faces_ofList cs) hm hp hb
  exact ⟨(Term.readTerm (ofList cs)).rest, by rw [← hr]; rfl, hrest⟩

/-- A formula is read in front of what can follow one, as its derivation says. -/
theorem read_of_passed (hp : Passed d.lexemes cs post) (hu : Unsigned cs)
    (hb : Before Term.endsTerm post) :
    ∃ rest, Calculator.read (ν := ν) (ofList cs) = (d.build >>= Term.toCalculator, rest) ∧
      ∀ t, d.build = .ok t → rest.Shows post :=
  read_of_stops hp (fun _ h => hu.not_passed h)
    (Term.Derivation.stops_of_endsTerm hb fun _ => (hu.suffix hp.suffix).apart)

end Calculator

namespace Formula

variable {d : Term.Derivation} {text : String}

/-- A text that spells a formula is read as the derivation says, unless a plus in it is misread. -/
theorem parse_of_not_misread (hs : Spaced d.lexemes text.toList) (hm : ¬ d.Misread text.toList) :
    parse text = (d.build >>= Term.toCalculator).map (⟨text, ·⟩) := by
  have hp : Passed d.lexemes text.toList [] := ⟨_, (List.append_nil _).symm, hs⟩
  have hstops : d.Stops [] :=
    Term.Derivation.stops_of_endsTerm (before_nil _) fun _ => Term.apart_of_before (before_nil fun _ => false) rfl
  obtain ⟨rest, hread, hrest⟩ := Calculator.read_of_stops (ν := Float) hp
    (fun ls hls h => hm ⟨ls, hls, h.spaced⟩) hstops
  rw [parse, ofString, hread]
  cases ht : d.build with
  | error e => rfl
  | ok t =>
    rw [ok_bind]
    cases t.toCalculator (ν := Float) with
    | error e => rfl
    | ok calculator =>
      have hpeek : rest.skipBlanks.peek = none := (hrest t ht).1
      simp only [hpeek, map_ok]

/-- A text that spells a formula is read as the derivation says. -/
theorem parse_of_spaced (hs : Spaced d.lexemes text.toList) (hu : Unsigned text.toList) :
    parse text = (d.build >>= Term.toCalculator).map (⟨text, ·⟩) :=
  parse_of_not_misread hs fun ⟨_, hls, h⟩ => hu.not_passed hls ⟨_, (List.append_nil _).symm, h⟩

theorem exists_of_build (ws : List (String × Int64)) (hs : Spaced d.lexemes text.toList)
    (hu : Unsigned text.toList) (h : (d.build >>= Term.toCalculator (ν := Float)).map
      (fun c => c.grades.map fun g => (g.name, g.weighting)) = .ok ws) :
    ∃ f, parse text = .ok f ∧ (f.calculator.grades.map fun g => (g.name, g.weighting)) = ws := by
  obtain ⟨c, hc, hws⟩ := map_eq_ok.1 h
  exact ⟨⟨text, c⟩, by rw [parse_of_spaced hs hu, hc]; rfl, hws⟩

end Formula

end Reckoner
