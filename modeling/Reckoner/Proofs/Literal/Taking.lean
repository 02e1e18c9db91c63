import Reckoner.Proofs.Literal.Reading
import Reckoner.Proofs.Literal.Token

/-!
# Taking tokens

In front of anything that no number goes on with, the number rule takes a token whole
(`Literal.readNumber_token`). So the tokens are just what it takes.
-/

namespace Reckoner

open Text Cursor

/-- Whether a number ends in front of the character, after blanks or without. -/
def stops (x : Char) : Bool :=
  !(isSign x || goesOn x)

/-- Whether a token with this exponent, or with none, ends in front of the text. Behind an exponent
nothing is passed over. -/
def EndsBefore (e : Option Remote) (post : List Char) : Prop :=
  (e = none → Before stops post) ∧ (e.isSome = true → ∀ x ∈ post.head?, inNumeral x = false)

theorem prefix_withUnit (cs : List Char) : cs <+: withUnit cs := by
  rw [withUnit]
  split
  · exact List.prefix_append cs _
  · exact List.prefix_rfl

theorem withUnit_ne_nil {cs : List Char} (h : cs ≠ []) : withUnit cs ≠ [] := by
  intro hnil
  have := prefix_withUnit cs
  rw [hnil, List.prefix_nil] at this
  exact h this

theorem prefix_gather : (strays : List Stray) → (cs : List Char) → cs <+: gather cs strays
  | [], _ => List.prefix_rfl
  | s :: strays, cs =>
    ((prefix_withUnit cs).trans (List.prefix_append _ s.kept)).trans (prefix_gather strays _)

theorem isHeld_of_prefix {cs ds : List Char} (h : isHeld cs = true) (hp : ds <+: cs)
    (hne : ds ≠ []) : isHeld ds = true := by
  obtain ⟨x, xs, rfl, hx, hxs, hcount⟩ := isHeld_iff.1 h
  obtain ⟨y, ys, rfl⟩ := List.exists_cons_of_ne_nil hne
  obtain ⟨rfl, hys⟩ := List.cons_prefix_cons.1 hp
  refine isHeld_iff.2 ⟨y, ys, rfl, hx, ?_, Nat.le_trans (hp.sublist.count_le '.') hcount⟩
  exact List.all_eq_true.2 fun z hz => List.all_eq_true.1 hxs z (hys.subset hz)

theorem announced_of_gather : (strays : List Stray) → {cs : List Char} →
    (gather cs strays).head?.any announcesNumber = true → cs.head?.any announcesNumber = true
  | [], _, h => h
  | s :: strays, [], h => by
    have := announced_of_gather strays h
    obtain ⟨mark, gap, point, hmark, hg⟩ := s
    cases point <;> cases this
  | s :: strays, x :: xs, h => by
    have := announced_of_gather strays h
    obtain ⟨ys, hys⟩ := prefix_withUnit (x :: xs)
    rwa [← hys] at this

theorem Token.isHeld_front (t : Token) : isHeld t.front = true := by
  refine isHeld_of_prefix t.held (prefix_gather t.strays t.front) ?_
  intro hnil
  obtain ⟨x, xs, hx, hannounced, -⟩ := isHeld_iff.1 t.held
  have : (gather t.front t.strays).head?.any announcesNumber = true := by rw [hx]; exact hannounced
  have := announced_of_gather t.strays this
  rw [hnil] at this
  cases this

theorem Token.solid (t : Token) : (t.chars.head?.any fun x => !isBlank x) = true := by
  obtain ⟨x, xs, hfront, hx, -⟩ := isHeld_iff.1 t.isHeld_front
  simp [chars, hfront, isBlank_of_announcesNumber hx]

namespace Literal

variable {taken cs post : List Char}

theorem goesOn_of_isBlank {x : Char} (h : isBlank x = true) : goesOn x = false := by
  rw [goesOn, inNumeral_of_isBlank h, Bool.false_or]
  by_contra hx
  simp only [isMark, Bool.not_eq_false, Bool.or_eq_true, decide_eq_true_eq] at hx
  rcases hx with rfl | rfl <;> exact absurd h (by decide)

theorem goesOn_of_stops {x : Char} (h : stops x = true) : goesOn x = false := by
  rw [stops, Bool.not_eq_true', Bool.or_eq_false_iff] at h
  exact h.2

/-- A point alone is taken and handed back. -/
theorem readPlain_point {gap : List Char} (hg : Blanks gap)
    (h : ∀ x ∈ cs.head?, inNumeral x = false) :
    readPlain (ofList (gap ++ '.' :: cs)) = (.ok none, (ofList cs).inject ['.']) := by
  rw [readPlain, skipBlanks_ofList, hg.dropWhile_append, dropWhile_isBlank_cons (by rfl),
    scanPlain_ofList_cons, if_pos (by rfl), List.nil_append, scanPlain_end (by simp) h, settle]
  rfl

/-- Past a stray mark, the rule goes on with what the mantissa keeps. -/
theorem scanScientific_stray (ht : taken ≠ []) (s : Stray)
    (held : isHeld (withUnit taken ++ s.kept) = true)
    (hcs : Before (fun x => !(isSign x || inNumeral x)) cs) :
    ∃ rest, (rest = cs ∨ rest = cs.dropWhile isBlank) ∧
      scanScientific taken (ofList (s.chars ++ cs))
        = scanScientific (withUnit taken ++ s.kept) (ofList rest) := by
  obtain ⟨mark, gap, point, hmark, hg⟩ := s
  simp only [Stray.chars, List.cons_append, List.append_assoc]
  rw [scanScientific_mark ht hmark]
  cases point with
  | false =>
    refine ⟨_, .inr rfl, ?_⟩
    have hskip : (ofList (gap ++ cs)).skipBlanks = ofList (cs.dropWhile isBlank) := by
      rw [skipBlanks_ofList, hg.dropWhile_append]
    have hnone := readPlain_none hskip fun x hx => by simpa using hcs x hx
    simp only [Stray.kept, Bool.false_eq_true, ↓reduceIte, List.nil_append, List.append_nil, hnone]
  | true =>
    refine ⟨_, .inl rfl, ?_⟩
    have hpoint : ∀ x ∈ cs.head?, inNumeral x = false :=
      hcs.head_of_imp (fun x => inNumeral_of_isBlank) fun x hx => by simp_all
    have hc : continues (withUnit taken) '.' = true := by
      obtain ⟨-, -, -, -, -, hp⟩ := isHeld_iff.1 held
      have h0 : (withUnit taken).count '.' = 0 := by
        rw [List.count_append] at hp
        exact Nat.le_zero.1 (Nat.le_of_add_le_add_right hp)
      rw [continues_of_ne_nil (withUnit_ne_nil ht)]
      simpa using List.count_eq_zero.1 h0
    simp only [Stray.kept, ↓reduceIte, List.singleton_append, readPlain_point hg hpoint]
    rw [scanScientific, peek_inject]
    simp only [pop_inject, inject_nil, hc, if_pos]

/-- Passing over blanks in front of the rest of a token changes at most what follows the token. -/
theorem exists_of_dropWhile (strays : List Stray) {e : Option Remote} (hpost : EndsBefore e post) :
    ∃ rest, (strays.flatMap Stray.chars ++ (e.elim [] Remote.chars ++ post)).dropWhile isBlank
        = strays.flatMap Stray.chars ++ (e.elim [] Remote.chars ++ rest) ∧ EndsBefore e rest ∧
      (rest = post ∨ e = none ∧ rest = post.dropWhile isBlank) := by
  cases strays with
  | cons s strays =>
    refine ⟨post, ?_, hpost, .inl rfl⟩
    rw [List.flatMap_cons, Stray.chars, List.cons_append, List.cons_append,
      dropWhile_isBlank_cons (isBlank_of_isMark s.isMark)]
  | nil =>
    cases e with
    | some e =>
      refine ⟨post, ?_, hpost, .inl rfl⟩
      rw [List.flatMap_nil, List.nil_append, Option.elim_some, Remote.chars, List.cons_append,
        dropWhile_isBlank_cons (isBlank_of_isMark e.isMark)]
    | none =>
      refine ⟨post.dropWhile isBlank, rfl, ⟨fun _ => ?_, fun h => absurd h (by simp)⟩, .inr ⟨rfl, rfl⟩⟩
      rw [Before, dropWhile_isBlank_idem]
      exact hpost.1 rfl

/-- No number starts behind a stray mark of the token. -/
theorem before_tail (strays : List Stray) {e : Option Remote} (hpost : EndsBefore e post) :
    Before (fun x => !(isSign x || inNumeral x))
      (strays.flatMap Stray.chars ++ (e.elim [] Remote.chars ++ post)) := by
  have hmark : ∀ {x : Char}, isMark x = true → ∀ cs, Before (fun x => !(isSign x || inNumeral x))
      (x :: cs) :=
    fun hx => before_cons (isBlank_of_isMark hx) (by rw [not_startsNumeral_of_isMark hx]; rfl)
  cases strays with
  | cons s strays => exact hmark s.isMark _
  | nil =>
    cases e with
    | some e => exact hmark e.isMark _
    | none => exact (hpost.1 rfl).mono fun x hx => by simp_all [stops, goesOn]

/-- Behind what the rule has in hand, the rest of a token is taken. -/
theorem scanScientific_tail {e : Option Remote} : {strays : List Stray} → {taken post : List Char} →
    {r : Option Float} → (held : isHeld (gather taken strays) = true) → taken ≠ [] →
    EndsBefore e post → Token.Gives ⟨taken, strays, e, held⟩ r →
    ∃ d, scanScientific taken (ofList (strays.flatMap Stray.chars ++ (e.elim [] Remote.chars ++ post)))
        = (.ok r, d) ∧ d.Faces post ∧ (e.isSome = true → d = ofList post)
  | [], taken, post, r, held, ht, hpost, hr => by
    have hread := hr.eq_read
    cases e with
    | none =>
      have hstop := (hpost.1 rfl).head_of_imp (fun x => goesOn_of_isBlank) fun x => goesOn_of_stops
      cases hr with
      | lost _ he => cases he
      | found hd =>
        refine ⟨ofList post, ?_, faces_ofList post, fun h => nomatch h⟩
        have hd : taken.any Char.isDigit = true := hd
        rw [List.flatMap_nil, Option.elim_none, List.nil_append, List.nil_append,
          scanScientific_stop ht hstop, settle, if_pos hd, hread]
        rfl
    | some e =>
      have hpower : (ofList (e.gap ++ (e.power.chars ++ post))).skipBlanks
          = ofList (e.power.chars ++ post) := by
        rw [← e.power.skipBlanks_ofList_chars post, skipBlanks_ofList, skipBlanks_ofList,
          e.blanks.dropWhile_append]
      refine ⟨ofList post, ?_, faces_ofList post, fun _ => rfl⟩
      simp only [List.flatMap_nil, Option.elim_some, List.nil_append, Remote.chars, List.cons_append,
        List.append_assoc]
      rw [scanScientific_mark ht e.isMark, readPlain_numeral e.power hpower (hpost.2 rfl), hread]
      rfl
  | s :: strays, taken, post, r, held, ht, hpost, hr => by
    have held : isHeld (gather (withUnit taken ++ s.kept) strays) = true := held
    have hne := List.append_ne_nil_of_left_ne_nil (withUnit_ne_nil ht) s.kept
    have held' := isHeld_of_prefix held (prefix_gather strays _) hne
    obtain ⟨rest, hrest, hscan⟩ := scanScientific_stray ht s held' (before_tail strays hpost)
    have hr := (Token.Gives.stray_iff held).1 hr
    rw [List.flatMap_cons, List.append_assoc, hscan]
    rcases hrest with rfl | rfl
    · exact scanScientific_tail held hne hpost hr
    · obtain ⟨rest, hdrop, hends, hrest⟩ := exists_of_dropWhile strays hpost
      obtain ⟨d, hd, hfaces, hexact⟩ := scanScientific_tail held hne hends hr
      rw [hdrop]
      rcases hrest with rfl | ⟨rfl, rfl⟩
      · exact ⟨d, hd, hfaces, hexact⟩
      · refine ⟨d, hd, ?_, fun h => nomatch h⟩
        rwa [Faces, dropWhile_isBlank_idem] at hfaces

variable {c : Cursor} {t : Token} {r : Option Float}

/-- A token is taken whole. -/
theorem readNumber_token (hr : t.Gives r) (hc : c.skipBlanks = ofList (t.chars ++ post))
    (hpost : EndsBefore t.exponent post) :
    ∃ d, readNumber true c = (.ok r, d) ∧ d.Faces post ∧ (t.exponent.isSome = true → d = ofList post) := by
  obtain ⟨x, xs, hfront, hx, hxs, hp⟩ := isHeld_iff.1 t.isHeld_front
  have hfirst := startsNumeral_of_announcesNumber hx
  obtain ⟨d, hd, hfaces, hexact⟩ := scanScientific_tail t.held (ne_nil_of_isHeld t.isHeld_front) hpost hr
  refine ⟨d, ?_, hfaces, hexact⟩
  rw [hfront] at hp hd
  rw [readNumber, if_pos rfl, hc, Token.chars, Token.tail, hfront, List.append_assoc, List.append_assoc,
    List.cons_append, scanScientific_ofList_cons, if_pos (by rw [continues_nil, hfirst]),
    List.nil_append, scanScientific_append _ (by simp) hxs hp]
  exact hd

theorem readValue_token (hr : t.Gives r) (hc : c.skipBlanks = ofList (t.chars ++ post))
    (hpost : EndsBefore t.exponent post) :
    ∃ d, readValue c = (.ok (r.map number), d) ∧ d.Faces post ∧
      (t.exponent.isSome = true → d = ofList post) := by
  obtain ⟨x, xs, hfront, hx, -⟩ := isHeld_iff.1 t.isHeld_front
  have hchars : t.chars ++ post = x :: (xs ++ t.tail ++ post) := by
    rw [Token.chars, hfront, List.append_assoc, List.append_assoc, List.cons_append]
  have hblank : (ofList (t.chars ++ post)).skipBlanks = ofList (t.chars ++ post) := by
    rw [hchars, skipBlanks_ofList, dropWhile_isBlank_cons (isBlank_of_announcesNumber hx)]
  obtain ⟨d, hd, hfaces, hexact⟩ := readNumber_token hr hblank hpost
  refine ⟨d, ?_, hfaces, hexact⟩
  rw [hchars] at hc hd
  rw [readValue_ofList hc, if_neg (not_isQuote_of_announcesNumber hx), if_pos hx, hd]
  rfl

end Literal

end Reckoner
