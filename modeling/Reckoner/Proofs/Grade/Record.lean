import Reckoner.Grade.Record
import Reckoner.Proofs.Decimal.Integer
import Reckoner.Proofs.Except
import Reckoner.Proofs.Json.RoundTrip

/-!
# Calculators saved and loaded

A calculator is kept as text through its JSON form, and in that a weighting is a double. Names, values
and order come back as they were (`Grade.ofJson_toJson`), and so does a weighting just if doubles have
it (`truncateTo?_floatOfInt_iff`). So a calculator survives just if doubles have all its weightings
(`Calculator.loads_written_iff`).
-/

namespace Reckoner

open Text Literal

/-- An integer of sixty-four bits comes back from the double it becomes just if doubles have it. -/
theorem truncateTo?_floatOfInt_iff (w : Int64) :
    (truncateTo? 64 (floatOfInt w.toInt)).map Int64.ofInt = some w ↔ IsDouble w.toInt := by
  rw [← truncate?_floatOfInt_iff]
  simp only [truncateTo?, Option.map_eq_some_iff, Option.filter_eq_some_iff, Bool.and_eq_true,
    decide_eq_true_eq]
  constructor
  · rintro ⟨i, ⟨hi, hlow, hhigh⟩, rfl⟩
    rw [Int64.toInt_ofInt_of_le hlow hhigh] at hi ⊢
    exact hi
  · intro h
    exact ⟨w.toInt, ⟨h, w.le_toInt, w.toInt_lt⟩, Int64.ofInt_toInt w⟩

namespace Grade

/-- The keys ascend, so the members are stored by name, value and weighting. -/
theorem toJson_eq (g : Grade Float) : g.toJson = .object
    [("name", .string g.name), ("value", g.value.elim .null .number),
      ("weighting", .number (floatOfInt g.weighting.toInt))] := by
  have hvw : ("value" : String) < "weighting" := by decide
  have hvn : ¬ ("value" : String) < "name" := by decide
  have hwn : ¬ ("weighting" : String) < "name" := by decide
  simp [toJson, Members.insert, hvw, hvn, hwn]

theorem ofJson_object {ms : Members Json} {name : String} {value : Option Float} {n : Float}
    (hname : ms.get? "name" = some (.string name))
    (hvalue : ms.get? "value" = some (value.elim .null .number))
    (hweighting : ms.get? "weighting" = some (.number n)) : ofJson (.object ms) =
      match truncateTo? 64 n with
      | some w => .ok ⟨name, .ofInt w, value⟩
      | none => .error (.numberOutOfRange "weighting" "i64") := by
  have hobject : Json.objectAt "grade" (.object ms) = .ok ms := rfl
  have hstring : Json.stringAt "name" (.string name) = .ok name := rfl
  have hnumber (place : String) (x : Float) : Json.numberAt place (.number x) = .ok x := rfl
  cases value <;>
    simp only [ofJson, hobject, hvalue, Option.elim_none, Option.elim_some, hnumber, ok_bind,
      pure_eq_ok, Json.member, hname, hstring, hweighting, Json.integerAt] <;>
    cases truncateTo? 64 n <;> rfl

/-- Only the weighting may come back as another, or not at all. -/
theorem ofJson_toJson (g : Grade Float) : ofJson g.toJson =
    match truncateTo? 64 (floatOfInt g.weighting.toInt) with
    | some w => .ok ⟨g.name, .ofInt w, g.value⟩
    | none => .error (.numberOutOfRange "weighting" "i64") := by
  rw [toJson_eq]
  exact ofJson_object rfl rfl rfl

variable {g h : Grade Float}

theorem ofJson_toJson_eq_ok : ofJson g.toJson = .ok h ↔ h.name = g.name ∧ h.value = g.value ∧
    (truncateTo? 64 (floatOfInt g.weighting.toInt)).map Int64.ofInt = some h.weighting := by
  rw [ofJson_toJson]
  rcases h with ⟨name, weighting, value⟩
  cases truncateTo? 64 (floatOfInt g.weighting.toInt) with
  | none => simp
  | some w => simp [eq_comm, and_comm]

theorem proper_toJson (g : Grade Float) : g.toJson.Proper := by
  have hkeys : ["name", "value", "weighting"].Pairwise (· < ·) := by decide
  rw [toJson_eq, Json.Proper, Json.properMembers_iff]
  refine ⟨List.pairwise_map.1 hkeys, ?_⟩
  rcases g.value with _ | v <;> simp [Json.Proper]

theorem isFinite_of_mem_numbers (hg : ∀ v ∈ g.value, v.isFinite = true) :
    ∀ n ∈ g.toJson.numbers, n.isFinite = true := by
  have hweighting : (floatOfInt g.weighting.toInt).isFinite = true := by
    have := g.weighting.le_toInt
    have := g.weighting.toInt_lt
    exact isFinite_floatOfInt (by omega)
  rw [toJson_eq]
  rcases hv : g.value with _ | v
  · simpa [Json.numbers, Json.memberNumbers] using hweighting
  · simpa [Json.numbers, Json.memberNumbers] using ⟨hg v hv, hweighting⟩

theorem closed_of_mem_texts (hg : '"' ∉ g.name.toList ∧ '\\' ∉ g.name.toList) :
    ∀ s ∈ g.toJson.texts, closed '"' false s.toList = true := by
  have hkeys : ∀ s ∈ ["name", "value", "weighting"], closed '"' false s.toList = true := by decide
  have hname := closed_of_not_mem hg.1 hg.2
  intro s hs
  have hs : s ∈ ["name", "value", "weighting"] ∨ s = g.name := by
    rw [toJson_eq] at hs
    rcases g with ⟨name, weighting, _ | v⟩ <;>
      simpa [Json.texts, Json.memberTexts, or_assoc, or_comm, or_left_comm] using hs
  rcases hs with hs | rfl
  · exact hkeys s hs
  · exact hname

theorem beq_eq (g h : Grade Float) :
    (g == h) = (g.name == h.name && (g.weighting == h.weighting && g.value == h.value)) := rfl

theorem beq_self (hg : ∀ v ∈ g.value, v.isFinite = true) : (g == g) = true := by
  rw [beq_eq, beq_self_eq_true, beq_self_eq_true, Bool.true_and, Bool.true_and]
  rcases hv : g.value with _ | v
  · rfl
  · exact beq_self_of_isFinite (hg v hv)

end Grade

namespace Calculator

/-- What the text says is that calculator. -/
def Loads (text : String) (c : Calculator Float) : Prop :=
  ∃ v, Json.parse text = .ok v ∧ ofJson v = .ok c

variable {c d : Calculator Float}

theorem parse_written (hvalue : ∀ g ∈ c.grades, ∀ v ∈ g.value, v.isFinite = true)
    (hname : ∀ g ∈ c.grades, '"' ∉ g.name.toList ∧ '\\' ∉ g.name.toList) :
    ∀ text ∈ [c.toJson.compact, c.toJson.pretty], Json.parse text = .ok c.toJson := by
  have hproper : c.toJson.Proper := by
    rw [toJson, Json.Proper, Json.properItems_iff, List.forall_mem_map]
    exact fun g _ => g.proper_toJson
  have hnumbers : ∀ n ∈ c.toJson.numbers, n.isFinite = true := by
    rw [toJson, Json.numbers, Json.itemNumbers_eq, List.flatMap_map, List.forall_mem_flatMap]
    exact fun g hg => Grade.isFinite_of_mem_numbers (hvalue g hg)
  have htexts : ∀ s ∈ c.toJson.texts, closed '"' false s.toList = true := by
    rw [toJson, Json.texts, Json.itemTexts_eq, List.flatMap_map, List.forall_mem_flatMap]
    exact fun g hg => Grade.closed_of_mem_texts (hname g hg)
  have hchars (indent : Bool) := Json.parse_chars rfl hproper hnumbers htexts indent
  intro text htext
  rcases List.mem_pair.1 htext with rfl | rfl
  · exact hchars false
  · exact hchars true

theorem ofJson_toJson_eq (c : Calculator Float) :
    ofJson c.toJson = ((c.grades.map Grade.toJson).mapM Grade.ofJson).map Calculator.mk := by
  have harray (items : List Json) : Json.arrayAt "grades" (.array items) = .ok items := rfl
  rw [toJson, ofJson, harray, map_eq_bind]
  rfl

/-- Each grade is loaded by itself. -/
theorem loads_iff {text : String} (htext : Json.parse text = .ok c.toJson) :
    Loads text d ↔ List.Forall₂ (fun g h => Grade.ofJson g.toJson = .ok h) c.grades d.grades := by
  simp only [Loads, htext, Except.ok.injEq, exists_eq_left', ofJson_toJson_eq, map_eq_ok, mapM_eq_ok,
    List.forall₂_map_left_iff]
  constructor
  · rintro ⟨gs, hgs, rfl⟩
    exact hgs
  · exact fun h => ⟨d.grades, h, rfl⟩

theorem map_eq_of_forall₂ {gs hs : List (Grade Float)}
    (h : List.Forall₂ (fun g h => Grade.ofJson g.toJson = .ok h) gs hs) :
    hs.map (fun g => (g.name, g.value)) = gs.map (fun g => (g.name, g.value)) := by
  induction h with
  | nil => rfl
  | cons hg _ ih =>
    obtain ⟨hname, hvalue, -⟩ := Grade.ofJson_toJson_eq_ok.1 hg
    rw [List.map_cons, List.map_cons, ih, hname, hvalue]

/-- Where an equal weighting was loaded, doubles have it. -/
theorem isDouble_of_forall₂ {gs hs : List (Grade Float)}
    (h : List.Forall₂ (fun g h => Grade.ofJson g.toJson = .ok h) gs hs) (heq : (hs == gs) = true) :
    ∀ g ∈ gs, IsDouble g.weighting.toInt := by
  induction h with
  | nil => simp
  | @cons g h gs hs hg _ ih =>
    simp only [List.cons_beq_cons, Grade.beq_eq, Bool.and_eq_true, beq_iff_eq] at heq
    obtain ⟨⟨-, hw, -⟩, heq⟩ := heq
    refine List.forall_mem_cons.2 ⟨(truncateTo?_floatOfInt_iff g.weighting).1 ?_, ih heq⟩
    rw [(Grade.ofJson_toJson_eq_ok.1 hg).2.2, hw]

theorem beq_self (hvalue : ∀ g ∈ c.grades, ∀ v ∈ g.value, v.isFinite = true) :
    (c == c) = true := by
  have hall : ∀ gs : List (Grade Float), (∀ g ∈ gs, ∀ v ∈ g.value, v.isFinite = true) →
      (gs == gs) = true := by
    intro gs h
    induction gs with
    | nil => rfl
    | cons g gs ih =>
      obtain ⟨hg, hgs⟩ := List.forall_mem_cons.1 h
      rw [List.cons_beq_cons, Grade.beq_self hg, ih hgs]
      rfl
  exact hall c.grades hvalue

/-- Saved and loaded, a calculator is equal to itself just if doubles have all its weightings, and then
it is the same. Whatever is loaded has the same names and values in the same order. -/
theorem loads_written {c : Calculator Float}
    (hvalue : ∀ g ∈ c.grades, ∀ v ∈ g.value, v.isFinite = true)
    (hname : ∀ g ∈ c.grades, '"' ∉ g.name.toList ∧ '\\' ∉ g.name.toList) :
    ∀ text ∈ [c.toJson.compact, c.toJson.pretty],
      ((∀ g ∈ c.grades, IsDouble g.weighting.toInt) → Loads text c ∧ (c == c) = true) ∧
      ∀ d, Loads text d →
        d.grades.map (fun g => (g.name, g.value)) = c.grades.map (fun g => (g.name, g.value)) ∧
        ((d == c) = true → ∀ g ∈ c.grades, IsDouble g.weighting.toInt) := by
  intro text htext
  have hloads (d : Calculator Float) := loads_iff (d := d) (parse_written hvalue hname text htext)
  refine ⟨fun hdouble => ⟨?_, ?_⟩, fun d hd => ?_⟩
  · refine (hloads c).2 (List.forall₂_same.2 fun g hg => Grade.ofJson_toJson_eq_ok.2 ⟨rfl, rfl, ?_⟩)
    exact (truncateTo?_floatOfInt_iff g.weighting).2 (hdouble g hg)
  · exact beq_self hvalue
  · rw [hloads] at hd
    exact ⟨map_eq_of_forall₂ hd, isDouble_of_forall₂ hd⟩

theorem loads_written_semester :
    let c : Calculator Float := ⟨[⟨"SE1", 1, none⟩, ⟨"SE2", 2, some 1.3⟩, ⟨"PW", -3, none⟩]⟩
    Loads c.toJson.compact c ∧ Loads c.toJson.pretty c ∧ (c == c) = true := by
  intro c
  have hdouble : ∀ g ∈ c.grades, IsDouble g.weighting.toInt := by
    intro g hg
    refine isDouble_intCast ?_
    revert g
    decide
  have hloads := loads_written (c := c) (by decide) (by decide)
  obtain ⟨hcompact, hequal⟩ := (hloads c.toJson.compact (by simp)).1 hdouble
  exact ⟨hcompact, ((hloads c.toJson.pretty (by simp)).1 hdouble).1, hequal⟩

/-- The first integer that doubles do not have is loaded as the one before it. -/
theorem loads_written_rounded :
    let c : Calculator Float := ⟨[⟨"A", 9007199254740993, none⟩]⟩
    ∀ text ∈ [c.toJson.compact, c.toJson.pretty],
      Loads text ⟨[⟨"A", 9007199254740992, none⟩]⟩ ∧ ¬ ∃ d, Loads text d ∧ (d == c) = true := by
  intro c text htext
  have hround : (truncateTo? 64 (floatOfInt (9007199254740993 : Int64).toInt)).map Int64.ofInt
      = some 9007199254740992 := by decide +kernel
  have hparse := parse_written (c := c) (by decide) (by decide) text htext
  refine ⟨(loads_iff hparse).2 (.cons (Grade.ofJson_toJson_eq_ok.2 ⟨rfl, rfl, hround⟩) .nil), ?_⟩
  rintro ⟨d, hd, heq⟩
  have hdouble := isDouble_of_forall₂ ((loads_iff hparse).1 hd) heq _ (List.mem_singleton_self _)
  rw [← truncateTo?_floatOfInt_iff, hround] at hdouble
  exact absurd hdouble (by decide)

end Calculator

end Reckoner
