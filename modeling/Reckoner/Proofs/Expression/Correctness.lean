import Reckoner.Proofs.Expression.Admission
import Reckoner.Proofs.Expression.Reading
import Reckoner.Proofs.Expression.Recognition

/-!
# What the reader of expressions accepts, and as what

The reader accepts the renderings of the admissible derivations and nothing else, and what it builds
has the value of the derivation under all bindings (`parse_exact`). Combining leading operands
without names shows in nothing but the moment at which an error is reported
(`parse_agrees_with_parsePlain`).
-/

namespace Reckoner

open Cursor Grammar

namespace Grammar

variable {e : Expression} {names : List String}
  {f : (String → Float) → Except SyntaxError Float}

theorem Expresses.bindEach_eq (h : Expresses e names f) (bindings : List (String × Float)) :
    Expression.bindEach bindings e = e.assign (Expression.environment bindings) := by
  have hl : (e.assign fun _ => 0).Listed := h.fresh.symm ▸ h.listed
  have hb := Expression.bindEach_assign hl bindings
  rw [h.fresh] at hb
  rw [hb, Expression.environment]

theorem Expresses.value_bindEach (h : Expresses e names f) (bindings : List (String × Float)) :
    (Expression.bindEach bindings e).value = f (Expression.environment bindings) := by
  rw [h.bindEach_eq, h.value_assign]

theorem Expresses.names_bindEach (h : Expresses e names f) (bindings : List (String × Float)) :
    (Expression.bindEach bindings e).names = Expression.distinct names := by
  obtain ⟨hl, hlisted⟩ := Expression.leaves_bindEach h.listed bindings
  rw [hlisted.names_eq, hl, h.leaves_eq]

theorem Expresses.bind_fst (h : Expresses e names f) (bindings : List (String × Float))
    (name : String) (x : Float) :
    (Expression.bind name x (Expression.bindEach bindings e)).1 = decide (name ∈ names) := by
  obtain ⟨hl, hlisted⟩ := Expression.leaves_bindEach h.listed bindings
  rw [Expression.bind_eq hlisted, hl, h.leaves_eq]

end Grammar

namespace Expression

/-- What the reader accepts is a rendering of a derivation, and it builds what the derivation
says. -/
theorem exists_build_of_readWhole {s : Settings} {text : String} {e : Expression}
    (h : readWhole s (ofString text) = .ok e) :
    ∃ d : Chain .low, d.Renders text ∧ d.build s = .ok e := by
  obtain ⟨d, hd⟩ := exists_renders_of_readWhole h
  exact ⟨d, hd, readWhole_of_renders hd ▸ h⟩

/-- The reader accepts exactly the renderings of admissible derivations, and the value of what it
builds is that of the derivation, whatever is bound. -/
theorem parse_exact (r : Registry) (text : String) :
    ((∃ e, parse r text = .ok e) ↔ ∃ d : Chain .low, d.Renders text ∧ d.Admissible r) ∧
      ∀ e, parse r text = .ok e → ∀ d : Chain .low, d.Renders text → ∀ bindings,
        (bindEach bindings e).value = d.eval r (environment bindings) := by
  refine ⟨⟨?_, ?_⟩, ?_⟩
  · rintro ⟨e, he⟩
    obtain ⟨d, hd, hb⟩ := exists_build_of_readWhole he
    obtain ⟨hc, hf⟩ := d.exists_build_iff.1 ⟨e, hb⟩
    exact ⟨d, hd, hc, hf rfl⟩
  · rintro ⟨d, hd, hc, hf⟩
    obtain ⟨e, he⟩ := (d.exists_build_iff (s := { registry := r })).2 ⟨hc, fun _ => hf⟩
    exact ⟨e, (readWhole_of_renders hd).trans he⟩
  · intro e he d hd bindings
    have hb : d.build { registry := r } = .ok e := (readWhole_of_renders hd).symm.trans he
    exact d.expresses_build hb |>.value_bindEach bindings

/-- Reads a text that is one expression without combining any operands. -/
def parsePlain (registry : Registry) (text : String) : Except SyntaxError Expression :=
  readWhole { registry, folds := false } (ofString text)

/-- Combining shows only in when an error is reported: what is accepted with it is accepted without
it and the two trees agree under all bindings, what is refused only with it has no value, and what is
refused without it is refused. -/
theorem parse_agrees_with_parsePlain (r : Registry) (text : String) :
    (∀ e, parse r text = .ok e → ∃ u, parsePlain r text = .ok u ∧ ∀ bindings,
      (bindEach bindings e).names = (bindEach bindings u).names ∧
      (∀ name x, (bind name x (bindEach bindings e)).1 = (bind name x (bindEach bindings u)).1) ∧
      (bindEach bindings e).value = (bindEach bindings u).value) ∧
    (∀ u err, parsePlain r text = .ok u → parse r text = .error err →
      ∀ bindings, ∃ err', (bindEach bindings u).value = .error err') ∧
    ∀ err, parsePlain r text = .error err → ∃ err', parse r text = .error err' := by
  -- What is accepted is accepted without combining, as one and the same derivation.
  have hplain : ∀ e, parse r text = .ok e → ∃ d : Chain .low, ∃ u,
      d.build { registry := r } = .ok e ∧ d.build { registry := r, folds := false } = .ok u ∧
      parsePlain r text = .ok u := by
    intro e he
    obtain ⟨d, hd, hb⟩ := exists_build_of_readWhole he
    have hc := (d.exists_build_iff.1 ⟨e, hb⟩).1
    obtain ⟨u, hu⟩ := (d.exists_build_iff (s := { registry := r, folds := false })).2 ⟨hc, by simp⟩
    exact ⟨d, u, hb, hu, (readWhole_of_renders hd).trans hu⟩
  refine ⟨?_, ?_, ?_⟩
  · intro e he
    obtain ⟨d, u, hb, hu, hp⟩ := hplain e he
    have h := d.expresses_build hb
    have h' := d.expresses_build hu
    refine ⟨u, hp, fun bindings => ⟨?_, fun name x => ?_, ?_⟩⟩
    · rw [h.names_bindEach, h'.names_bindEach]
    · rw [h.bind_fst, h'.bind_fst]
    · rw [h.value_bindEach, h'.value_bindEach]
  · intro u err hu he bindings
    obtain ⟨d, hd, hb⟩ := exists_build_of_readWhole hu
    have hc := (d.exists_build_iff.1 ⟨u, hb⟩).1
    refine exists_error_of_ne_ok fun z hz => ?_
    rw [(d.expresses_build hb).value_bindEach] at hz
    have hf := d.foldable_of_eval hc hz
    obtain ⟨e, he'⟩ := (d.exists_build_iff (s := { registry := r })).2 ⟨hc, fun _ => hf⟩
    rw [parse, readWhole_of_renders hd, he'] at he
    cases he
  · intro err herr
    refine exists_error_of_ne_ok fun e he => ?_
    obtain ⟨d, u, -, -, hp⟩ := hplain e he
    rw [herr] at hp
    cases hp

end Expression

end Reckoner
