import Mathlib.Data.List.Perm.Basic
import Reckoner.Json.Text
import Reckoner.Proofs.Json.Editing
import Reckoner.Proofs.Json.Recognition

/-!
# Members in other places

Reading an object is setting its members one by one (`Json.Document.value_eq_content`), so the last member
under a key counts (`Json.get?_content_settings`). Members can change places as long as those under one key
keep theirs (`Json.Document.value_eq_of_rearranged`), and all of them if no key is repeated
(`Json.Document.value_eq_of_perm`): what is read stays the same. So an object is settled by what stands
under each key, however it came there (`Json.object_canonical`).
-/

namespace Reckoner.Json

open Text

/-- Keys with values in the order in which they are written. -/
abbrev Entries : Type := List (String × Json)

/-- What the last entry under the key holds. -/
def lastUnder (entries : Entries) (key : String) : Option Json :=
  (entries.filter (·.1 = key)).getLast?.map Prod.snd

/-- Both have the same entries under each key, in the same order. -/
def Rearranged (a b : Entries) : Prop :=
  ∀ key, a.filter (·.1 = key) = b.filter (·.1 = key)

/-- The edits that set the entries one by one. -/
def settings (entries : Entries) : List Edit :=
  entries.map fun m => .set m.1 m.2

section Entries

variable {a b : Entries}

theorem settings_cons (m : String × Json) (entries : Entries) :
    settings (m :: entries) = .set m.1 m.2 :: settings entries := rfl

theorem standing_settings (entries : Entries) (key : String) :
    standing (settings entries) key = lastUnder entries key := by
  rw [standing, settings, List.filter_map, List.getLast?_map, Option.bind_map, lastUnder,
    Option.map_eq_bind]
  rfl

theorem get?_content_settings (entries : Entries) (key : String) :
    (content (settings entries)).get? key = lastUnder entries key := by
  rw [get?_content, standing_settings]

theorem content_settings_eq (h : Rearranged a b) : content (settings b) = content (settings a) := by
  refine content_eq fun key => ?_
  rw [standing_settings, standing_settings, lastUnder, lastUnder, h key]

theorem rearranged_swap {m n : String × Json} (h : m.1 ≠ n.1) (a b : Entries) :
    Rearranged (a ++ m :: n :: b) (a ++ n :: m :: b) := by
  intro key
  rw [List.filter_append, List.filter_append]
  by_cases hm : m.1 = key
  · have hn : n.1 ≠ key := fun hn => h (hm.trans hn.symm)
    simp [hm, hn]
  · simp [List.filter_cons, hm]

/-- Where the keys are distinct, entries can change places as they like. -/
theorem rearranged_of_perm (h : a.Perm b) (hkeys : (a.map Prod.fst).Nodup) : Rearranged a b := by
  induction h with
  | nil => exact fun _ => rfl
  | cons m _ ih =>
    intro key
    rw [List.filter_cons, List.filter_cons, ih hkeys.of_cons key]
  | swap m n a =>
    refine rearranged_swap (fun h => ?_) [] a
    simp [h] at hkeys
  | trans h _ ih₁ ih₂ =>
    intro key
    rw [ih₁ hkeys key, ih₂ ((h.map _).nodup_iff.1 hkeys) key]

end Entries

def MemberSpelling.entries : MemberSpelling → Entries
  | .last key value => [(key.text, value.value)]
  | .cons key value rest => (key.text, value.value) :: rest.entries

/-- The entries of an object as they are written, those that are replaced later too. -/
def Document.entries : Document → Entries
  | .emptyObject | .array _ => []
  | .object members => members.entries

theorem MemberSpelling.onto_eq : (s : MemberSpelling) → {members : Members Json} → members.Ascending →
    s.onto members = (settings s.entries).foldl (fun ms e => (e.apply ms).2) members
  | .last key value, members, h => by
    rw [onto, entries, settings_cons, List.foldl_cons, Edit.apply, Members.exchange_eq h]
    rfl
  | .cons key value rest, members, h => by
    rw [onto, rest.onto_eq (Members.ascending_insert h), entries, settings_cons, List.foldl_cons,
      Edit.apply, Members.exchange_eq h]

theorem Document.value_eq_content {d : Document} (h : d.opening = '\x7b') :
    d.value = Json.object (content (settings d.entries)) := by
  cases d with
  | emptyObject => rfl
  | object members => exact congrArg Json.object (members.onto_eq .nil)
  | array items => cases h

theorem Document.opening_of_value {d : Document} {ms : Members Json} (h : d.value = Json.object ms) :
    d.opening = '\x7b' := by
  cases d with
  | emptyObject | object members => rfl
  | array items => cases h

section Document

variable {d d' : Document}

theorem Document.value_eq_of_rearranged (h : d.opening = '\x7b') (h' : d'.opening = '\x7b')
    (hr : Rearranged d.entries d'.entries) : d'.value = d.value := by
  rw [d.value_eq_content h, d'.value_eq_content h', content_settings_eq hr]

/-- Where no key is repeated, the members can stand in any order. -/
theorem Document.value_eq_of_perm (h : d.opening = '\x7b') (h' : d'.opening = '\x7b')
    (hperm : d.entries.Perm d'.entries) (hkeys : (d.entries.map Prod.fst).Nodup) : d'.value = d.value :=
  value_eq_of_rearranged h h' (rearranged_of_perm hperm hkeys)

end Document

/-- An object is settled by what stands under each key, whether edits or a text left it there. After any
edits its keys ascend, each edit gives what stood under its key, and any others that leave the same under
each key leave the same object, with the same texts. An accepted text of an object is a document; in each
such text the last member under a key counts, and the members can change places as long as those under one
key keep theirs, also inside a value, which may be spelled in another way. -/
theorem object_canonical :
    (∀ edits : List Edit,
      ((content edits).keys.Pairwise fun a b => codePoints a < codePoints b) ∧
      (∀ e : Edit, (e.apply (content edits)).1 = standing edits e.key) ∧
      (∀ key, member (content edits) key = (standing edits key).elim (.error (.missingKey key)) .ok) ∧
      ∀ others : List Edit,
        ((object (content others) == object (content edits)) = true ↔
          ∀ key, (standing others key == standing edits key) = true) ∧
        ((∀ key, standing others key = standing edits key) →
          object (content others) = object (content edits) ∧
          (object (content others)).compact = (object (content edits)).compact ∧
          (object (content others)).pretty = (object (content edits)).pretty)) ∧
    (∀ text ms, parse text = .ok (object ms) →
      ∃ d : Document, d.opening = '\x7b' ∧ Spaced d.lexemes text.toList) ∧
    ∀ d : Document, d.opening = '\x7b' → ∃ ms : Members Json,
      (∀ text : String, Spaced d.lexemes text.toList → parse text = .ok (object ms)) ∧
      (∀ key, ms.get? key = lastUnder d.entries key) ∧
      ∀ d' : Document, d'.opening = '\x7b' → Rearranged d.entries d'.entries →
        d'.value = object ms ∧
        ∀ text : String, Spaced d'.lexemes text.toList → parse text = .ok (object ms) := by
  refine ⟨fun edits => ?_, fun text ms h => ?_, fun d hd => ?_⟩
  · refine ⟨codePoints_content edits, apply_content edits, member_content edits, fun others => ?_⟩
    refine ⟨content_beq_iff edits others, fun h => ?_⟩
    have hobject : object (content others) = object (content edits) := by rw [content_eq h]
    exact ⟨hobject, by rw [hobject], by rw [hobject]⟩
  · obtain ⟨d, hs, hv⟩ := exists_document_of_parse h
    exact ⟨d, d.opening_of_value hv, hs⟩
  · have hv := d.value_eq_content hd
    refine ⟨content (settings d.entries), fun text hs => ?_, get?_content_settings d.entries,
      fun d' hd' hrearranged => ?_⟩
    · rw [d.parse_eq hs, hv]
    · have hv' : d'.value = object (content (settings d.entries)) :=
        (Document.value_eq_of_rearranged hd hd' hrearranged).trans hv
      refine ⟨hv', fun text hs => ?_⟩
      rw [d'.parse_eq hs, hv']

theorem object_canonical_repeated : ∃ ms : Members Json,
    parse "\x7b\"b\":null,\"a\":true,\"b\":false\x7d" = .ok (object ms) ∧
    parse "\x7b\"a\":true, \"b\":null, \"b\":false\x7d" = .ok (object ms) ∧
    ms.get? "b" = some (boolean false) := by
  let a : Quotation := ⟨'"', ['a'], rfl, rfl⟩
  let b : Quotation := ⟨'"', ['b'], rfl, rfl⟩
  let last : MemberSpelling := .last b (.literal (.boolean false))
  let d : Document := .object (.cons b (.null none) (.cons a (.literal (.boolean true)) last))
  let d' : Document := .object (.cons a (.literal (.boolean true)) (.cons b (.null none) last))
  obtain ⟨ms, hparse, hlast, hmoved⟩ := object_canonical.2.2 d rfl
  have hswap : Rearranged d.entries d'.entries :=
    rearranged_swap (show "b" ≠ "a" by decide) [] last.entries
  refine ⟨ms, hparse _ (spaced_of_spells (by decide)), ?_, ?_⟩
  · exact (hmoved d' rfl hswap).2 _ (spaced_of_spells (by decide))
  · rw [hlast]
    rfl

end Reckoner.Json
