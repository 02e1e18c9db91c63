import Mathlib.Data.List.Infix
import Reckoner.Text.Utf8

/-!
# Encoded characters in a row

The first byte of an encoding tells how long it is (`width_utf8EncodeChar`), so bytes start with the
encoding of one character at most (`eq_of_prefix`). Where encodings end in front of bytes that start
with none, no longer row of characters is encoded there (`prefix_of_encode_prefix`).
-/

namespace Reckoner.Text.Utf8

/-- The encodings of the characters, one after the other. -/
def encode (cs : List Char) : List UInt8 :=
  cs.flatMap String.utf8EncodeChar

@[simp] theorem encode_nil : encode [] = [] := rfl

@[simp] theorem encode_cons (c : Char) (cs : List Char) :
    encode (c :: cs) = String.utf8EncodeChar c ++ encode cs :=
  List.flatMap_cons

theorem toList_toByteArray (s : String) : s.toByteArray.data.toList = encode s.toList := by
  rw [← String.utf8Encode_toList, List.utf8Encode, encode]
  simp

theorem width_eq_some_iff {lead : UInt8} {w : Nat} : width lead = some w ↔
    lead.toNat ≤ 0x7F ∧ w = 1 ∨ 0xC2 ≤ lead.toNat ∧ lead.toNat ≤ 0xDF ∧ w = 2 ∨
      0xE0 ≤ lead.toNat ∧ lead.toNat ≤ 0xEF ∧ w = 3 ∨
      0xF0 ≤ lead.toNat ∧ lead.toNat ≤ 0xF4 ∧ w = 4 := by
  unfold width
  dsimp only
  split_ifs <;> simp <;> omega

theorem width_utf8EncodeChar (c : Char) : ∃ lead rest, String.utf8EncodeChar c = lead :: rest ∧
    width lead = some (rest.length + 1) := by
  have hc : c.val.toNat < 0x110000 := by
    rcases c.valid with h | h <;> omega
  rw [String.utf8EncodeChar.eq_1]
  generalize c.val.toNat = n at hc
  split_ifs <;> refine ⟨_, _, rfl, width_eq_some_iff.2 ?_⟩ <;> simp <;> omega

variable {c d : Char} {bs post : List UInt8}

/-- An encoding at the front is the bytes that its first byte announces. -/
theorem of_prefix {lead : UInt8} (h : String.utf8EncodeChar c <+: lead :: bs) :
    ∃ w, width lead = some w ∧ w - 1 ≤ bs.length ∧ decode? (lead :: bs.take (w - 1)) = some c := by
  obtain ⟨first, rest, hc, hw⟩ := width_utf8EncodeChar c
  rw [hc, List.cons_prefix_cons] at h
  obtain ⟨rfl, post, rfl⟩ := h
  refine ⟨_, hw, by simp, ?_⟩
  rw [Nat.add_sub_cancel, List.take_left, decode?_eq_some_iff, hc]

/-- The bytes do not start with the encoding of a character. -/
def Unreadable (bs : List UInt8) : Prop :=
  ∀ c, ¬ String.utf8EncodeChar c <+: bs

theorem unreadable_nil : Unreadable [] := by
  intro c hc
  obtain ⟨lead, rest, h, -⟩ := width_utf8EncodeChar c
  rw [h, List.prefix_nil] at hc
  cases hc

theorem eq_of_prefix (hc : String.utf8EncodeChar c <+: bs) (hd : String.utf8EncodeChar d <+: bs) :
    c = d := by
  cases bs with
  | nil => exact absurd hc (unreadable_nil c)
  | cons lead bs =>
    obtain ⟨w, hw, -, hc⟩ := of_prefix hc
    obtain ⟨w', hw', -, hd⟩ := of_prefix hd
    obtain rfl := Option.some.inj (hw.symm.trans hw')
    exact Option.some.inj (hc.symm.trans hd)

theorem prefix_of_encode_prefix (hpost : Unreadable post) :
    {cs ds : List Char} → encode ds <+: encode cs ++ post → ds <+: cs
  | _, [], _ => List.nil_prefix
  | [], d :: ds, h => by
    rw [encode_cons, encode_nil, List.nil_append] at h
    exact absurd ((List.prefix_append _ _).trans h) (hpost d)
  | c :: cs, d :: ds, h => by
    rw [encode_cons, encode_cons, List.append_assoc] at h
    obtain rfl := eq_of_prefix (List.prefix_append _ _) ((List.prefix_append _ _).trans h)
    rw [List.prefix_append_right_inj] at h
    exact List.cons_prefix_cons.2 ⟨rfl, prefix_of_encode_prefix hpost h⟩

end Reckoner.Text.Utf8
