import Reckoner.Proofs.Cursor.Refinement
import Reckoner.Proofs.Text.Encoding
import Reckoner.Source.Bytes

/-!
# Decoding what is delivered

Taking a byte or several takes them from the front of all bytes that are delivered, however these are
cut into chunks (`Delivery.readByte_eq`, `Delivery.readBytes_eq`). So the source of some deliveries
gives the longest row of characters that is encoded at the front of their bytes, and a cursor over it
gives these and then nothing any more (`Cursor.pops_ofDeliveries`).
-/

namespace Reckoner

open Text

namespace Delivery

/-- All bytes up to the first stop. -/
def content : List Delivery → List UInt8
  | [] => []
  | bytes [] :: _ => []
  | bytes (b :: bs) :: rest => b :: bs ++ content rest
  | interrupted :: rest => content rest
  | failed :: _ => []

theorem readByte_eq (ds : List Delivery) :
    (∃ b rest, readByte ds = (.ok (some b), rest) ∧ content ds = b :: content rest) ∨
      (∀ b, (readByte ds).1 ≠ .ok (some b)) ∧ content ds = [] := by
  fun_induction readByte ds with
  | case1 => exact .inr ⟨by simp, rfl⟩
  | case2 rest => exact .inr ⟨by simp, rfl⟩
  | case3 b rest => exact .inl ⟨b, rest, rfl, rfl⟩
  | case4 b c bs rest => exact .inl ⟨b, _, rfl, rfl⟩
  | case5 rest ih => exact ih
  | case6 rest => exact .inr ⟨by simp, rfl⟩

theorem readBytes_eq (n : Nat) (ds : List Delivery) :
    (∃ bs rest, readBytes n ds = (.ok bs, rest) ∧ bs.length = n ∧ content ds = bs ++ content rest) ∨
      (∃ why rest, readBytes n ds = (.error why, rest)) ∧ (content ds).length < n := by
  induction n generalizing ds with
  | zero => exact .inl ⟨[], ds, rfl, rfl, rfl⟩
  | succ n ih =>
    rcases readByte_eq ds with ⟨b, rest, hbyte, hds⟩ | ⟨hbyte, hds⟩
    · simp only [readBytes, hbyte, hds]
      rcases ih rest with ⟨bs, rest', hbytes, hlen, hrest⟩ | ⟨⟨why, rest', hbytes⟩, hlen⟩
      · exact .inl ⟨b :: bs, rest', by simp [hbytes, Except.map], by simp [hlen], by simp [hrest]⟩
      · exact .inr ⟨⟨why, rest', by simp [hbytes, Except.map]⟩, by simp [hlen]⟩
    · refine .inr ⟨?_, by simp [hds]⟩
      rw [readBytes]
      split
      · exact ⟨_, _, rfl⟩
      · exact ⟨_, _, rfl⟩
      · rename_i b rest h
        exact absurd (by rw [h]) (hbyte b)

/-- A request takes the encoding of a character, or the bytes start with none. -/
theorem readChar_eq (ds : List Delivery) :
    (∃ c rest, readChar ds = (.char c, rest) ∧
        content ds = String.utf8EncodeChar c ++ content rest) ∨
      (∃ how, (readChar ds).1 = .stop how) ∧ Utf8.Unreadable (content ds) := by
  rcases readByte_eq ds with ⟨lead, rest, hbyte, hds⟩ | ⟨hbyte, hds⟩
  · simp only [readChar, hbyte, hds]
    cases hw : Utf8.width lead with
    | none =>
      refine .inr ⟨⟨_, rfl⟩, fun c hc => ?_⟩
      obtain ⟨w, hw', -⟩ := Utf8.of_prefix hc
      exact absurd (hw.symm.trans hw') (by simp)
    | some w =>
      rcases readBytes_eq (w - 1) rest with
        ⟨bs, rest', hbytes, hlen, hrest⟩ | ⟨⟨why, rest', hbytes⟩, hlen⟩
      · simp only [hbytes]
        cases hd : Utf8.decode? (lead :: bs) with
        | none =>
          refine .inr ⟨⟨_, rfl⟩, fun c hc => ?_⟩
          obtain ⟨w', hw', -, hd'⟩ := Utf8.of_prefix hc
          obtain rfl := Option.some.inj (hw.symm.trans hw')
          rw [hrest, ← hlen, List.take_left, hd] at hd'
          cases hd'
        | some c =>
          rw [Utf8.decode?_eq_some_iff] at hd
          exact .inl ⟨c, rest', rfl, by rw [hd, hrest, List.cons_append]⟩
      · simp only [hbytes]
        refine .inr ⟨⟨_, rfl⟩, fun c hc => ?_⟩
        obtain ⟨w', hw', hle, -⟩ := Utf8.of_prefix hc
        obtain rfl := Option.some.inj (hw.symm.trans hw')
        omega
  · refine .inr ⟨?_, by rw [hds]; exact Utf8.unreadable_nil⟩
    rw [readChar]
    split
    · exact ⟨_, rfl⟩
    · exact ⟨_, rfl⟩
    · rename_i lead rest h
      exact absurd (by rw [h]) (hbyte lead)

/-- The source gives the characters that are encoded at the front of the bytes, as far as they are. -/
theorem content_eq (ds : List Delivery) : ∃ post,
    content ds = Utf8.encode (Source.ofDeliveries ds).toList ++ post ∧ Utf8.Unreadable post := by
  unfold Source.ofDeliveries
  fun_induction replies ds with
  | case1 => exact ⟨[], rfl, Utf8.unreadable_nil⟩
  | case2 d ds ih =>
    rcases readChar_eq (d :: ds) with ⟨c, rest, hchar, hds⟩ | ⟨⟨how, hstop⟩, hds⟩
    · rw [hchar] at ih ⊢
      obtain ⟨post, hrest, hpost⟩ := ih
      refine ⟨post, ?_, hpost⟩
      rw [(Source.of_ask_char rfl).1, hds, hrest, Utf8.encode_cons, List.append_assoc]
    · rw [hstop, (Source.of_ask_stop rfl).1]
      exact ⟨_, rfl, hds⟩

theorem encode_toList_prefix (ds : List Delivery) :
    Utf8.encode (Source.ofDeliveries ds).toList <+: content ds := by
  obtain ⟨post, hds, -⟩ := content_eq ds
  exact ⟨post, hds.symm⟩

theorem prefix_toList {cs : List Char} {ds : List Delivery} (h : Utf8.encode cs <+: content ds) :
    cs <+: (Source.ofDeliveries ds).toList := by
  obtain ⟨post, hds, hpost⟩ := content_eq ds
  rw [hds] at h
  exact Utf8.prefix_of_encode_prefix hpost h

/-- However the bytes are delivered, the source gives the same characters. -/
theorem toList_congr {ds es : List Delivery} (h : content es = content ds) :
    (Source.ofDeliveries es).toList = (Source.ofDeliveries ds).toList := by
  refine (prefix_toList ?_).eq_of_length_le (prefix_toList ?_).length_le
  · exact h ▸ encode_toList_prefix es
  · exact h ▸ encode_toList_prefix ds

end Delivery

theorem Pending.run_pops (n : Nat) (p : Pending) :
    (Cursor.run answer p (List.replicate n .pop)).1
      = (List.range n).map fun i => .char p.toList[i]? := by
  induction n generalizing p with
  | zero => rfl
  | succ n ih =>
    rw [List.replicate_succ, List.range_succ_eq_map, List.map_cons, List.map_map]
    refine List.cons_eq_cons.2 ⟨congrArg Cursor.Answer.char List.head?_eq_getElem?, ?_⟩
    refine (ih (p.drop 1)).trans (List.map_congr_left fun i _ => ?_)
    rw [toList_drop, List.getElem?_drop, Nat.add_comm]
    rfl

namespace Cursor

theorem run_ofSource (s : Source) (calls : List Call) :
    (run answer (ofSource s) calls).1 = (run Pending.answer ⟨[], s.toList⟩ calls).1 := by
  rw [← pending_ofSource]
  exact ((primed_ofSource s).run_eq calls).1

open Delivery in
/-- The cursor pops the longest row of characters that is encoded at the front of the bytes, and
nothing from then on. It answers by the bytes alone, and pops a text that they encode. -/
theorem pops_ofDeliveries (ds : List Delivery) : ∃ cs : List Char,
    Utf8.encode cs <+: content ds ∧ (∀ cs', Utf8.encode cs' <+: content ds → cs' <+: cs) ∧
    (∀ n, (run answer (ofSource (.ofDeliveries ds)) (List.replicate n .pop)).1
      = (List.range n).map fun i => .char cs[i]?) ∧
    (∀ es, content es = content ds → ∀ calls,
      (run answer (ofSource (.ofDeliveries es)) calls).1
        = (run answer (ofSource (.ofDeliveries ds)) calls).1) ∧
    ∀ s : String, content ds = s.toByteArray.data.toList → cs = s.toList := by
  refine ⟨(Source.ofDeliveries ds).toList, encode_toList_prefix ds, fun cs => prefix_toList,
    fun n => ?_, fun es h calls => ?_, fun s h => ?_⟩
  · exact (run_ofSource _ _).trans (Pending.run_pops n _)
  · rw [run_ofSource, run_ofSource, toList_congr h]
  · rw [Utf8.toList_toByteArray] at h
    have hcs := h ▸ encode_toList_prefix ds
    rw [← List.append_nil (Utf8.encode s.toList)] at hcs
    refine (Utf8.prefix_of_encode_prefix Utf8.unreadable_nil hcs).eq_of_length_le ?_
    exact (prefix_toList (h ▸ List.prefix_rfl)).length_le

end Cursor

end Reckoner
