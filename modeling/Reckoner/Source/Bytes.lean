import Reckoner.Source.Basic
import Reckoner.Text.Utf8

/-!
# Byte sources

Bytes arrive in deliveries: chunks of any size, reads that were interrupted and are simply tried
again, failures, and empty chunks, which say that the input ends. They are taken one at a time
(`Delivery.readByte`), so an encoding may be cut anywhere; its first byte tells how many bytes are
taken before they are looked at (`Delivery.readChar`). What was delivered after a stop stays for
whoever asks again.
-/

namespace Reckoner

/-- What one read of a byte stream brings. -/
inductive Delivery where
  | bytes (bs : List UInt8)
  | interrupted
  | failed
  deriving DecidableEq, Repr

namespace Delivery

/-- The next byte, or nothing where the input ends. A chunk is gone with its last byte. -/
def readByte : List Delivery → Except ReadFailure (Option UInt8) × List Delivery
  | [] => (.ok none, [])
  | bytes [] :: rest => (.ok none, rest)
  | bytes [b] :: rest => (.ok (some b), rest)
  | bytes (b :: c :: bs) :: rest => (.ok (some b), bytes (c :: bs) :: rest)
  | interrupted :: rest => readByte rest
  | failed :: rest => (.error .ioError, rest)

/-- As many bytes as an encoding still has, among which the input cannot end. -/
def readBytes : Nat → List Delivery → Except ReadFailure (List UInt8) × List Delivery
  | 0, ds => (.ok [], ds)
  | n + 1, ds =>
    match readByte ds with
    | (.error why, ds) => (.error why, ds)
    | (.ok none, ds) => (.error .invalidData, ds)
    | (.ok (some b), ds) =>
      let (bs, ds) := readBytes n ds
      (bs.map (b :: ·), ds)

/-- The reply to a request for a character, and what is delivered after it. -/
def readChar (ds : List Delivery) : Reply × List Delivery :=
  match readByte ds with
  | (.error why, ds) => (.stop (.failed why), ds)
  | (.ok none, ds) => (.stop .ended, ds)
  | (.ok (some lead), ds) =>
    match Text.Utf8.width lead with
    | none => (.stop (.failed .invalidData), ds)
    | some width =>
      match readBytes (width - 1) ds with
      | (.error why, ds) => (.stop (.failed why), ds)
      | (.ok bs, ds) =>
        match Text.Utf8.decode? (lead :: bs) with
        | none => (.stop (.failed .invalidData), ds)
        | some c => (.char c, ds)

/-- How many bytes and reads are left. -/
def size : List Delivery → Nat
  | [] => 0
  | bytes bs :: rest => bs.length + 1 + size rest
  | _ :: rest => 1 + size rest

theorem size_readByte_le (ds : List Delivery) : size (readByte ds).2 ≤ size ds - 1 := by
  fun_induction readByte ds <;> simp only [size, List.length_cons, List.length_nil] <;> omega

theorem size_readBytes_le (n : Nat) (ds : List Delivery) : size (readBytes n ds).2 ≤ size ds := by
  fun_induction readBytes n ds with
  | case1 => exact Nat.le_refl _
  | case2 n ds why rest h =>
    have hbyte := size_readByte_le ds
    simp only [h] at hbyte ⊢
    omega
  | case3 n ds rest h =>
    have hbyte := size_readByte_le ds
    simp only [h] at hbyte ⊢
    omega
  | case4 n ds b rest h bs rest' heq ih =>
    have hbyte := size_readByte_le ds
    simp only [h, heq] at hbyte ih ⊢
    omega

/-- Every reply takes a byte or a read, if any are left. -/
theorem size_readChar_le (ds : List Delivery) : size (readChar ds).2 ≤ size ds - 1 := by
  have hbyte := size_readByte_le ds
  unfold readChar
  split
  · simpa [*] using hbyte
  · simpa [*] using hbyte
  · rename_i lead rest h
    rw [h] at hbyte
    split
    · exact hbyte
    · rename_i width _
      have hbytes := size_readBytes_le (width - 1) rest
      split
      · rename_i h'
        rw [h'] at hbytes
        exact Nat.le_trans hbytes hbyte
      · rename_i h'
        rw [h'] at hbytes
        split <;> exact Nat.le_trans hbytes hbyte

theorem size_pos (d : Delivery) (ds : List Delivery) : 0 < size (d :: ds) := by
  cases d <;> simp only [size] <;> omega

/-- The replies that the deliveries make, those after a stop included. -/
def replies : List Delivery → List Reply
  | [] => []
  | d :: ds => (readChar (d :: ds)).1 :: replies (readChar (d :: ds)).2
  termination_by ds => size ds
  decreasing_by
    have := size_readChar_le (d :: ds)
    have := size_pos d ds
    omega

end Delivery

namespace Source

/-- The source that decodes what a byte stream delivers. -/
def ofDeliveries (ds : List Delivery) : Source :=
  ⟨Delivery.replies ds⟩

/-- The source that decodes the bytes. -/
def ofBytes (bs : List UInt8) : Source :=
  ofDeliveries [.bytes bs]

end Source

end Reckoner
