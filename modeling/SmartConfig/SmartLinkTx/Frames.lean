import SmartConfig.SmartCode
import SmartConfig.SmartLinkTx.Basic

/-!
# What the sender puts on the air

The loop of `smartlinkTxSend` is the encoder of `smartCode`: `smartlinkTxSend_eq` says so for every
input and every size. What the size decides is how much of the buffer `length` still covers.
-/

namespace SmartConfig

open Nibble

/-- A frame as the length that carries it. -/
def frameLength (f : UInt8 × Nibble) : Int := txSendlen f.1 f.2.val

/-! ## The loop computes the frames -/

/-- One more iteration adds the two frames of one byte. -/
theorem encodeFrom_nibbles_cons (sent : List UInt8) (b : UInt8) (bs : List UInt8) :
    smartCode.encodeFrom (nibbles sent) (nibbles (b :: bs)) =
      (smartCode.expected (nibbles sent), hi b)
        :: (smartCode.expected (nibbles sent ++ [hi b]), lo b)
        :: smartCode.encodeFrom (nibbles (sent ++ [b])) (nibbles bs) := by
  simp [ChainCode.encodeFrom, nibbles_append]

theorem ofNat_two_mul_succ (n : Nat) :
    UInt8.ofNat (2 * n) + 1 + 1 = UInt8.ofNat (2 * (n + 1)) := by
  rw [show 2 * (n + 1) = 2 * n + 1 + 1 from by omega, UInt8.ofNat_add, UInt8.ofNat_add]
  rfl

theorem txLow0_eq {sent rest : List UInt8} {i : UInt8} (hi : i.toNat = sent.length) :
    txLow0 (sent ++ rest) i (UInt8.ofNat (2 * sent.length)) =
      smartCode.expected (nibbles sent) := by
  rw [expected_nibbles, txLow0]
  split
  · next hne =>
    have hpos : sent.length - 1 < sent.length := by
      have := toNat_ne_zero hne
      omega
    simp only [hi, List.getD_eq_getElem?_getD, List.getElem?_append_left hpos]
  · next heq =>
    have hnil : sent = [] := by
      rw [← List.length_eq_zero_iff, ← hi, not_not.mp heq]; rfl
    subst hnil
    rfl

theorem txLoop_eq (length : UInt8) (rest : List UInt8) :
    ∀ (sent : List UInt8) (i : UInt8), i.toNat = sent.length →
      length.toNat = sent.length + rest.length → ∀ tail,
      txLoop (sent ++ rest ++ tail) length i ⟨UInt8.ofNat (2 * sent.length)⟩ =
        ((smartCode.encodeFrom (nibbles sent) (nibbles rest)).map frameLength,
          ⟨UInt8.ofNat (2 * length.toNat)⟩) := by
  -- on the bytes still to be sent; the counter is twice the number of those already sent
  induction rest with
  | nil =>
      intro sent i hi hlen tail
      have hge : ¬ i < length := by
        rw [UInt8.lt_iff_toNat_lt, hlen, hi]; simp
      rw [txLoop, if_neg hge, hlen]
      simp [ChainCode.encodeFrom]
  | cons b rest ih =>
      intro sent i hi hlen tail
      have hlt : i < length := by
        rw [UInt8.lt_iff_toNat_lt, hlen, hi]; simp
      have hsucc : (i + 1).toNat = (sent ++ [b]).length := by
        rw [toNat_succ_of_lt hlt, hi]; simp
      have hget : (sent ++ b :: rest ++ tail).getD i.toNat 0 = b := by
        rw [hi]; simp
      have hrec := ih (sent ++ [b]) (i + 1) hsucc (by simp [hlen]; omega) tail
      rw [txLoop, if_pos hlt, encodeFrom_nibbles_cons]
      simp only [List.append_assoc, List.cons_append, List.nil_append, List.length_append,
        List.length_singleton] at hrec hget ⊢
      rw [ofNat_two_mul_succ, hrec, txLow0_eq hi, expected_nibbles_hi]
      simp only [txHighs, txSendlen0, txSendlen1, hget, List.map_cons, frameLength, hi_val,
        lo_val, UInt8.ofNat_add]
      rfl

@[simp] theorem length_txBuffer {input : List UInt8} {size : UInt8}
    (hsize : input.length = size.toNat) : (txBuffer input size).length = size.toNat + 2 := by
  simp [txBuffer, hsize]

/-- The wrapped `length` never covers more than the buffer. -/
theorem toNat_add_two_le (size : UInt8) : (size + 2).toNat ≤ size.toNat + 2 := by
  rw [UInt8.toNat_add]
  exact Nat.mod_le _ _

/-- What it covers of the buffer. -/
theorem length_take_txBuffer {input : List UInt8} {size : UInt8}
    (hsize : input.length = size.toNat) :
    ((txBuffer input size).take (size + 2).toNat).length = (size + 2).toNat := by
  have := toNat_add_two_le size
  rw [List.length_take, length_txBuffer hsize]
  omega

/-- **The sender is the encoder of `smartCode`**, on the part of the frame buffer that the wrapped
`length` covers. -/
theorem smartlinkTxSend_eq (tx : SmartLinkTx) {input : List UInt8} {size : UInt8}
    (hsize : input.length = size.toNat) :
    smartlinkTxSend tx input size =
      ((smartCode.encode (nibbles ((txBuffer input size).take (size + 2).toNat))).map frameLength,
        ⟨UInt8.ofNat (2 * (size + 2).toNat)⟩) := by
  have hlen := length_take_txBuffer hsize
  have h := txLoop_eq (size + 2) ((txBuffer input size).take (size + 2).toNat) [] 0 rfl
    (by simp only [List.length_nil]; omega) ((txBuffer input size).drop (size + 2).toNat)
  rw [List.nil_append, List.take_append_drop] at h
  exact h

/-- Up to 253 bytes the counter covers the whole frame. -/
theorem smartlinkTxSend_eq_of_le (tx : SmartLinkTx) {input : List UInt8} {size : UInt8}
    (hsize : input.length = size.toNat) (hle : size.toNat ≤ 253) :
    (smartlinkTxSend tx input size).1 =
      (smartCode.encode (nibbles (framed input))).map frameLength := by
  have hadd : (size + 2).toNat = size.toNat + 2 := by
    rw [UInt8.toNat_add]; exact Nat.mod_eq_of_lt (by simp; omega)
  have hlen := length_txBuffer hsize
  rw [smartlinkTxSend_eq tx hsize, hadd, List.take_of_length_le (Nat.le_of_eq hlen), txBuffer,
    List.take_of_length_le (by omega), framed]

end SmartConfig
