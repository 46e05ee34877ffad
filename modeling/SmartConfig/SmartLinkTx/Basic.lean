import SmartConfig.Common
import SmartConfig.Lib.Nibble

/-!
# `smartlinktx.c`: the sender

The sender speaks through the *lengths* of the datagrams it broadcasts. `smartlinkTxSend` frames
the input between two `0x7F` bytes and sends two lengths for each byte of the frame, the running
sequence number and the previous nibble mixed into the upper part of each.

The lengths handed to `_smartlinkTxSendto` are the result of the model. The frame buffer is taken
to hold what is written into it; the failure paths that send nothing (a null pointer, `malloc`
returning null) are left out.
-/

namespace SmartConfig

/-- The part of `SmartLinkTx_t` that sending reads and writes. -/
structure SmartLinkTx where
  u32Sequence : UInt8
  deriving DecidableEq, Repr

/-- What the three writes leave in `buffer`: `START_FLAGS`, `size` bytes of the input,
`END_FLAGS`. -/
def txBuffer (input : List UInt8) (size : UInt8) : List UInt8 :=
  START_FLAGS :: (input.take size.toNat ++ [END_FLAGS])

/-! ## One iteration -/

/-- `low0`: the low nibble of the byte before, xor the sequence number; the sequence number alone
at the first byte. -/
def txLow0 (buffer : List UInt8) (u8Index u32Sequence : UInt8) : UInt8 :=
  if u8Index ≠ 0 then (buffer.getD (u8Index.toNat - 1) 0 &&& 0xF) ^^^ u32Sequence
  else u32Sequence

/-- `highs`: the high nibble of this byte, xor the sequence number. -/
def txHighs (buffer : List UInt8) (u8Index u32Sequence : UInt8) : UInt8 :=
  (buffer.getD u8Index.toNat 0 >>> 4) ^^^ u32Sequence

/-- `((check << 4) | nibble) + 24`, computed in `int`. -/
def txSendlen (check nibble : UInt8) : Int :=
  ((check.toNat <<< 4 ||| nibble.toNat : Nat) : Int) + 24

/-- `sendlen0`, from `low0` and the high nibble of this byte. -/
def txSendlen0 (buffer : List UInt8) (u8Index low0 : UInt8) : Int :=
  txSendlen low0 (buffer.getD u8Index.toNat 0 >>> 4)

/-- `sendlen1`, from `highs` and the low nibble of this byte. -/
def txSendlen1 (buffer : List UInt8) (u8Index highs : UInt8) : Int :=
  txSendlen highs (buffer.getD u8Index.toNat 0 &&& 0xF)

/-! ## The loop -/

theorem toNat_succ_of_lt {i n : UInt8} (h : i < n) : (i + 1).toNat = i.toNat + 1 := by
  have hi : i.toNat < n.toNat := UInt8.lt_iff_toNat_lt.mp h
  have hn : n.toNat < 256 := n.toNat_lt
  exact Nibble.toNat_add_one (by omega)

/-- The loop from iteration `u8Index` on: the lengths sent and the context left behind. Both
`u32Sequence++` of an iteration come before its two datagrams. -/
def txLoop (buffer : List UInt8) (length u8Index : UInt8) (tx : SmartLinkTx) :
    List Int × SmartLinkTx :=
  if u8Index < length then
    let low0 := txLow0 buffer u8Index tx.u32Sequence
    let highs := txHighs buffer u8Index (tx.u32Sequence + 1)
    let rest := txLoop buffer length (u8Index + 1) { u32Sequence := tx.u32Sequence + 1 + 1 }
    (txSendlen0 buffer u8Index low0 :: txSendlen1 buffer u8Index highs :: rest.1, rest.2)
  else ([], tx)
termination_by length.toNat - u8Index.toNat
decreasing_by
  next h =>
    have := UInt8.lt_iff_toNat_lt.mp h
    rw [toNat_succ_of_lt h]
    omega

/-- `smartlinkTxSend`, between `MUTEX_LOCK` and `MUTEX_UNLOCK`: the lengths sent and the context
left behind. `length` is a `uint8_t`, so `size + 2` wraps. -/
def smartlinkTxSend (tx : SmartLinkTx) (input : List UInt8) (size : UInt8) :
    List Int × SmartLinkTx :=
  let length : UInt8 := size + 2
  let buffer := txBuffer input size
  txLoop buffer length 0 { tx with u32Sequence := 0x00 }

end SmartConfig
