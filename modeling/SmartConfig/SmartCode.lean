import Mathlib.Data.List.Induction
import SmartConfig.Lib.ChainCode
import SmartConfig.Lib.Nibble

/-!
# The code of the protocol

Sender and receiver speak one chained check code over nibbles: the check value of a nibble is the
nibble before it xor its position modulo 256. This file names the code and computes its check
values along the nibble stream of a byte string; neither program is mentioned yet.
-/

namespace SmartConfig

open Nibble

/-- The check code of the protocol: previous nibble xor position, the position cut to eight bits. -/
def smartCode : ChainCode Nibble UInt8 where
  seed := 0
  check x t := x.val ^^^ UInt8.ofNat t

/-! ## The check values of a nibble stream -/

theorem expected_nil : smartCode.expected [] = 0 := rfl

theorem expected_concat (xs : List Nibble) (x : Nibble) :
    smartCode.expected (xs ++ [x]) = x.val ^^^ UInt8.ofNat (xs.length + 1) := by
  simp [ChainCode.expected, smartCode]

theorem getLastD_nibbles (bs : List UInt8) :
    (nibbles bs).getLastD 0 = lo (bs.getD (bs.length - 1) 0) := by
  induction bs using List.reverseRecOn with
  | nil => rfl
  | append_singleton bs b _ => simp [nibbles_append]

/-- Before the high half of a byte: the low half of the byte before it. -/
theorem expected_nibbles (bs : List UInt8) :
    smartCode.expected (nibbles bs) =
      (bs.getD (bs.length - 1) 0 &&& 0xF) ^^^ UInt8.ofNat (2 * bs.length) := by
  simp only [ChainCode.expected, smartCode, getLastD_nibbles, length_nibbles, lo_val]

/-- Before the low half of a byte: its high half. -/
theorem expected_nibbles_hi (bs : List UInt8) (b : UInt8) :
    smartCode.expected (nibbles bs ++ [hi b]) = (b >>> 4) ^^^ UInt8.ofNat (2 * bs.length + 1) := by
  rw [expected_concat, length_nibbles, hi_val]

end SmartConfig
