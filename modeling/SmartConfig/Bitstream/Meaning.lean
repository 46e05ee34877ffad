import SmartConfig.Bitstream.Basic
import SmartConfig.Lib.BitField

/-!
# `bitstream.h`: what a read means

The buffer as one bit string, with zeros behind its end. A read of `n` bits returns the field of
`n` bits at the cursor, whatever the alignment and whichever side of the end it is on
(`bsReadU_field`), and the byte path of `bs_read_u8` is the bit path (`bsReadU8_eq`).
-/

namespace SmartConfig

open BitString

/-- The bits of the buffer, the most significant bit of a byte first, and zeros from its end on. -/
def BsT.bits (b : BsT) : BitString := fun i => (b.buf.getD (i / 8) 0).toNat.testBit (7 - i % 8)

theorem toNat_ofNat32 {k : Nat} (hk : k < 32) : (UInt32.ofNat k).toNat = k :=
  UInt32.toNat_ofNat_of_lt (Nat.lt_of_lt_of_le hk (by decide))

theorem toNat_shiftLeft32_bit {x : UInt32} {c : Bool} (hx : x.toNat = c.toNat) {k : Nat}
    (hk : k < 32) : (shiftLeft32 x k).toNat = c.toNat <<< k := by
  rw [shiftLeft32, if_pos hk, UInt32.toNat_shiftLeft, hx, toNat_ofNat32 hk, Nat.mod_eq_of_lt hk]
  apply Nat.mod_eq_of_lt
  cases c
  · simp
  · rw [Bool.toNat_true, Nat.one_shiftLeft]
    exact Nat.pow_lt_pow_right (by decide) hk

theorem BsT.bits_congr {b c : BsT} (h : b.buf = c.buf) : b.bits = c.bits := by
  unfold BsT.bits
  rw [h]

theorem Moved.bits {n : Nat} {b c : BsT} (h : Moved n b c) : c.bits = b.bits :=
  BsT.bits_congr h.buf

theorem BsT.getD_eq_byte (b : BsT) (h : ¬ bsEof b) : b.buf.getD b.p 0 = b.byte h := by
  rw [List.getD_eq_getElem?_getD, List.getElem?_eq_getElem (Nat.lt_of_not_le h)]
  rfl

/-- A state between two operations is its buffer and its bit position. -/
theorem BsT.Wf.ext {b c : BsT} (hb : b.Wf) (hc : c.Wf) (hbuf : b.buf = c.buf)
    (hpos : b.bitPos = c.bitPos) : b = c := by
  obtain ⟨hb1, hb8⟩ := hb
  obtain ⟨hc1, hc8⟩ := hc
  rw [BsT.bitPos, BsT.bitPos] at hpos
  obtain ⟨bbuf, bp, bleft⟩ := b
  obtain ⟨cbuf, cp, cleft⟩ := c
  obtain rfl : bp = cp := by dsimp only at *; omega
  obtain rfl : bleft = cleft := by dsimp only at *; omega
  rw [show bbuf = cbuf from hbuf]

/-- A whole byte, as a field. -/
theorem BsT.field_byte (b : BsT) (p : Nat) : b.bits.field (8 * p) 8 = (b.buf.getD p 0).toNat := by
  apply Nat.eq_of_testBit_eq
  intro i
  rw [testBit_field]
  by_cases hi : i < 8
  · rw [decide_eq_true hi, Bool.true_and, BsT.bits,
      show (8 * p + (8 - 1 - i)) / 8 = p from by omega,
      show 7 - (8 * p + (8 - 1 - i)) % 8 = i from by omega]
  · rw [decide_eq_false hi, Bool.false_and, Nat.testBit_lt_two_pow]
    calc (b.buf.getD p 0).toNat < 2 ^ 8 := UInt8.toNat_lt _
      _ ≤ 2 ^ i := Nat.pow_le_pow_right (by decide) (by omega)

namespace BsT.Wf

variable {b : BsT}

/-- The byte of the cursor, and the place of the next bit in it. -/
theorem bitPos_div (h : b.Wf) : b.bitPos / 8 = b.p ∧ 7 - b.bitPos % 8 = b.bits_left - 1 := by
  obtain ⟨h1, h8⟩ := h
  rw [BsT.bitPos]
  omega

/-- The next bit. -/
theorem bits_bitPos (h : b.Wf) :
    b.bits b.bitPos = (b.buf.getD b.p 0).toNat.testBit (b.bits_left - 1) := by
  obtain ⟨hdiv, hmod⟩ := h.bitPos_div
  rw [BsT.bits, hdiv, hmod]

/-- The end of the buffer, in bits. -/
theorem bsEof_iff (h : b.Wf) : bsEof b ↔ 8 * b.buf.length ≤ b.bitPos := by
  obtain ⟨h1, h8⟩ := h
  rw [bsEof, BsT.bitPos]
  omega

/-- `bs_read_u1` returns the next bit. -/
theorem bsReadU1_bit (h : b.Wf) : (bsReadU1 b).1.toNat = (b.bits b.bitPos).toNat := by
  rw [h.bits_bitPos, Nat.toNat_testBit, bsReadU1]
  split
  · next heof =>
    rw [bsEof] at heof
    simp [heof]
  · next heof =>
    have hlt : (b.byte heof).toNat / 2 ^ (b.bits_left - 1) % 2 < 2 ^ 32 := by omega
    rw [b.getD_eq_byte heof, Nat.and_one_is_mod, Nat.shiftRight_eq_div_pow]
    exact UInt32.toNat_ofNat_of_lt hlt

/-- The loop of `bs_read_u` adds the field to what it has. -/
theorem bsReadULoop_field (h : b.Wf) {k : Nat} (hk : k ≤ 32) (r : UInt32) :
    (bsReadULoop k r b).1.toNat = r.toNat ||| b.bits.field b.bitPos k := by
  induction k generalizing b r with
  | zero => exact (Nat.or_zero _).symm
  | succ k ih =>
      have hnext := h.next
      rw [bsReadULoop, bind_run]
      show (bsReadULoop k _ b.next).1.toNat = _
      rw [ih hnext.wf (by omega), UInt32.toNat_or, toNat_shiftLeft32_bit h.bsReadU1_bit (by omega),
        hnext.bits, hnext.bitPos, field_succ, Nat.or_assoc]

theorem bsReadU_toNat (h : b.Wf) {n : Nat} (hn : n ≤ 32) :
    (bsReadU n b).1.toNat = b.bits.field b.bitPos n := by
  rw [bsReadU, Int.toNat_natCast, h.bsReadULoop_field hn, UInt32.toNat_zero, Nat.zero_or]

/-- `bs_read_u8` does what `bs_read_u` does, on the fast path too. -/
theorem bsReadU8_eq (h : b.Wf) : bsReadU8 b = bsReadU 8 b := by
  rw [bsReadU8]
  split
  · next hfast =>
    have hpos : b.bitPos = 8 * b.p := by rw [BsT.bitPos, hfast.1]; rfl
    have hmoved := bsReadU_moved h 8
    have hwf : ({ b with p := b.p + 1 } : BsT).Wf := h
    refine Prod.ext (UInt32.toNat_inj.mp ?_) (hwf.ext hmoved.wf hmoved.buf.symm ?_)
    · have hval := h.bsReadU_toNat (n := 8) (by decide)
      rw [hpos, field_byte] at hval
      refine Eq.trans ?_ hval.symm
      rw [b.getD_eq_byte hfast.2]
      exact UInt8.toNat_toUInt32 _
    · rw [hmoved.bitPos, BsT.bitPos, BsT.bitPos]
      show 8 * (b.p + 1) + (8 - b.bits_left) = 8 * b.p + (8 - b.bits_left) + 8
      omega
  · rfl

end BsT.Wf

/-- **What `bs_read_u` returns**: the next `n` bits of the buffer, as a number, with zeros for the
bits behind its end; it moves on by `n` bits, and `bs_read_u8` is the case of eight. -/
theorem bsReadU_field (b : BsT) (h : b.Wf) (n : Nat) (hn : n ≤ 32) :
    (bsReadU n b).1.toNat = b.bits.field b.bitPos n ∧ Moved n b (bsReadU n b).2 ∧
      bsReadU8 b = bsReadU 8 b := by
  exact ⟨h.bsReadU_toNat hn, bsReadU_moved h n, h.bsReadU8_eq⟩

/-- Ten bits, three before the end of two bytes. -/
theorem bsReadU_field_end :
    (bsReadU 10 { buf := [0xAB, 0xCD], p := 1, bits_left := 3 }).1.toNat = 0b1010000000 := by
  have hwf : ({ buf := [0xAB, 0xCD], p := 1, bits_left := 3 } : BsT).Wf := by decide
  exact (bsReadU_field _ hwf 10 (by decide)).1.trans (by decide)

end SmartConfig
