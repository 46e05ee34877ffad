import Mathlib.Data.List.Induction
import SmartConfig.Bitstream.Format

/-!
# `bitstream.h`: looking ahead

There are four ways to see what comes next without taking it: `bs_peek_u1`, `bs_read_ru`, which puts
the cursor back, `bs_next_bits`, which reads from a copy of the stream, and `bs_next_bytes`. They
see what a read sees, and leave the stream as it is (`lookahead_agrees`).
-/

namespace SmartConfig

open BitString

/-- `bs_clone`: the copy begins at the byte of the cursor. -/
def bsClone (src : BsT) : BsT where
  buf := src.buf.drop src.p
  p := 0
  bits_left := src.bits_left

/-- `bs_next_bits`; it reads from the copy. -/
def bsNextBits (nbits : Int) : StateM BsT UInt32 := fun b =>
  ((bsReadU nbits (bsClone b)).1, b)

variable {b : BsT}

theorem bits_bsClone (b : BsT) : (bsClone b).bits = fun i => b.bits (8 * b.p + i) := by
  funext i
  show ((b.buf.drop b.p).getD (i / 8) 0).toNat.testBit (7 - i % 8) = _
  rw [List.getD_eq_getElem?_getD, List.getElem?_drop, ← List.getD_eq_getElem?_getD, BsT.bits,
    show (8 * b.p + i) / 8 = b.p + i / 8 by omega, show (8 * b.p + i) % 8 = i % 8 by omega]

/-- The copy says what the stream says. -/
theorem bsNextBits_eq (h : b.Wf) {n : Nat} (hn : n ≤ 32) :
    bsNextBits n b = ((bsReadU n b).1, b) := by
  have hclone : (bsClone b).Wf := h
  have hpos : 8 * b.p + (bsClone b).bitPos = b.bitPos := by
    show 8 * b.p + (8 * 0 + (8 - b.bits_left)) = 8 * b.p + (8 - b.bits_left)
    omega
  refine Prod.ext (UInt32.toNat_inj.mp ?_) rfl
  show (bsReadU n (bsClone b)).1.toNat = (bsReadU n b).1.toNat
  rw [hclone.bsReadU_toNat hn, h.bsReadU_toNat hn, bits_bsClone, field_drop, hpos]

/-- One byte more in a `uint64_t` that has room for it. -/
theorem toNat_shiftIn {val : UInt64} (hval : val.toNat < 2 ^ 56) (byte : UInt8) :
    (val <<< 8 ||| byte.toUInt64).toNat = val.toNat * 2 ^ 8 + byte.toNat := by
  have hbyte : byte.toNat < 2 ^ 8 := byte.toNat_lt
  have hshift : (val <<< 8).toNat = val.toNat <<< 8 := by
    have hlt : val.toNat <<< 8 < 2 ^ 64 := by
      rw [Nat.shiftLeft_eq]
      omega
    rw [UInt64.toNat_shiftLeft]
    exact Nat.mod_eq_of_lt hlt
  rw [UInt64.toNat_or, hshift, UInt8.toNat_toUInt64, ← Nat.shiftLeft_add_eq_or_of_lt hbyte,
    Nat.shiftLeft_eq]

/-- Bytes that are shifted in one after the other, the first one foremost. -/
theorem foldl_bytes (f : BitString) (s : Nat) (bytes : List UInt8) (hlen : bytes.length ≤ 8)
    (hbytes : ∀ j < bytes.length, field f (s + 8 * j) 8 = (bytes.getD j 0).toNat) :
    (bytes.foldl (fun (val : UInt64) byte => val <<< 8 ||| byte.toUInt64) 0).toNat =
      field f s (8 * bytes.length) := by
  induction bytes using List.reverseRec with
  | nil => rfl
  | append_singleton bytes byte ih =>
      rw [List.length_append, List.length_singleton] at hlen hbytes ⊢
      have hlast := hbytes bytes.length (Nat.lt_succ_self _)
      rw [List.getD_append_right _ _ _ _ (Nat.le_refl _), Nat.sub_self] at hlast
      have hrest := ih (by omega) fun j hj => by
        rw [hbytes j (by omega), List.getD_append _ _ _ _ hj]
      have hlow : field f s (8 * bytes.length) < 2 ^ 56 :=
        Nat.lt_of_lt_of_le (field_lt f s _) (Nat.pow_le_pow_right (by decide) (by omega))
      rw [List.foldl_append, List.foldl_cons, List.foldl_nil, toNat_shiftIn (hrest ▸ hlow), hrest,
        Nat.mul_add, field_add, hlast]
      rfl

/-- `bs_next_bytes` takes no notice of `bits_left`. -/
theorem bsNextBytes_field {n : Nat} (hn : 1 ≤ n ∧ n ≤ 8) (hfit : b.p + n ≤ b.buf.length) :
    (bsNextBytes n b).1.toNat = b.bits.field (8 * b.p) (8 * n) ∧ (bsNextBytes n b).2 = b := by
  have hlen := length_ahead hfit
  have hnext : bsNextBytes n b = (((b.buf.drop b.p).take n).foldl
      (fun (val : UInt64) byte => val <<< 8 ||| byte.toUInt64) 0, b) := by
    rw [bsNextBytes, if_neg (by omega), if_neg (by omega), Int.toNat_natCast]
  have hvalue := foldl_bytes b.bits (8 * b.p) ((b.buf.drop b.p).take n) (by omega) fun j hj => by
    rw [← Nat.mul_add, b.field_byte, getD_ahead (by omega)]
  rw [hlen] at hvalue
  rw [hnext]
  exact ⟨hvalue, rfl⟩

/-- **Looking ahead**, from every state, before the end and behind it: the three operations on bits
return what `bs_read_u` would return next, and `bs_next_bytes` returns the number in the bytes from
the one on that the cursor is in, which is what a read would return if that byte is still whole.
None of them moves the cursor. -/
theorem lookahead_agrees (b : BsT) (h : b.Wf) :
    (∀ n : Nat, n ≤ 32 → bsNextBits n b = ((bsReadU n b).1, b) ∧
      bsReadRu n b = ((bsReadU n b).1, b)) ∧
    bsPeekU1 b = ((bsReadU 1 b).1, b) ∧
    ∀ n : Nat, 1 ≤ n ∧ n ≤ 8 → b.p + n ≤ b.buf.length →
      (bsNextBytes n b).1.toNat = b.bits.field (8 * b.p) (8 * n) ∧ (bsNextBytes n b).2 = b ∧
      (b.bits_left = 8 → n ≤ 4 → (bsNextBytes n b).1.toNat = (bsReadU (8 * n) b).1.toNat) := by
  refine ⟨fun n hn => ⟨bsNextBits_eq h hn, bsReadRu_eq h n⟩, ?_, fun n hn hfit => ?_⟩
  · have hbit : (bsReadU1 b).1 = (bsReadU 1 b).1 := by
      have hval := h.bsReadU_toNat (n := 1) (by decide)
      apply UInt32.toNat_inj.mp
      rw [h.bsReadU1_bit]
      refine Eq.trans ?_ hval.symm
      rw [field, field, Nat.mul_zero, Nat.zero_add, Nat.add_zero]
    rw [bsPeekU1_eq, hbit]
  · -- in the middle of a byte it begins with the whole of that byte, and not with what is left
    obtain ⟨hvalue, hsame⟩ := bsNextBytes_field hn hfit
    refine ⟨hvalue, hsame, fun h8 hn4 => ?_⟩
    have hpos : b.bitPos = 8 * b.p := by
      rw [BsT.bitPos, h8]
      omega
    have hread := h.bsReadU_toNat (n := 8 * n) (by omega)
    rw [hvalue, ← hpos, ← hread]
    rfl

/-- In the middle of a byte, one byte before the end. -/
theorem lookahead_agrees_middle :
    bsNextBits 5 { buf := [0xAB, 0xCD], p := 1, bits_left := 5 } =
      (0x0D, { buf := [0xAB, 0xCD], p := 1, bits_left := 5 }) := by
  have hwf : ({ buf := [0xAB, 0xCD], p := 1, bits_left := 5 } : BsT).Wf := by decide
  exact ((lookahead_agrees _ hwf).1 5 (by decide)).1.trans (Prod.ext (by decide) rfl)

end SmartConfig
