import Mathlib.Data.List.Basic

/-!
# `bitstream.h`: reading

A `bs_t` walks over a buffer bit by bit, the most significant bit of a byte first. The three
pointers are offsets from `start`; the buffer itself is the list of the bytes between `start` and
`end`. A read is a state transformer that returns the value and moves the cursor.

Past the end there is nothing to read: every bit counts as zero and the cursor moves on.
-/

namespace SmartConfig

/-- `bs_t`; `p` is the offset of the cursor from `start`, and `bits_left` is 1 to 8. -/
structure BsT where
  buf : List UInt8
  p : Nat
  bits_left : Nat
  deriving DecidableEq

/-- `bs_init` and `bs_new`, on the first `size` bytes of `buf`. -/
def bsInit (buf : List UInt8) (size : Nat) : BsT where
  buf := buf.take size
  p := 0
  bits_left := 8

/-- `bs_eof`: the cursor is at the end or past it. -/
def bsEof (b : BsT) : Prop := b.buf.length ≤ b.p

instance (b : BsT) : Decidable (bsEof b) := inferInstanceAs (Decidable (_ ≤ _))

/-- `*(b->p)`, before the end. -/
def BsT.byte (b : BsT) (h : ¬ bsEof b) : UInt8 := b.buf.get ⟨b.p, Nat.lt_of_not_le h⟩

/-- `bs_pos`: the cursor, cut to the end. -/
def bsPos : StateM BsT Int := fun b =>
  (if b.p > b.buf.length then b.buf.length else b.p, b)

/-- `x << k` on a `uint32_t`; a distance the type does not have shifts everything out. -/
def shiftLeft32 (x : UInt32) (k : Nat) : UInt32 := if k < 32 then x <<< UInt32.ofNat k else 0

/-- The cursor after one more bit. -/
def BsT.next (b : BsT) : BsT :=
  if b.bits_left - 1 = 0 then { b with p := b.p + 1, bits_left := 8 }
  else { b with bits_left := b.bits_left - 1 }

/-- `bs_read_u1`. -/
def bsReadU1 : StateM BsT UInt32 := fun b =>
  (if h : bsEof b then 0 else UInt32.ofNat (((b.byte h).toNat >>> (b.bits_left - 1)) &&& 0x01),
    b.next)

/-- The loop of `bs_read_u`, with `k` of its bits to go: `n - i - 1` is `k - 1`. -/
def bsReadULoop : Nat → UInt32 → StateM BsT UInt32
  | 0, r => pure r
  | k + 1, r => do
    let bit ← bsReadU1
    bsReadULoop k (r ||| shiftLeft32 bit k)

/-- `bs_read_u`; a negative count reads nothing. -/
def bsReadU (n : Int) : StateM BsT UInt32 := bsReadULoop n.toNat 0

/-- `bs_read_u8`, with the fast path of `FAST_U8`. -/
def bsReadU8 : StateM BsT UInt32 := fun b =>
  if h : b.bits_left = 8 ∧ ¬ bsEof b then ((b.byte h.2).toUInt32, { b with p := b.p + 1 })
  else bsReadU 8 b

/-- `bs_read_u8n`. -/
def bsReadU8n (n : Int) : StateM BsT UInt32 := bsReadU (8 * n)

/-! ## The cursor -/

/-- Between two operations, at most seven bits of the current byte are used up. -/
def BsT.Wf (b : BsT) : Prop := 1 ≤ b.bits_left ∧ b.bits_left ≤ 8

instance (b : BsT) : Decidable b.Wf := inferInstanceAs (Decidable (_ ∧ _))

theorem wf_bsInit (buf : List UInt8) (size : Nat) : (bsInit buf size).Wf :=
  ⟨by show 1 ≤ 8; decide, Nat.le_refl 8⟩

/-- The number of bits before the cursor. -/
def BsT.bitPos (b : BsT) : Nat := 8 * b.p + (8 - b.bits_left)

theorem bind_run {α β : Type} (x : StateM BsT α) (f : α → StateM BsT β) (b : BsT) :
    (x >>= f) b = f (x b).1 (x b).2 := rfl

theorem pure_run {α : Type} (a : α) (b : BsT) : (pure a : StateM BsT α) b = (a, b) := rfl

/-- `b'` is `b` with the cursor `n` bits further. -/
structure Moved (n : Nat) (b b' : BsT) : Prop where
  buf : b'.buf = b.buf
  wf : b'.Wf
  bitPos : b'.bitPos = b.bitPos + n

theorem BsT.Wf.next {b : BsT} (h : b.Wf) : Moved 1 b b.next := by
  obtain ⟨h1, h8⟩ := h
  unfold BsT.next
  split
  · refine ⟨rfl, ⟨by simp, by simp⟩, ?_⟩
    simp only [BsT.bitPos]
    omega
  · refine ⟨rfl, ⟨?_, ?_⟩, ?_⟩
    · show 1 ≤ b.bits_left - 1
      omega
    · show b.bits_left - 1 ≤ 8
      omega
    · simp only [BsT.bitPos]
      omega

theorem bsReadULoop_moved {b : BsT} (h : b.Wf) (k : Nat) (r : UInt32) :
    Moved k b (bsReadULoop k r b).2 := by
  induction k generalizing b r with
  | zero => exact ⟨rfl, h, rfl⟩
  | succ k ih =>
      obtain ⟨hbuf, hwf, hpos⟩ := h.next
      obtain ⟨hbuf', hwf', hpos'⟩ := ih hwf (r ||| shiftLeft32 (bsReadU1 b).1 k)
      rw [bsReadULoop, bind_run]
      refine ⟨hbuf'.trans hbuf, hwf', hpos'.trans ?_⟩
      rw [hpos]
      omega

theorem bsReadU_moved {b : BsT} (h : b.Wf) (n : Int) : Moved n.toNat b (bsReadU n b).2 :=
  bsReadULoop_moved h _ _

/-! ## Whole bytes -/

/-- The cursor stands at the beginning of byte `p`. -/
structure AtByte (buf : List UInt8) (p : Nat) (b : BsT) : Prop where
  buf : b.buf = buf
  p : b.p = p
  aligned : b.bits_left = 8

theorem atByte_bsInit (buf : List UInt8) (size : Nat) :
    AtByte (buf.take size) 0 (bsInit buf size) :=
  ⟨rfl, rfl, rfl⟩

/-- Reading whole bytes leads to the beginning of a byte. -/
theorem AtByte.bsReadU_next {buf : List UInt8} {p : Nat} {b : BsT} (h : AtByte buf p b) (k : Nat) :
    AtByte buf (p + k) (bsReadU (8 * k) b).2 := by
  obtain ⟨rfl, rfl, haligned⟩ := h
  have hwf : b.Wf := by rw [BsT.Wf, haligned]; decide
  obtain ⟨hbuf, hwf', hpos⟩ := bsReadU_moved hwf (8 * k)
  obtain ⟨h1, h8⟩ := hwf'
  rw [BsT.bitPos, BsT.bitPos, haligned, show (8 * (k : Int)).toNat = 8 * k from by omega] at hpos
  exact ⟨hbuf, by omega, by omega⟩

theorem AtByte.bsReadU8n_next {buf : List UInt8} {p : Nat} {b : BsT} (h : AtByte buf p b)
    (n : Int) : AtByte buf (p + n.toNat) (bsReadU8n n b).2 := by
  have hcount : (8 * n).toNat = (8 * (n.toNat : Int)).toNat := by omega
  rw [bsReadU8n, bsReadU, hcount]
  exact h.bsReadU_next n.toNat

/-- `bs_read_u8` moves on by a byte, on the fast path and on the other one. -/
theorem AtByte.bsReadU8_next {buf : List UInt8} {p : Nat} {b : BsT} (h : AtByte buf p b) :
    AtByte buf (p + 1) (bsReadU8 b).2 := by
  rw [bsReadU8]
  split
  · exact ⟨h.buf, congrArg (· + 1) h.p, h.aligned⟩
  · exact h.bsReadU_next 1

/-- The fast path: inside the buffer, `bs_read_u8` returns the byte. -/
theorem AtByte.bsReadU8_val {buf : List UInt8} {p : Nat} {b : BsT} (h : AtByte buf p b) {v : UInt8}
    (hv : buf[p]? = some v) : (bsReadU8 b).1 = v.toUInt32 := by
  obtain ⟨rfl, rfl, haligned⟩ := h
  obtain ⟨hlt, hget⟩ := List.getElem?_eq_some_iff.mp hv
  have heof : ¬ bsEof b := Nat.not_le_of_lt hlt
  rw [bsReadU8, dif_pos ⟨haligned, heof⟩]
  exact congrArg UInt8.toUInt32 hget

/-- Past the end a read changes nothing in the value. -/
theorem bsReadULoop_past {b : BsT} (h : bsEof b) (k : Nat) (r : UInt32) :
    (bsReadULoop k r b).1 = r := by
  induction k generalizing b r with
  | zero => rfl
  | succ k ih =>
      have hbit : (bsReadU1 b).1 = 0 := by
        rw [bsReadU1, dif_pos h]
      have hshift : shiftLeft32 0 k = 0 := by
        unfold shiftLeft32
        split
        · exact UInt32.zero_shiftLeft
        · rfl
      have hnext : bsEof (bsReadU1 b).2 := by
        show bsEof b.next
        unfold BsT.next
        split
        · exact Nat.le_succ_of_le h
        · exact h
      rw [bsReadULoop, bind_run, hbit, hshift, UInt32.or_zero]
      exact ih hnext r

/-- On either path, `bs_read_u8` returns the byte, or zero past the end. -/
theorem AtByte.bsReadU8_getD {buf : List UInt8} {p : Nat} {b : BsT} (h : AtByte buf p b) :
    (bsReadU8 b).1 = (buf.getD p 0).toUInt32 := by
  rcases Nat.lt_or_ge p buf.length with hlt | hge
  · rw [h.bsReadU8_val (List.getElem?_eq_getElem hlt), List.getD_eq_getElem?_getD,
      List.getElem?_eq_getElem hlt]
    rfl
  · have heof : bsEof b := by
      rw [bsEof, h.buf, h.p]
      exact hge
    rw [bsReadU8, dif_neg fun hfast => hfast.2 heof, bsReadU, bsReadULoop_past heof,
      List.getD_eq_getElem?_getD, List.getElem?_eq_none hge]
    rfl

/-- `bs_pos` counts the whole bytes read, up to the end. -/
theorem AtByte.bsPos_min {buf : List UInt8} {p : Nat} {b : BsT} (h : AtByte buf p b) :
    bsPos b = (((min p buf.length : Nat) : Int), b) := by
  obtain ⟨rfl, rfl, -⟩ := h
  unfold bsPos
  split
  · next hlt => rw [Nat.min_eq_right (Nat.le_of_lt hlt)]
  · next hge => rw [Nat.min_eq_left (by omega)]

end SmartConfig
