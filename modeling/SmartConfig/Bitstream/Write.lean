import SmartConfig.Bitstream.Meaning

/-!
# `bitstream.h`: writing

A write puts a number into the field at the cursor and leaves every other bit alone, on the bit
path and on the byte path (`Wrote`). So fields written one after the other are read back from where
the first one began, whichever of the two paths is taken for which of them (`readFields_written`).
-/

namespace SmartConfig

open BitString

/-- `x >> k` on a `uint32_t`; a distance the type does not have shifts everything out. -/
def shiftRight32 (x : UInt32) (k : Nat) : UInt32 := if k < 32 then x >>> UInt32.ofNat k else 0

/-- The two assignments of `bs_write_u1` to the byte of the cursor: bit `k` is cleared, and then
the low bit of `v` is ORed in. -/
def writeBit (byte : UInt8) (k : Nat) (v : UInt32) : UInt8 :=
  let byte := (byte.toUInt32 &&& ~~~shiftLeft32 0x01 k).toUInt8
  (byte.toUInt32 ||| shiftLeft32 (v &&& 0x01) k).toUInt8

/-- The buffer with the byte of the cursor replaced. -/
def BsT.store (b : BsT) (byte : UInt8) : BsT := { b with buf := b.buf.set b.p byte }

/-- `bs_write_u1`. -/
def bsWriteU1 (v : UInt32) : StateM BsT Unit := fun b =>
  if h : bsEof b then ((), b.next)
  else ((), (b.store (writeBit (b.byte h) (b.bits_left - 1) v)).next)

/-- The loop of `bs_write_u`, with `k` of its bits to go: `n - i - 1` is `k - 1`. -/
def bsWriteULoop : Nat → UInt32 → StateM BsT Unit
  | 0, _ => pure ()
  | k + 1, v => do
    bsWriteU1 (shiftRight32 v k &&& 0x01)
    bsWriteULoop k v

/-- `bs_write_u`; a negative count writes nothing. -/
def bsWriteU (n : Int) (v : UInt32) : StateM BsT Unit := bsWriteULoop n.toNat v

/-- `bs_write_u8`, with the fast path of `FAST_U8`. -/
def bsWriteU8 (v : UInt32) : StateM BsT Unit := fun b =>
  if b.bits_left = 8 ∧ ¬ bsEof b then ((), { b.store v.toUInt8 with p := b.p + 1 })
  else bsWriteU 8 v b

/-- `bs_skip_u1`. -/
def bsSkipU1 : StateM BsT Unit := fun b => ((), b.next)

/-- The loop of `bs_skip_u`. -/
def bsSkipULoop : Nat → StateM BsT Unit
  | 0 => pure ()
  | k + 1 => do
    bsSkipU1
    bsSkipULoop k

/-- `bs_skip_u`. -/
def bsSkipU (n : Int) : StateM BsT Unit := bsSkipULoop n.toNat

theorem bsSkipULoop_moved {b : BsT} (h : b.Wf) (k : Nat) : Moved k b (bsSkipULoop k b).2 := by
  induction k generalizing b with
  | zero => exact ⟨rfl, h, rfl⟩
  | succ k ih =>
      have hnext := h.next
      obtain ⟨hbuf, hwf, hpos⟩ := ih hnext.wf
      rw [bsSkipULoop, bind_run]
      refine ⟨hbuf.trans hnext.buf, hwf, hpos.trans ?_⟩
      rw [hnext.bitPos]
      omega

/-- Every number of bits can be skipped from the start, so that every alignment is met. -/
theorem bsSkipU_bsInit (buf : List UInt8) (size : Nat) (n : Int) :
    Moved n.toNat (bsInit buf size) (bsSkipU n (bsInit buf size)).2 :=
  bsSkipULoop_moved (wf_bsInit buf size) _

/-! ## The bits of a byte -/

theorem testBit_shiftLeft32 (x : UInt32) {k : Nat} (hk : k < 32) (i : Nat) :
    (shiftLeft32 x k).toNat.testBit i =
      (decide (i < 32) && (decide (k ≤ i) && x.toNat.testBit (i - k))) := by
  rw [shiftLeft32, if_pos hk, UInt32.toNat_shiftLeft, toNat_ofNat32 hk, Nat.mod_eq_of_lt hk,
    Nat.testBit_mod_two_pow, Nat.testBit_shiftLeft]

theorem testBit_shiftRight32 (x : UInt32) (k i : Nat) :
    (shiftRight32 x k).toNat.testBit i = x.toNat.testBit (k + i) := by
  rw [shiftRight32]
  split
  · next hk =>
    rw [UInt32.toNat_shiftRight, toNat_ofNat32 hk, Nat.mod_eq_of_lt hk, Nat.testBit_shiftRight]
  · next hk =>
    rw [UInt32.toNat_zero, Nat.zero_testBit, Nat.testBit_lt_two_pow]
    exact Nat.lt_of_lt_of_le x.toNat_lt (Nat.pow_le_pow_right (by decide) (by omega))

theorem testBit_not32 (x : UInt32) {i : Nat} (hi : i < 32) :
    (~~~x).toNat.testBit i = !x.toNat.testBit i := by
  have hx := x.toNat_lt
  rw [UInt32.toNat_not, show UInt32.size - 1 - x.toNat = 2 ^ 32 - (x.toNat + 1) from by
    rw [show UInt32.size = 2 ^ 32 from rfl]; omega, Nat.testBit_two_pow_sub_succ hx]
  simp [hi]

/-- `bs_write_u1` sets one bit of the byte. -/
theorem testBit_writeBit (byte : UInt8) {k : Nat} (hk : k < 8) (v : UInt32) {i : Nat}
    (hi : i < 8) :
    (writeBit byte k v).toNat.testBit i =
      if i = k then v.toNat.testBit 0 else byte.toNat.testBit i := by
  rw [writeBit]
  simp only [UInt32.toNat_toUInt8, UInt32.toNat_or, UInt8.toNat_toUInt32, UInt32.toNat_and,
    Nat.testBit_mod_two_pow, Nat.testBit_or, Nat.testBit_and, testBit_not32 _ (by omega : i < 32),
    testBit_shiftLeft32 _ (by omega : k < 32), UInt32.toNat_one]
  rcases Nat.lt_trichotomy i k with hlt | rfl | hgt
  · simp [hi, show ¬ k ≤ i from by omega, show i ≠ k from by omega]
  · simp [hi, show i < 32 from by omega]
  · have hone : Nat.testBit 1 (i - k) = false :=
      Nat.testBit_lt_two_pow (Nat.one_lt_two_pow (by omega))
    simp [hi, hone, show i ≠ k from by omega]

/-! ## What a write does -/

/-- `b'` is `b` with the low `n` bits of `v` written at the cursor, and the cursor behind them. -/
structure Wrote (n v : Nat) (b b' : BsT) : Prop where
  length : b'.buf.length = b.buf.length
  wf : b'.Wf
  bitPos : b'.bitPos = b.bitPos + n
  bits : b'.bits = b.bits.put b.bitPos n v

theorem BsT.bits_store (b : BsT) {byte : UInt8} (h : b.p < b.buf.length) (i : Nat) :
    (b.store byte).bits i = if i / 8 = b.p then byte.toNat.testBit (7 - i % 8) else b.bits i := by
  rw [BsT.bits, BsT.store, List.getD_eq_getElem?_getD, List.getElem?_set]
  split
  · next hp => rw [if_pos hp.symm]; rfl
  · next hp => rw [if_neg (Ne.symm hp), BsT.bits, List.getD_eq_getElem?_getD]

/-- The bits of a buffer determine its bytes. -/
theorem BsT.buf_eq {b c : BsT} (hlen : b.buf.length = c.buf.length) (hbits : b.bits = c.bits) :
    b.buf = c.buf := by
  apply List.ext_getElem hlen
  intro i hb hc
  have hbyte : (b.buf.getD i 0).toNat = (c.buf.getD i 0).toNat := by
    rw [← b.field_byte i, ← c.field_byte i, hbits]
  rw [List.getD_eq_getElem?_getD, List.getElem?_eq_getElem hb, List.getD_eq_getElem?_getD,
    List.getElem?_eq_getElem hc] at hbyte
  exact UInt8.toNat_inj.mp hbyte

namespace Wrote

variable {n m v w : Nat} {b c d : BsT}

/-- What a write leaves is determined by what it writes. -/
theorem eq (hc : Wrote n v b c) (hd : Wrote n v b d) : c = d :=
  hc.wf.ext hd.wf (BsT.buf_eq (hc.length.trans hd.length.symm) (hc.bits.trans hd.bits.symm))
    (hc.bitPos.trans hd.bitPos.symm)

/-- Outside its field a write changes nothing. -/
theorem bits_eq (h : Wrote n v b c) {i : Nat} (hi : ¬ (b.bitPos ≤ i ∧ i < b.bitPos + n)) :
    c.bits i = b.bits i := by
  rw [h.bits, put_of_not_mem _ _ hi]

end Wrote

namespace BsT.Wf

variable {b : BsT}

/-- One bit, inside the buffer. -/
theorem bsWriteU1_wrote (h : b.Wf) (hroom : b.bitPos + 1 ≤ 8 * b.buf.length) (v : UInt32) :
    Wrote 1 v.toNat b (bsWriteU1 v b).2 := by
  obtain ⟨hdiv, hmod⟩ := h.bitPos_div
  have heof : ¬ bsEof b := fun heof => by
    have := h.bsEof_iff.mp heof
    omega
  have hstore : (b.store (writeBit (b.byte heof) (b.bits_left - 1) v)).Wf := h
  have hnext := hstore.next
  rw [bsWriteU1, dif_neg heof]
  refine ⟨?_, hnext.wf, hnext.bitPos, ?_⟩
  · rw [hnext.buf]
    exact List.length_set
  · rw [hnext.bits]
    funext i
    rw [BsT.bits_store _ (Nat.lt_of_not_le heof)]
    have hleft : b.bits_left - 1 < 8 := by have := h.2; omega
    split
    · next hp =>
      rw [testBit_writeBit _ hleft _ (by omega)]
      split
      · next hi =>
        rw [put_of_mem _ _ (by omega), show b.bitPos + 1 - 1 - i = 0 from by omega]
      · next hi =>
        rw [put_of_not_mem _ _ (by omega), BsT.bits, hp, b.getD_eq_byte heof]
    · next hp => rw [put_of_not_mem _ _ (by omega)]

/-- The bit that the loop of `bs_write_u` takes from the value. -/
theorem testBit_writeULoop (v : UInt32) (k : Nat) :
    ∀ i < 1, (shiftRight32 v k &&& 0x01).toNat.testBit i = (v.toNat >>> k).testBit i := by
  intro i hi
  obtain rfl : i = 0 := by omega
  rw [UInt32.toNat_and, Nat.testBit_and, testBit_shiftRight32, Nat.testBit_shiftRight]
  exact Bool.and_true _

/-- The loop of `bs_write_u` writes a field. -/
theorem bsWriteULoop_wrote (h : b.Wf) {k : Nat} (hroom : b.bitPos + k ≤ 8 * b.buf.length)
    (v : UInt32) : Wrote k v.toNat b (bsWriteULoop k v b).2 := by
  induction k generalizing b with
  | zero => exact ⟨rfl, h, rfl, (put_zero _ _ _).symm⟩
  | succ k ih =>
      have hbit := h.bsWriteU1_wrote (by omega) (shiftRight32 v k &&& 0x01)
      have hrest := ih hbit.wf (by rw [hbit.length, hbit.bitPos]; omega)
      rw [bsWriteULoop, bind_run]
      refine ⟨hrest.length.trans hbit.length, hrest.wf, ?_, ?_⟩
      · rw [hrest.bitPos, hbit.bitPos]
        omega
      · rw [hrest.bits, hbit.bits, hbit.bitPos, put_congr _ _ (testBit_writeULoop v k),
          ← put_succ]

theorem bsWriteU_wrote (h : b.Wf) {n : Nat} (hroom : b.bitPos + n ≤ 8 * b.buf.length)
    (v : UInt32) : Wrote n v.toNat b (bsWriteU n v b).2 :=
  h.bsWriteULoop_wrote hroom v

/-- `bs_write_u8` does what `bs_write_u` does, on the fast path too. -/
theorem bsWriteU8_eq (h : b.Wf) (v : UInt32) : bsWriteU8 v b = bsWriteU 8 v b := by
  rw [bsWriteU8]
  split
  · next hfast =>
    have hlt := Nat.lt_of_not_le hfast.2
    have hpos : b.bitPos = 8 * b.p := by rw [BsT.bitPos, hfast.1]; rfl
    have hfastWrote : Wrote 8 v.toNat b { b.store v.toUInt8 with p := b.p + 1 } := by
      refine ⟨List.length_set, h, ?_, ?_⟩
      · rw [BsT.bitPos, BsT.bitPos]
        show 8 * (b.p + 1) + (8 - b.bits_left) = 8 * b.p + (8 - b.bits_left) + 8
        omega
      · funext i
        refine Eq.trans (b.bits_store hlt i) ?_
        rw [hpos]
        split
        · rw [put_of_mem _ _ (by omega), UInt32.toNat_toUInt8, Nat.testBit_mod_two_pow,
            decide_eq_true (by omega), Bool.true_and]
          congr 1
          omega
        · rw [put_of_not_mem _ _ (by omega)]
    have hslow := h.bsWriteU_wrote (n := 8) (by omega) v
    rw [Int.cast_ofNat_Int] at hslow
    exact Prod.ext (Subsingleton.elim _ _) (hfastWrote.eq hslow)
  · rfl

end BsT.Wf

/-! ## Fields one after the other -/

/-- A field of a sequence: its width and its value, and whether the byte operations are used for it
where the width allows that. -/
structure BsField where
  n : Nat
  v : UInt32
  writeU8 : Bool
  readU8 : Bool
  width : 1 ≤ n ∧ n ≤ 32
  value : v.toNat < 2 ^ n

def BsField.write (f : BsField) : StateM BsT Unit :=
  if f.writeU8 ∧ f.n = 8 then bsWriteU8 f.v else bsWriteU f.n f.v

def BsField.read (f : BsField) : StateM BsT UInt32 :=
  if f.readU8 ∧ f.n = 8 then bsReadU8 else bsReadU f.n

def writeFields : List BsField → StateM BsT Unit
  | [] => pure ()
  | f :: fs => do
    f.write
    writeFields fs

def readFields : List BsField → StateM BsT (List UInt32)
  | [] => pure []
  | f :: fs => do
    let v ← f.read
    let vs ← readFields fs
    pure (v :: vs)

/-- The bits of all fields together. -/
def fieldsWidth (fs : List BsField) : Nat := (fs.map (·.n)).sum

/-- The cursor of `b`, put where that of `start` is. -/
def BsT.seek (b start : BsT) : BsT := { b with p := start.p, bits_left := start.bits_left }

section Fields

variable {b : BsT}

theorem BsField.write_wrote (f : BsField) (h : b.Wf)
    (hroom : b.bitPos + f.n ≤ 8 * b.buf.length) : Wrote f.n f.v.toNat b (f.write b).2 := by
  have hslow := h.bsWriteU_wrote hroom f.v
  rw [BsField.write]
  split
  · next hfast =>
    rw [hfast.2, Int.cast_ofNat_Int] at hslow
    rw [h.bsWriteU8_eq, hfast.2]
    exact hslow
  · exact hslow

theorem BsField.read_eq (f : BsField) (h : b.Wf) : f.read b = bsReadU f.n b := by
  rw [BsField.read]
  split
  · next hfast => rw [h.bsReadU8_eq, hfast.2, Int.cast_ofNat_Int]
  · rfl

/-- What the fields leave: their room is used up, and nothing outside it is touched. -/
structure WroteFields (n : Nat) (b b' : BsT) : Prop where
  length : b'.buf.length = b.buf.length
  wf : b'.Wf
  bitPos : b'.bitPos = b.bitPos + n
  outside : ∀ i, ¬ (b.bitPos ≤ i ∧ i < b.bitPos + n) → b'.bits i = b.bits i

theorem writeFields_wrote (h : b.Wf) (fs : List BsField)
    (hroom : b.bitPos + fieldsWidth fs ≤ 8 * b.buf.length) :
    WroteFields (fieldsWidth fs) b (writeFields fs b).2 := by
  induction fs generalizing b with
  | nil => exact ⟨rfl, h, rfl, fun _ _ => rfl⟩
  | cons f fs ih =>
      have hwidth : fieldsWidth (f :: fs) = f.n + fieldsWidth fs := rfl
      rw [hwidth] at hroom ⊢
      have hfirst := f.write_wrote h (by omega)
      have hrest := ih hfirst.wf (by rw [hfirst.length, hfirst.bitPos]; omega)
      have hpos := hfirst.bitPos
      rw [writeFields, bind_run]
      refine ⟨hrest.length.trans hfirst.length, hrest.wf, ?_, fun i hi => ?_⟩
      · rw [hrest.bitPos, hfirst.bitPos]
        omega
      · rw [hrest.outside i (by omega), hfirst.bits_eq (by omega)]

/-- Reading the fields in the bits that the writes have left. -/
theorem readFields_eq {c : BsT} (hb : b.Wf) (hc : c.Wf) (hpos : c.bitPos = b.bitPos)
    (fs : List BsField) (hroom : b.bitPos + fieldsWidth fs ≤ 8 * b.buf.length)
    (hbits : c.bits = (writeFields fs b).2.bits) :
    (readFields fs c).1 = fs.map (·.v) ∧ Moved (fieldsWidth fs) c (readFields fs c).2 := by
  induction fs generalizing b c with
  | nil => exact ⟨rfl, rfl, hc, rfl⟩
  | cons f fs ih =>
      have hwidth : fieldsWidth (f :: fs) = f.n + fieldsWidth fs := rfl
      rw [hwidth] at hroom ⊢
      have hfirst := f.write_wrote hb (by omega)
      have hroom' : (f.write b).2.bitPos + fieldsWidth fs ≤ 8 * (f.write b).2.buf.length := by
        rw [hfirst.length, hfirst.bitPos]
        omega
      have hrest := writeFields_wrote hfirst.wf fs hroom'
      -- the later fields leave this one as it was written
      have hfield : c.bits.field c.bitPos f.n = f.v.toNat := by
        rw [← field_put b.bits b.bitPos f.value, hpos]
        apply field_congr
        intro i hlo hhi
        have hlater := hrest.outside i (by rw [hfirst.bitPos]; omega)
        rw [hbits, writeFields, bind_run, hlater, hfirst.bits]
      have hread : (f.read c).1 = f.v := by
        apply UInt32.toNat_inj.mp
        rw [f.read_eq hc, hc.bsReadU_toNat f.width.2, hfield]
      have hmoved : Moved f.n c (f.read c).2 := by
        rw [f.read_eq hc]
        exact bsReadU_moved hc f.n
      obtain ⟨hvals, hend⟩ := ih hfirst.wf hmoved.wf
        (by rw [hmoved.bitPos, hfirst.bitPos, hpos]) hroom' (hmoved.bits.trans hbits)
      rw [readFields, bind_run, bind_run, pure_run, hread, hvals, List.map_cons]
      refine ⟨rfl, hend.buf.trans hmoved.buf, hend.wf, ?_⟩
      rw [hend.bitPos, hmoved.bitPos]
      omega

/-- **Fields read back as they were written**, at any alignment and with any mix of the bit
operations and the byte operations: the values are the ones written, the reader ends where the
writer did, and no bit outside the fields has changed. -/
theorem readFields_written (b : BsT) (h : b.Wf) (fs : List BsField)
    (hroom : b.bitPos + fieldsWidth fs ≤ 8 * b.buf.length) :
    readFields fs ((writeFields fs b).2.seek b) = (fs.map (·.v), (writeFields fs b).2) ∧
      WroteFields (fieldsWidth fs) b (writeFields fs b).2 := by
  have hwrote := writeFields_wrote h fs hroom
  have hseek : ((writeFields fs b).2.seek b).Wf := h
  obtain ⟨hvals, hmoved⟩ := readFields_eq h hseek rfl fs hroom rfl
  refine ⟨Prod.ext hvals (hmoved.wf.ext hwrote.wf hmoved.buf ?_), hwrote⟩
  rw [hmoved.bitPos, hwrote.bitPos]
  rfl

end Fields

/-- Three bits, a byte and nine bits from the fourth bit of three bytes on; the byte operations
are asked for where they do not apply, too. -/
def threeFields : List BsField :=
  [⟨3, 5, true, false, by decide, by decide⟩, ⟨8, 0xA5, true, true, by decide, by decide⟩,
   ⟨9, 300, false, false, by decide, by decide⟩]

theorem readFields_written_three :
    (readFields threeFields ((writeFields threeFields (bsSkipU 4 (bsInit [1, 2, 3] 3)).2).2.seek
      (bsSkipU 4 (bsInit [1, 2, 3] 3)).2)).1 = [5, 0xA5, 300] := by
  have hmoved := bsSkipU_bsInit [1, 2, 3] 3 4
  have hroom : (bsSkipU 4 (bsInit [1, 2, 3] 3)).2.bitPos + fieldsWidth threeFields ≤
      8 * (bsSkipU 4 (bsInit [1, 2, 3] 3)).2.buf.length := by decide
  rw [(readFields_written _ hmoved.wf threeFields hroom).1]
  rfl

end SmartConfig
