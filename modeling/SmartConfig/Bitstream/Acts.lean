import SmartConfig.Bitstream.Bytes
import SmartConfig.Bitstream.Events
import SmartConfig.Lib.Discipline

/-!
# `bitstream.h`: what every operation does

The other operations of a stream, which note what they do as the reads of `Events` note it: every
byte that they load from the buffer or store into it, the distance of every shift of a 32-bit value,
and the signed additions of the codes. The counters of the loops run from 0 to their bound, and are
not noted.
-/

namespace SmartConfig

open Traced

/-- The `n` bytes at the cursor, each of them under `act`. -/
def BsT.ahead (b : BsT) (act : Nat → BsAct) (n : Nat) : List BsAct :=
  (List.range n).map fun i => act (b.p + i)

namespace Noted

/-! ## Reading -/

/-- `bs_skip_u1`. -/
def bsSkipU1 : Traced BsT BsAct Unit := lift SmartConfig.bsSkipU1

/-- `bs_peek_u1`. -/
def bsPeekU1 : Traced BsT BsAct UInt32 := do
  note BsT.fetch
  lift SmartConfig.bsPeekU1

/-- `bs_skip_u`. -/
def bsSkipU (n : Int) : Traced BsT BsAct Unit := lift (SmartConfig.bsSkipU n)

/-- The `while` loop of `bs_read_ue`; its `i++` is a sum. -/
def bsReadUeLoop : Nat → Traced BsT BsAct Nat
  | 0 => do
    let _ ← bsReadU1
    pure 32
  | k + 1 => do
    let bit ← bsReadU1
    let b ← lift get
    if bit = 0 ∧ ¬ bsEof b then do
      note fun _ => [BsAct.add (Int32.ofNat (32 - (k + 1))) 1]
      bsReadUeLoop k
    else pure (32 - (k + 1))

/-- `bs_read_ue`. -/
def bsReadUe : Traced BsT BsAct UInt32 := do
  let i ← bsReadUeLoop 32
  let r ← bsReadU i
  let high := (shiftLeft32 1 i).toInt32
  note fun _ => [BsAct.shift i, BsAct.add high (-1), BsAct.add r.toInt32 (high - 1)]
  pure (r.toInt32 + (high - 1)).toUInt32

/-! ## Writing -/

/-- `bs_write_u1`: two assignments, each of which loads the byte and stores it. -/
def bsWriteU1 (v : UInt32) : Traced BsT BsAct Unit := do
  note fun b =>
    if bsEof b then []
    else
      [BsAct.shift (b.bits_left - 1), BsAct.load b.p, BsAct.store b.p,
       BsAct.shift (b.bits_left - 1), BsAct.load b.p, BsAct.store b.p]
  lift (SmartConfig.bsWriteU1 v)

/-- The loop of `bs_write_u`. -/
def bsWriteULoop : Nat → UInt32 → Traced BsT BsAct Unit
  | 0, _ => pure ()
  | k + 1, v => do
    note fun _ => [BsAct.shift k]
    bsWriteU1 (shiftRight32 v k &&& 0x01)
    bsWriteULoop k v

/-- `bs_write_u`. -/
def bsWriteU (n : Int) (v : UInt32) : Traced BsT BsAct Unit := bsWriteULoop n.toNat v

/-- `bs_write_u8`. -/
def bsWriteU8 (v : UInt32) : Traced BsT BsAct Unit := fun b =>
  if b.bits_left = 8 ∧ ¬ bsEof b then
    ((), (SmartConfig.bsWriteU8 v b).2, [BsAct.store b.p])
  else bsWriteU 8 v b

/-- What finding `len` does. -/
def ueLenActs (v : UInt32) : List BsAct :=
  if v ≥ 0x01000000 then
    [.shift 24, .add 24 (Int32.ofNat (len_table.getD (shiftRight32 v 24).toNat 0))]
  else if v ≥ 0x00010000 then
    [.shift 16, .add 16 (Int32.ofNat (len_table.getD (shiftRight32 v 16).toNat 0))]
  else if v ≥ 0x00000100 then
    [.shift 8, .add 8 (Int32.ofNat (len_table.getD (shiftRight32 v 8).toNat 0))]
  else []

/-- `bs_write_ue`. -/
def bsWriteUe (v : UInt32) : Traced BsT BsAct Unit :=
  if v = 0 then bsWriteU1 1
  else do
    note fun _ => ueLenActs (v + 1) ++ [.add (Int32.ofNat (2 * ueLen (v + 1))) (-1)]
    bsWriteU (2 * (ueLen (v + 1) : Int) - 1) (v + 1)

/-! ## Bytes -/

/-- `bs_read_bytes`. -/
def bsReadBytes (len : Int) : Traced BsT BsAct (Int × List UInt8) := do
  note fun b => b.ahead .load (actualLen b len).toNat
  lift (SmartConfig.bsReadBytes len)

/-- `bs_write_bytes`. -/
def bsWriteBytes (bytes : Nat → UInt8) (len : Int) : Traced BsT BsAct Int := do
  note fun b => b.ahead .store (actualLen b len).toNat
  lift (SmartConfig.bsWriteBytes bytes len)

/-- `bs_skip_bytes`. -/
def bsSkipBytes (len : Int) : Traced BsT BsAct Int := lift (SmartConfig.bsSkipBytes len)

/-- `bs_next_bytes`. -/
def bsNextBytes (nbytes : Int) : Traced BsT BsAct UInt64 := do
  note fun b =>
    if nbytes > 8 ∨ nbytes < 1 then []
    else if b.p + nbytes > b.buf.length then []
    else b.ahead .load nbytes.toNat
  lift (SmartConfig.bsNextBytes nbytes)

/-- The loop of `bs_read_string`. -/
def bsReadStringLoop : Nat → Traced BsT BsAct (List UInt8)
  | 0 => pure []
  | k + 1 => do
    let r ← bsReadU8
    let rs ← bsReadStringLoop k
    pure (r.toUInt8 :: rs)

/-- `bs_read_string`. -/
def bsReadString (str_size : Int) (null : Bool) (size : Int) :
    Traced BsT BsAct (Int × List UInt8) := fun b =>
  if null ∨ str_size > size - 1 then ((-1, []), b, [])
  else if bsBytesLeft b < str_size then ((-1, []), b, [])
  else
    ((str_size, (bsReadStringLoop str_size.toNat).value b),
      (bsReadStringLoop str_size.toNat).final b, (bsReadStringLoop str_size.toNat).events b)

/-- `bs_read_ru`. -/
def bsReadRu (n : Int) : Traced BsT BsAct UInt32 := fun b =>
  ((bsReadULoop n.toNat 0).value b, ((bsReadULoop n.toNat 0).final b).seek b,
    (bsReadULoop n.toNat 0).events b)

/-! ## The same operations -/

theorem traces_bsReadUeLoop (k : Nat) :
    Traces (bsReadUeLoop k) (SmartConfig.bsReadUeLoop k) := by
  induction k with
  | zero => exact traces_bsReadU1.bind fun _ => traces_pure 32
  | succ k ih =>
      refine traces_bsReadU1.bind fun bit => (traces_lift get).bind fun b => ?_
      split
      · exact ih.note_bind _
      · exact traces_pure _

theorem traces_bsReadUe : Traces bsReadUe SmartConfig.bsReadUe :=
  (traces_bsReadUeLoop 32).bind fun i => (traces_bsReadU i).bind fun _ =>
    (traces_pure _).note_bind _

theorem traces_bsWriteU1 (v : UInt32) : Traces (bsWriteU1 v) (SmartConfig.bsWriteU1 v) :=
  (traces_lift _).note_bind _

theorem traces_bsWriteULoop (k : Nat) (v : UInt32) :
    Traces (bsWriteULoop k v) (SmartConfig.bsWriteULoop k v) := by
  induction k with
  | zero => exact traces_pure ()
  | succ k ih => exact ((traces_bsWriteU1 _).bind fun _ => ih).note_bind _

theorem traces_bsWriteU (n : Int) (v : UInt32) :
    Traces (bsWriteU n v) (SmartConfig.bsWriteU n v) :=
  traces_bsWriteULoop _ _

theorem traces_bsWriteU8 (v : UInt32) : Traces (bsWriteU8 v) (SmartConfig.bsWriteU8 v) :=
  (traces_bsWriteU 8 v).shortcut (fun _ => rfl) fun b h => by rw [SmartConfig.bsWriteU8, if_neg h]

theorem traces_bsWriteUe (v : UInt32) : Traces (bsWriteUe v) (SmartConfig.bsWriteUe v) := by
  rw [bsWriteUe, SmartConfig.bsWriteUe]
  split
  · exact traces_bsWriteU1 1
  · exact (traces_bsWriteU _ _).note_bind _

theorem traces_bsReadBytes (len : Int) : Traces (bsReadBytes len) (SmartConfig.bsReadBytes len) :=
  (traces_lift _).note_bind _

theorem traces_bsWriteBytes (bytes : Nat → UInt8) (len : Int) :
    Traces (bsWriteBytes bytes len) (SmartConfig.bsWriteBytes bytes len) :=
  (traces_lift _).note_bind _

theorem traces_bsNextBytes (nbytes : Int) :
    Traces (bsNextBytes nbytes) (SmartConfig.bsNextBytes nbytes) :=
  (traces_lift _).note_bind _

theorem traces_bsReadStringLoop (k : Nat) :
    Traces (bsReadStringLoop k) (SmartConfig.bsReadStringLoop k) := by
  induction k with
  | zero => exact traces_pure []
  | succ k ih => exact traces_bsReadU8.bind fun _ => ih.bind fun _ => traces_pure _

theorem traces_bsReadString (str_size : Int) (null : Bool) (size : Int) :
    Traces (bsReadString str_size null size) (SmartConfig.bsReadString str_size null size) := by
  intro b
  have hloop := traces_bsReadStringLoop str_size.toNat
  rw [Traced.value, Traced.final, bsReadString, SmartConfig.bsReadString]
  split
  · rfl
  · split
    · rfl
    · rw [← hloop.value_eq, ← hloop.final_eq]

theorem traces_bsReadRu (n : Int) : Traces (bsReadRu n) (SmartConfig.bsReadRu n) := by
  intro b
  have hloop := traces_bsReadULoop n.toNat 0
  rw [Traced.value, Traced.final, bsReadRu, SmartConfig.bsReadRu, ← hloop.value_eq,
    ← hloop.final_eq]

end Noted

end SmartConfig
