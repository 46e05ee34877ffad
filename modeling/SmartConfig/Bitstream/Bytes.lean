import SmartConfig.Bitstream.Golomb

/-!
# `bitstream.h`: bytes, looking ahead, strings

The operations on whole bytes do not look at `bits_left`: from the middle of a byte they take the
bytes from the one the cursor is in on, and leave it in the middle of another.
-/

namespace SmartConfig

/-- `bs_peek_u1`. -/
def bsPeekU1 : StateM BsT UInt32 := fun b =>
  (if h : bsEof b then 0 else UInt32.ofNat (((b.byte h).toNat >>> (b.bits_left - 1)) &&& 0x01), b)

/-- `bs_bytes_left`. -/
def bsBytesLeft (b : BsT) : Int := b.buf.length - b.p

/-- The `actual_len` of the operations on bytes: no more than there are, and not below zero. -/
def actualLen (b : BsT) (len : Int) : Int :=
  let actual_len := if bsBytesLeft b < len then bsBytesLeft b else len
  if actual_len < 0 then 0 else actual_len

/-- `b->p += len`, where a negative `len` counts as zero. -/
def BsT.advance (b : BsT) (len : Int) : BsT :=
  { b with p := b.p + (if len < 0 then 0 else len).toNat }

/-- `bs_read_bytes`, with the bytes that it copies out. -/
def bsReadBytes (len : Int) : StateM BsT (Int × List UInt8) := fun b =>
  ((actualLen b len, (b.buf.drop b.p).take (actualLen b len).toNat), b.advance len)

/-- `memcpy(b->p, bytes, n)`. -/
def BsT.copyIn (b : BsT) (bytes : Nat → UInt8) (n : Nat) : BsT :=
  { b with buf := b.buf.take b.p ++ (List.range n).map bytes ++ b.buf.drop (b.p + n) }

/-- `bs_write_bytes`; `bytes` is the memory that it copies in. -/
def bsWriteBytes (bytes : Nat → UInt8) (len : Int) : StateM BsT Int := fun b =>
  (actualLen b len, (b.copyIn bytes (actualLen b len).toNat).advance len)

/-- `bs_skip_bytes`. -/
def bsSkipBytes (len : Int) : StateM BsT Int := fun b => (actualLen b len, b.advance len)

/-- `bs_next_bytes`; it does not move the cursor. -/
def bsNextBytes (nbytes : Int) : StateM BsT UInt64 := fun b =>
  if nbytes > 8 ∨ nbytes < 1 then (0, b)
  else if b.p + nbytes > b.buf.length then (0, b)
  else
    (((b.buf.drop b.p).take nbytes.toNat).foldl (fun val byte => val <<< 8 ||| byte.toUInt64) 0, b)

/-- The loop of `bs_read_string`. -/
def bsReadStringLoop : Nat → StateM BsT (List UInt8)
  | 0 => pure []
  | k + 1 => do
    let r ← bsReadU8
    let rs ← bsReadStringLoop k
    pure (r.toUInt8 :: rs)

/-- `bs_read_string`, with what it stores in `string`; `null` says that there is no `string`. -/
def bsReadString (str_size : Int) (null : Bool) (size : Int) :
    StateM BsT (Int × List UInt8) := fun b =>
  if null ∨ str_size > size - 1 then ((-1, []), b)
  else if bsBytesLeft b < str_size then ((-1, []), b)
  else ((str_size, (bsReadStringLoop str_size.toNat b).1), (bsReadStringLoop str_size.toNat b).2)

/-- `bs_read_ru`: it reads, and puts the cursor back. -/
def bsReadRu (n : Int) : StateM BsT UInt32 := fun b =>
  ((bsReadULoop n.toNat 0 b).1, (bsReadULoop n.toNat 0 b).2.seek b)

/-- Looking ahead leaves everything as it is, and sees what a read would. -/
theorem bsReadRu_eq {b : BsT} (h : b.Wf) (n : Int) : bsReadRu n b = ((bsReadU n b).1, b) := by
  have hmoved := bsReadU_moved h n
  have hseek : ((bsReadU n b).2.seek b) = b := by
    rw [BsT.seek, hmoved.buf]
  exact Prod.ext rfl hseek

/-- `bs_peek_u1` sees the bit that `bs_read_u1` would read. -/
theorem bsPeekU1_eq (b : BsT) : bsPeekU1 b = ((bsReadU1 b).1, b) := rfl

end SmartConfig
