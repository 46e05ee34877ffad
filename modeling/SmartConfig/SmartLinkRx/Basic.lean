import SmartConfig.Common
import SmartConfig.Lib.Mealy

/-!
# `smartlinkrx.c`: the decoder

`_smartlinkRxDecode` turns the length of one captured datagram into at most one nibble. The
context is carried through explicitly, and a step returns, next to the new context, what the C
function does outside it: the call of the `SmartLinkRxFunc` callback, and the subscripts with
which it touched `buffer`.
-/

namespace SmartConfig

def BUFFER_MAX : Nat := 512

/-- The assembly buffer of the receiver. -/
abbrev RxBuffer := Vector UInt8 BUFFER_MAX

theorem toNat_lt_BUFFER_MAX (i : UInt8) : i.toNat < BUFFER_MAX :=
  Nat.lt_of_lt_of_le i.toNat_lt (by decide)

/-- `buffer[i]`. A `uint8_t` cannot leave the buffer; `buffer[u32Index-1]` after the increment has
wrapped can, and is only seen in `RxStep.subscripts`. -/
def RxBuffer.at (buffer : RxBuffer) (i : UInt8) : UInt8 :=
  buffer.get ⟨i.toNat, toNat_lt_BUFFER_MAX i⟩

/-- `buffer[i] = v`. -/
def RxBuffer.put (buffer : RxBuffer) (i v : UInt8) : RxBuffer :=
  buffer.set i.toNat v (toNat_lt_BUFFER_MAX i)

/-- The part of `SmartLinkRx_t` that the decoder reads and writes. -/
structure SmartLinkRx where
  u32Index : UInt8
  u32Sequence : UInt8
  sourceAddr : Mac
  buffer : RxBuffer
  deriving DecidableEq

/-- What `smartLinkRxInit` leaves in a context before the receiving thread starts. -/
def smartLinkRxStart : SmartLinkRx where
  u32Index := 0x00
  u32Sequence := 0x00
  sourceAddr := macZero
  buffer := Vector.replicate BUFFER_MAX 0x00

/-- The arguments of one call of the `SmartLinkRxFunc` callback, except the user's own pointer;
`buf` is the memory from `buffer + 1` to the end of the buffer. -/
structure RxCall where
  mac : Mac
  mac_len : Nat
  buf : List UInt8
  len : Nat
  deriving DecidableEq

/-- What one call of `_smartlinkRxDecode` does. -/
structure RxStep where
  ctx : SmartLinkRx
  call : Option RxCall
  subscripts : List Int

/-! ## The two halves of a length -/

/-- `data`: the low four bits of `sendlen - 24`. -/
def rxData (sendlen : Int) : UInt8 := UInt8.ofInt ((sendlen - 24) >>> (0 : Nat)) &&& 0xF

/-- `flag`: the rest of `sendlen - 24`, shifted arithmetically and cut to eight bits. -/
def rxFlag (sendlen : Int) : UInt8 := UInt8.ofInt ((sendlen - 24) >>> (4 : Nat))

/-! ## The decoder -/

/-- `pdata` of the even branch. -/
def rxLowBefore (ctx : SmartLinkRx) : UInt8 :=
  if ctx.u32Index = 0x00 then 0x00 else ctx.buffer.at (ctx.u32Index - 1) &&& 0xF

/-- `pdata` of the odd branch. -/
def rxHighHere (ctx : SmartLinkRx) : UInt8 := ctx.buffer.at ctx.u32Index >>> 4

/-- `_smartlinkRxDecode`; of the captured frame it uses the source address only. -/
def smartlinkRxDecode (ctx : SmartLinkRx) (sendlen : Int) (saddr : Mac) : RxStep :=
  let data := rxData sendlen
  let flag := rxFlag sendlen
  let index : Int := ctx.u32Index.toNat
  if ctx.u32Sequence % 2 = 0 then
    let read := if ctx.u32Index = 0x00 then [] else [index - 1]
    if rxLowBefore ctx ^^^ ctx.u32Sequence ≠ flag then
      { ctx := ctx, call := none, subscripts := read }
    else
      let buffer := ctx.buffer.put ctx.u32Index (ctx.buffer.at ctx.u32Index ||| data <<< 4)
      { ctx := { ctx with buffer := buffer, u32Sequence := ctx.u32Sequence + 1 }
        call := none
        subscripts := read ++ [index] }
  else
    if rxHighHere ctx ^^^ ctx.u32Sequence ≠ flag then
      if ctx.u32Index = 0x00 ∧ data ≠ 0x7 then
        { ctx := { ctx with u32Sequence := 0x00 }, call := none, subscripts := [index] }
      else
        { ctx := ctx, call := none, subscripts := [index] }
    else
      let buffer := ctx.buffer.put ctx.u32Index (ctx.buffer.at ctx.u32Index ||| data)
      let u32Index := ctx.u32Index + 1
      let sourceAddr := if u32Index > 0x02 then saddr else ctx.sourceAddr
      -- the `LOG` line reads `buffer[u32Index-1]` on every accepted low nibble
      let last : Int := u32Index.toNat - 1
      if u32Index > 0x02 ∧ buffer.at (u32Index - 1) = END_FLAGS then
        let buffer := buffer.put (u32Index - 1) 0x00
        { ctx := { u32Index := u32Index, u32Sequence := ctx.u32Sequence + 1,
                   sourceAddr := sourceAddr, buffer := buffer }
          call := some { mac := sourceAddr, mac_len := MAC_LEN, buf := buffer.toList.drop 1,
                         len := u32Index.toNat }
          subscripts := [index, index, last, last, last] }
      else
        { ctx := { u32Index := u32Index, u32Sequence := ctx.u32Sequence + 1,
                   sourceAddr := sourceAddr, buffer := buffer }
          call := none
          subscripts := [index, index, last] ++ if u32Index > 0x02 then [last] else [] }

/-! ## Runs -/

/-- What the receiving loop hands to the decoder for one captured frame. -/
structure Frame where
  sendlen : Int
  saddr : Mac
  deriving DecidableEq

/-- One frame as a step of a machine that calls out. -/
def rxStep (ctx : SmartLinkRx) (f : Frame) : SmartLinkRx × Option RxCall :=
  ((smartlinkRxDecode ctx f.sendlen f.saddr).ctx, (smartlinkRxDecode ctx f.sendlen f.saddr).call)

/-- The context after a sequence of frames, from the state set up by `smartLinkRxInit`. -/
def rxAfter (fs : List Frame) : SmartLinkRx := (Mealy.run rxStep smartLinkRxStart fs).1

/-- The callbacks made on a sequence of frames, from the same state. -/
def rxCalls (fs : List Frame) : List RxCall := (Mealy.run rxStep smartLinkRxStart fs).2

theorem rxAfter_concat (fs : List Frame) (f : Frame) :
    rxAfter (fs ++ [f]) = (rxStep (rxAfter fs) f).1 := by
  rw [rxAfter, Mealy.run_concat]; rfl

theorem rxCalls_concat (fs : List Frame) (f : Frame) :
    rxCalls (fs ++ [f]) = rxCalls fs ++ (rxStep (rxAfter fs) f).2.toList := by
  rw [rxCalls, Mealy.run_concat]; rfl

/-- The check value the decoder compares `flag` with. -/
def rxExpected (ctx : SmartLinkRx) : UInt8 :=
  (if ctx.u32Sequence % 2 = 0 then rxLowBefore ctx else rxHighHere ctx) ^^^ ctx.u32Sequence

/-- The decoder takes the data nibble of a frame of this length. -/
def rxAccepts (ctx : SmartLinkRx) (sendlen : Int) : Prop := rxFlag sendlen = rxExpected ctx

instance (ctx : SmartLinkRx) (sendlen : Int) : Decidable (rxAccepts ctx sendlen) :=
  inferInstanceAs (Decidable (_ = _))

/-- The callback hands over `m`, closed by a NUL. -/
def RxCall.Delivers (c : RxCall) (m : List UInt8) : Prop := c.buf.take (m.length + 1) = m ++ [0x00]

instance (c : RxCall) (m : List UInt8) : Decidable (c.Delivers m) :=
  inferInstanceAs (Decidable (_ = _))

end SmartConfig
