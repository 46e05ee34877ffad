import SmartConfig.Bitstream.Basic
import SmartConfig.Common

/-!
# `wlan80211.c`: the radiotap header and the frame behind it

`ieee80211RadiotapHeader` takes the header length from the third captured byte, skips to the end of
the header, and reads the frame type and the source address there. What it returns is the size of
the packet without the two headers and the other 76 bytes around the payload.
-/

namespace SmartConfig

/-- `ieee80211_radiotap`: what a packet leaves behind for the decoder. -/
structure Ieee80211Radiotap where
  frame_type : UInt8
  saddr : Mac
  deriving DecidableEq

/-- `{0}`. -/
def ieee80211RadiotapZero : Ieee80211Radiotap where
  frame_type := 0x00
  saddr := macZero

/-- `bs_read_u8` into a `uint8_t`. -/
def bsReadByte : StateM BsT UInt8 := return (← bsReadU8).toUInt8

/-- The six reads that fill an address. -/
def bsReadMac : StateM BsT Mac := do
  let a0 ← bsReadByte
  let a1 ← bsReadByte
  let a2 ← bsReadByte
  let a3 ← bsReadByte
  let a4 ← bsReadByte
  let a5 ← bsReadByte
  return #v[a0, a1, a2, a3, a4, a5]

/-- `header`: the first three bytes, and the skip to the end of the header that the third one
announces. -/
def readHeader : StateM BsT UInt16 := do
  let _version ← bsReadByte
  let _pad ← bsReadByte
  let length := (← bsReadU8).toUInt16
  let _ ← bsReadU8n (length.toNat - (← bsPos))
  return length

/-- `frame` from behind the frame type to the source address. -/
def readSaddr : StateM BsT Mac := do
  let _ ← bsReadU8
  let _duration ← bsReadU 16
  let _daddr ← bsReadMac
  let _wifiaddr ← bsReadMac
  bsReadMac

/-- `ieee80211RadiotapHeader` between `bs_new` and `bs_free`: the result, and `*radiotap`
afterwards. -/
def radiotapHeader (radiotap : Ieee80211Radiotap) (size : Int) :
    StateM BsT (Int × Ieee80211Radiotap) := do
  let length ← readHeader
  let frame_type ← bsReadByte
  let radiotap := { radiotap with frame_type := frame_type }
  if frame_type ≠ 0x08 then
    return (SMART_FAIL, radiotap)
  let saddr ← readSaddr
  return (size - length.toNat - 76, { radiotap with saddr := saddr })

/-- `ieee80211RadiotapHeader`, on the first `size` bytes of `buffer`. -/
def ieee80211RadiotapHeader (radiotap : Ieee80211Radiotap) (buffer : List UInt8) (size : Nat) :
    Int × Ieee80211Radiotap :=
  (radiotapHeader radiotap size (bsInit buffer size)).1

/-! ## Any packet -/

/-- The length field, the frame type and the address that the parser finds. -/
def foundLength (b : BsT) : UInt16 := (readHeader b).1

def foundType (b : BsT) : UInt8 := (bsReadByte (readHeader b).2).1

def foundSaddr (b : BsT) : Mac := (readSaddr (bsReadByte (readHeader b).2).2).1

/-- What the parser does with what it finds: another frame type than 0x08 is a failure and leaves
the address alone. -/
theorem ieee80211RadiotapHeader_eq (radiotap : Ieee80211Radiotap) (buffer : List UInt8)
    (size : Nat) :
    ieee80211RadiotapHeader radiotap buffer size =
      if foundType (bsInit buffer size) ≠ 0x08 then
        (SMART_FAIL, { radiotap with frame_type := foundType (bsInit buffer size) })
      else
        (size - (foundLength (bsInit buffer size)).toNat - 76,
          { frame_type := foundType (bsInit buffer size)
            saddr := foundSaddr (bsInit buffer size) }) := by
  rw [ieee80211RadiotapHeader, radiotapHeader, bind_run, bind_run, foundType, foundLength,
    foundSaddr]
  by_cases h : (bsReadByte (readHeader (bsInit buffer size)).2).1 ≠ 0x08
  · rw [if_pos h, if_pos h, pure_run]
  · rw [if_neg h, if_neg h, bind_run, pure_run]

/-- A result is a failure, or at most what 76 bytes leave of the size. -/
theorem ieee80211RadiotapHeader_le (radiotap : Ieee80211Radiotap) (buffer : List UInt8)
    (size : Nat) :
    (ieee80211RadiotapHeader radiotap buffer size).1 = SMART_FAIL ∨
      (ieee80211RadiotapHeader radiotap buffer size).1 ≤ size - 76 := by
  rw [ieee80211RadiotapHeader_eq]
  split
  · exact Or.inl rfl
  · refine Or.inr ?_
    show (size : Int) - (foundLength (bsInit buffer size)).toNat - 76 ≤ size - 76
    omega

/-- The result does not depend on what `*radiotap` holds, and a result other than a failure
overwrites all of it. -/
theorem ieee80211RadiotapHeader_fresh (radiotap radiotap' : Ieee80211Radiotap)
    (buffer : List UInt8) (size : Nat) :
    (ieee80211RadiotapHeader radiotap buffer size).1 =
        (ieee80211RadiotapHeader radiotap' buffer size).1 ∧
      ((ieee80211RadiotapHeader radiotap buffer size).1 ≠ SMART_FAIL →
        ieee80211RadiotapHeader radiotap buffer size =
          ieee80211RadiotapHeader radiotap' buffer size) := by
  rw [ieee80211RadiotapHeader_eq, ieee80211RadiotapHeader_eq radiotap']
  split
  · exact ⟨rfl, fun h => absurd rfl h⟩
  · exact ⟨rfl, fun _ => rfl⟩

/-! ## What it finds

Each field is the byte at its offset, or zero where the packet has ended. -/

/-- The offset behind the header: its length, or three when the cursor is past that already. -/
def headerEnd (packet : List UInt8) : Nat := max (packet.getD 2 0).toNat 3

section Fields

variable {buf : List UInt8} {p : Nat} {b : BsT}

theorem AtByte.bsReadByte_next (h : AtByte buf p b) : AtByte buf (p + 1) (bsReadByte b).2 :=
  h.bsReadU8_next

theorem AtByte.bsReadByte_getD (h : AtByte buf p b) : (bsReadByte b).1 = buf.getD p 0 := by
  rw [bsReadByte, bind_run, pure_run, h.bsReadU8_getD]
  simp

theorem AtByte.bsReadMac_next (h : AtByte buf p b) : AtByte buf (p + 6) (bsReadMac b).2 := by
  have h3 := h.bsReadByte_next.bsReadByte_next.bsReadByte_next
  have h6 := h3.bsReadByte_next.bsReadByte_next.bsReadByte_next
  rw [bsReadMac]
  simp only [bind_run, pure_run]
  exact h6

theorem AtByte.bsReadMac_getD (h : AtByte buf p b) (i : Nat) (hi : i < MAC_LEN) :
    (bsReadMac b).1[i] = buf.getD (p + i) 0 := by
  have h1 := h.bsReadByte_next
  have h2 := h1.bsReadByte_next
  have h3 := h2.bsReadByte_next
  have h4 := h3.bsReadByte_next
  have h5 := h4.bsReadByte_next
  have hmac : (bsReadMac b).1 = #v[buf.getD p 0, buf.getD (p + 1) 0, buf.getD (p + 1 + 1) 0,
      buf.getD (p + 1 + 1 + 1) 0, buf.getD (p + 1 + 1 + 1 + 1) 0,
      buf.getD (p + 1 + 1 + 1 + 1 + 1) 0] := by
    simp only [bsReadMac, bind_run, pure_run, h.bsReadByte_getD, h1.bsReadByte_getD,
      h2.bsReadByte_getD, h3.bsReadByte_getD, h4.bsReadByte_getD, h5.bsReadByte_getD]
    rfl
  rw [hmac]
  match i, hi with
  | 0, _ => rfl
  | 1, _ => rfl
  | 2, _ => rfl
  | 3, _ => rfl
  | 4, _ => rfl
  | 5, _ => rfl

/-- The bytes from the third one to the end of the header. A packet that ends before its length byte
announces no header at all. -/
theorem skipped_eq (buf : List UInt8) :
    (((buf.getD 2 0).toUInt16.toNat : Int) - (min 3 buf.length : Nat)).toNat =
      headerEnd buf - 3 := by
  rw [headerEnd, UInt8.toNat_toUInt16]
  rcases Nat.lt_or_ge 2 buf.length with hlen | hlen
  · omega
  · have h0 : (buf.getD 2 0).toNat = 0 := by
      rw [List.getD_eq_getElem?_getD, List.getElem?_eq_none hlen]
      rfl
    omega

/-- The header length is the third byte, and the skip leads to that offset, or nowhere when it is
behind the cursor. -/
theorem AtByte.readHeader_getD (h : AtByte buf 0 b) :
    (readHeader b).1 = (buf.getD 2 0).toUInt16 ∧ AtByte buf (headerEnd buf) (readHeader b).2 := by
  have h2 : AtByte buf 2 _ := h.bsReadByte_next.bsReadByte_next
  have h3 : AtByte buf 3 _ := h2.bsReadU8_next
  have hskip := h3.bsReadU8n_next
    (((buf.getD 2 0).toUInt16.toNat : Int) - (min 3 buf.length : Nat))
  have hend : 3 + (headerEnd buf - 3) = headerEnd buf := by
    rw [headerEnd]
    omega
  rw [skipped_eq, hend] at hskip
  rw [readHeader]
  simp only [bind_run, pure_run, h2.bsReadU8_getD, h3.bsPos_min, UInt8.toUInt16_toUInt32]
  exact ⟨trivial, hskip⟩

theorem AtByte.readSaddr_getD (h : AtByte buf p b) (i : Nat) (hi : i < MAC_LEN) :
    (readSaddr b).1[i] = buf.getD (p + 15 + i) 0 := by
  have hduration : AtByte buf (p + 1 + 2) (bsReadU 16 (bsReadU8 b).2).2 :=
    h.bsReadU8_next.bsReadU_next 2
  have hmac := hduration.bsReadMac_next.bsReadMac_next
  have hval := hmac.bsReadMac_getD i hi
  rw [show p + 1 + 2 + 6 + 6 + i = p + 15 + i from by omega] at hval
  rw [readSaddr, bind_run, bind_run, bind_run, bind_run]
  exact hval

end Fields

section Found

variable (buffer : List UInt8) (size : Nat)

theorem foundLength_eq :
    foundLength (bsInit buffer size) = ((buffer.take size).getD 2 0).toUInt16 :=
  (atByte_bsInit buffer size).readHeader_getD.1

theorem foundType_eq :
    foundType (bsInit buffer size) =
      (buffer.take size).getD (headerEnd (buffer.take size)) 0 :=
  (atByte_bsInit buffer size).readHeader_getD.2.bsReadByte_getD

theorem foundSaddr_eq (i : Nat) (hi : i < MAC_LEN) :
    (foundSaddr (bsInit buffer size))[i] =
      (buffer.take size).getD (headerEnd (buffer.take size) + 16 + i) 0 := by
  have hsaddr := (atByte_bsInit buffer size).readHeader_getD.2.bsReadByte_next.readSaddr_getD i hi
  rw [show headerEnd (buffer.take size) + 1 + 15 + i = headerEnd (buffer.take size) + 16 + i
    from by omega] at hsaddr
  exact hsaddr

end Found

/-- **A captured data frame**: the parser lands on the frame type behind the header, and returns
the size without the headers and the address of the sender. -/
theorem ieee80211RadiotapHeader_captured {packet : List UInt8} {L : UInt8} {a : Mac}
    (hL : packet[2]? = some L) (h3 : 3 ≤ L.toNat) (htype : packet[L.toNat]? = some 0x08)
    (ha : ∀ (i : Nat) (hi : i < MAC_LEN), packet[L.toNat + 16 + i]? = some a[i])
    (radiotap : Ieee80211Radiotap) :
    ieee80211RadiotapHeader radiotap packet packet.length =
      ((packet.length : Int) - L.toNat - 76, { frame_type := 0x08, saddr := a }) := by
  have hlength := foundLength_eq packet packet.length
  have hfound := foundType_eq packet packet.length
  have hsaddr := foundSaddr_eq packet packet.length
  have hend : headerEnd packet = L.toNat := by
    rw [headerEnd, List.getD_eq_getElem?_getD, hL, Option.getD_some, Nat.max_eq_left h3]
  rw [List.take_length, List.getD_eq_getElem?_getD, hL, Option.getD_some] at hlength
  rw [List.take_length, hend, List.getD_eq_getElem?_getD, htype, Option.getD_some] at hfound
  have haddr : foundSaddr (bsInit packet packet.length) = a := by
    apply Vector.ext
    intro i hi
    rw [hsaddr i hi, List.take_length, hend, List.getD_eq_getElem?_getD, ha i hi, Option.getD_some]
  rw [ieee80211RadiotapHeader_eq, hfound, if_neg (by decide), haddr, hlength,
    UInt8.toNat_toUInt16]

end SmartConfig
