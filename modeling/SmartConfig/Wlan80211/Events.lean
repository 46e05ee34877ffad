import SmartConfig.Bitstream.Events
import SmartConfig.Wlan80211.Accepted

/-!
# `wlan80211.c`: what parsing does on the way

The parser over the reads that note what they do. All it reads lies before the end of the sender's
address, and the longest count it hands to `bs_read_u` is the skip over the header.

* `captured_of_pos` — a positive result rests on captured bytes only.
* `shifts_defined_iff` — the skip is where a shift can leave the 32 bits of its operand.
-/

namespace SmartConfig

open Traced

namespace Noted

/-- `bs_read_u8` into a `uint8_t`. -/
def bsReadByte : Traced BsT BsAct UInt8 := return (← bsReadU8).toUInt8

theorem size_mac (a0 a1 a2 a3 a4 a5 : UInt8) : #[a0, a1, a2, a3, a4, a5].size = MAC_LEN := rfl

/-- The six reads that fill an address. -/
def bsReadMac : Traced BsT BsAct Mac := do
  let a0 ← bsReadByte
  let a1 ← bsReadByte
  let a2 ← bsReadByte
  let a3 ← bsReadByte
  let a4 ← bsReadByte
  let a5 ← bsReadByte
  return ⟨#[a0, a1, a2, a3, a4, a5], size_mac a0 a1 a2 a3 a4 a5⟩

/-- `header`. -/
def readHeader : Traced BsT BsAct UInt16 := do
  let _version ← bsReadByte
  let _pad ← bsReadByte
  let length := (← bsReadU8).toUInt16
  let _ ← bsReadU8n (length.toNat - (← lift bsPos))
  return length

/-- `frame` from behind the frame type to the source address. -/
def readSaddr : Traced BsT BsAct Mac := do
  let _ ← bsReadU8
  let _duration ← bsReadU 16
  let _daddr ← bsReadMac
  let _wifiaddr ← bsReadMac
  bsReadMac

/-- `ieee80211RadiotapHeader` between `bs_new` and `bs_free`. -/
def radiotapHeader (radiotap : Ieee80211Radiotap) (size : Int) :
    Traced BsT BsAct (Int × Ieee80211Radiotap) := do
  let length ← readHeader
  let frame_type ← bsReadByte
  let radiotap := { radiotap with frame_type := frame_type }
  if frame_type ≠ 0x08 then
    return (SMART_FAIL, radiotap)
  let saddr ← readSaddr
  return (size - length.toNat - 76, { radiotap with saddr := saddr })

/-! ## The same parser -/

theorem traces_bsReadByte : Traces bsReadByte SmartConfig.bsReadByte :=
  traces_bsReadU8.bind fun _ => traces_pure _

theorem traces_bsReadMac : Traces bsReadMac SmartConfig.bsReadMac :=
  traces_bsReadByte.bind fun _ => traces_bsReadByte.bind fun _ => traces_bsReadByte.bind fun _ =>
    traces_bsReadByte.bind fun _ => traces_bsReadByte.bind fun _ => traces_bsReadByte.bind fun _ =>
      traces_pure _

theorem traces_readHeader : Traces readHeader SmartConfig.readHeader :=
  traces_bsReadByte.bind fun _ => traces_bsReadByte.bind fun _ => traces_bsReadU8.bind fun _ =>
    (traces_lift bsPos).bind fun _ => (traces_bsReadU8n _).bind fun _ => traces_pure _

theorem traces_readSaddr : Traces readSaddr SmartConfig.readSaddr :=
  traces_bsReadU8.bind fun _ => (traces_bsReadU 16).bind fun _ => traces_bsReadMac.bind fun _ =>
    traces_bsReadMac.bind fun _ => traces_bsReadMac

theorem traces_radiotapHeader (radiotap : Ieee80211Radiotap) (size : Int) :
    Traces (radiotapHeader radiotap size) (SmartConfig.radiotapHeader radiotap size) := by
  refine traces_readHeader.bind fun _ => traces_bsReadByte.bind fun frame_type => ?_
  split
  · exact traces_pure _
  · exact traces_readSaddr.bind fun _ => traces_pure _

end Noted

/-- What `ieee80211RadiotapHeader` does on the first `size` bytes of `buffer`, in order. -/
def parserEvents (radiotap : Ieee80211Radiotap) (buffer : List UInt8) (size : Nat) :
    List BsAct :=
  (Noted.radiotapHeader radiotap size).events (bsInit buffer size)

/-- The parser that notes what it does is the parser. -/
theorem ieee80211RadiotapHeader_eq_noted (radiotap : Ieee80211Radiotap) (buffer : List UInt8)
    (size : Nat) :
    (Noted.radiotapHeader radiotap size).value (bsInit buffer size) =
      ieee80211RadiotapHeader radiotap buffer size :=
  (Noted.traces_radiotapHeader radiotap size).value_eq _

/-! ## Where it reads -/

section Emits

variable {buf : List UInt8} {p hi n : Nat} {b : BsT}

theorem AtByte.emits_bsReadByte (h : AtByte buf p b) (hp : p + 1 ≤ hi) (hn : 8 ≤ n) :
    Emits (ReadEvent buf hi n) Noted.bsReadByte b :=
  Noted.traces_bsReadU8.emits_bind (h.emits_bsReadU8 hp hn) (emits_pure _ _)

theorem AtByte.emits_bsReadMac (h : AtByte buf p b) (hp : p + 6 ≤ hi) (hn : 8 ≤ n) :
    Emits (ReadEvent buf hi n) Noted.bsReadMac b := by
  have h1 := h.bsReadByte_next
  have h2 := h1.bsReadByte_next
  have h3 := h2.bsReadByte_next
  have h4 := h3.bsReadByte_next
  have h5 := h4.bsReadByte_next
  have ht := Noted.traces_bsReadByte
  apply ht.emits_bind (h.emits_bsReadByte (by omega) hn)
  apply ht.emits_bind (h1.emits_bsReadByte (by omega) hn)
  apply ht.emits_bind (h2.emits_bsReadByte (by omega) hn)
  apply ht.emits_bind (h3.emits_bsReadByte (by omega) hn)
  apply ht.emits_bind (h4.emits_bsReadByte (by omega) hn)
  apply ht.emits_bind (h5.emits_bsReadByte (by omega) hn)
  exact emits_pure _ _

/-- The header and the skip: the longest count is the one of the skip. -/
theorem AtByte.emits_readHeader (h : AtByte buf 0 b) (hhi : headerEnd buf ≤ hi) (hn : 8 ≤ n)
    (hskip : 8 * (headerEnd buf - 3) ≤ n) :
    Emits (ReadEvent buf hi n) Noted.readHeader b := by
  have h1 := h.bsReadByte_next
  have h2 : AtByte buf 2 _ := h1.bsReadByte_next
  have h3 : AtByte buf 3 _ := h2.bsReadU8_next
  have hend : 3 ≤ headerEnd buf := Nat.le_max_right _ _
  have hcount := skipped_eq buf
  apply Noted.traces_bsReadByte.emits_bind (h.emits_bsReadByte (by omega) hn)
  apply Noted.traces_bsReadByte.emits_bind (h1.emits_bsReadByte (by omega) hn)
  apply Noted.traces_bsReadU8.emits_bind (h2.emits_bsReadU8 (by omega) hn)
  refine (traces_lift bsPos).emits_bind (emits_lift _ _) ?_
  rw [h2.bsReadU8_getD, h3.bsPos_min, UInt8.toUInt16_toUInt32]
  refine (Noted.traces_bsReadU8n _).emits_bind (h3.emits_bsReadU8n ?_ ?_ hn) (emits_pure _ _)
  · rw [hcount]
    omega
  · rw [hcount]
    exact hskip

/-- A header behind the cursor is skipped bit by bit, in one count. -/
theorem AtByte.shift_mem_readHeader (h : AtByte buf 0 b) (hend : 3 < headerEnd buf) :
    BsAct.shift (8 * (headerEnd buf - 3) - 1) ∈ Noted.readHeader.events b := by
  have h2 : AtByte buf 2 _ := h.bsReadByte_next.bsReadByte_next
  have h3 : AtByte buf 3 _ := h2.bsReadU8_next
  have hcount := skipped_eq buf
  rw [Noted.readHeader, Noted.traces_bsReadByte.mem_bind, Noted.traces_bsReadByte.mem_bind,
    Noted.traces_bsReadU8.mem_bind, (traces_lift bsPos).mem_bind, h2.bsReadU8_getD, h3.bsPos_min,
    UInt8.toUInt16_toUInt32, (Noted.traces_bsReadU8n _).mem_bind, ← hcount]
  exact Or.inr (Or.inr (Or.inr (Or.inr (Or.inl (shift_mem_bsReadU8n (by omega) _)))))

theorem AtByte.emits_readSaddr (h : AtByte buf p b) (hp : p + 21 ≤ hi) (hn : 16 ≤ n) :
    Emits (ReadEvent buf hi n) Noted.readSaddr b := by
  have h1 := h.bsReadU8_next
  have h3 : AtByte buf (p + 1 + 2) (bsReadU 16 (bsReadU8 b).2).2 := h1.bsReadU_next 2
  have h9 := h3.bsReadMac_next
  have h15 := h9.bsReadMac_next
  have hduration : Emits (ReadEvent buf hi n) (Noted.bsReadU 16) (bsReadU8 b).2 :=
    h1.emits_bsReadU8n (k := 2) (by change p + 1 + 2 ≤ hi; omega) hn (by omega)
  apply Noted.traces_bsReadU8.emits_bind (h.emits_bsReadU8 (by omega) (by omega))
  apply (Noted.traces_bsReadU 16).emits_bind hduration
  apply Noted.traces_bsReadMac.emits_bind (h3.emits_bsReadMac (by omega) (by omega))
  apply Noted.traces_bsReadMac.emits_bind (h9.emits_bsReadMac (by omega) (by omega))
  exact h15.emits_bsReadMac (by omega) (by omega)

end Emits

/-- Everything the parser does: it stays before the end of the sender's address, and its counts are
at most 16 bits and the length of the skip. -/
theorem emits_radiotapHeader (radiotap : Ieee80211Radiotap) (buffer : List UInt8) (size : Nat) :
    Emits (ReadEvent (buffer.take size) (headerEnd (buffer.take size) + 22)
        (max 16 (8 * (headerEnd (buffer.take size) - 3))))
      (Noted.radiotapHeader radiotap size) (bsInit buffer size) := by
  have h := atByte_bsInit buffer size
  have htype := h.readHeader_getD.2
  refine Noted.traces_readHeader.emits_bind
    (h.emits_readHeader (by omega) (by omega) (Nat.le_max_right _ _)) ?_
  refine Noted.traces_bsReadByte.emits_bind
    (htype.emits_bsReadByte (by omega) (by omega)) ?_
  split
  · exact emits_pure _ _
  · exact Noted.traces_readSaddr.emits_bind
      (htype.bsReadByte_next.emits_readSaddr (by omega) (Nat.le_max_left _ _)) (emits_pure _ _)

/-! ## Captured bytes only -/

/-- The result rests on bytes that were captured: the length byte `L`, the frame type behind the
header and the address of the sender, all of them inside the first `size` bytes, and no read made up
a bit. -/
structure RestsOnCaptured (radiotap : Ieee80211Radiotap) (buffer : List UInt8) (size : Nat)
    (L : UInt8) : Prop where
  length : buffer[2]? = some L
  result : (ieee80211RadiotapHeader radiotap buffer size).1 = size - L.toNat - 76
  data : buffer[max L.toNat 3]? = some 0x08
  inside : max L.toNat 3 + 22 ≤ size
  frame_type : buffer[max L.toNat 3]? =
    some (ieee80211RadiotapHeader radiotap buffer size).2.frame_type
  saddr : ∀ (i : Nat) (hi : i < MAC_LEN), buffer[max L.toNat 3 + 16 + i]? =
    some ((ieee80211RadiotapHeader radiotap buffer size).2.saddr[i])
  unpadded : BsAct.pad ∉ parserEvents radiotap buffer size

/-- The bytes behind `size` do not matter. -/
theorem ieee80211RadiotapHeader_take (radiotap : Ieee80211Radiotap) {buffer : List UInt8}
    {size : Nat} (hsize : size ≤ buffer.length) :
    ieee80211RadiotapHeader radiotap buffer size =
      ieee80211RadiotapHeader radiotap (buffer.take size) (buffer.take size).length := by
  rw [ieee80211RadiotapHeader, ieee80211RadiotapHeader, bsInit, bsInit, List.take_length,
    List.length_take_of_le hsize]

/-- No byte behind the first `size` ones is loaded. -/
theorem lt_of_load_mem (radiotap : Ieee80211Radiotap) (buffer : List UInt8) (size : Nat) {p : Nat}
    (h : BsAct.load p ∈ parserEvents radiotap buffer size) : p < size := by
  have hload : p < (buffer.take size).length := emits_radiotapHeader radiotap buffer size _ h
  have hle := List.length_take_le size buffer
  omega

/-- A packet that reaches past the address of the sender is read without padding. -/
theorem not_pad_mem (radiotap : Ieee80211Radiotap) {buffer : List UInt8} {size : Nat}
    (h : headerEnd (buffer.take size) + 22 ≤ (buffer.take size).length) :
    BsAct.pad ∉ parserEvents radiotap buffer size := by
  intro hpad
  have hshort : (buffer.take size).length < headerEnd (buffer.take size) + 22 :=
    emits_radiotapHeader radiotap buffer size _ hpad
  omega

theorem Accepted.restsOnCaptured (radiotap : Ieee80211Radiotap) {buffer : List UInt8} {size : Nat}
    (hsize : size ≤ buffer.length) (h : Accepted (buffer.take size)) :
    RestsOnCaptured radiotap buffer size ((buffer.take size).getD 2 0) := by
  have hlength : (buffer.take size).length = size := List.length_take_of_le hsize
  have htake := ieee80211RadiotapHeader_take radiotap hsize
  have hend := h.headerEnd_lt
  have hinside : headerEnd (buffer.take size) + 22 ≤ size := by omega
  have hbyte : ∀ i, i < size → (buffer.take size)[i]? = buffer[i]? :=
    fun i hi => List.getElem?_take_of_lt hi
  have hdata : buffer[headerEnd (buffer.take size)]? = some 0x08 :=
    (hbyte _ (by omega)).symm.trans h.2
  have hsnd := ieee80211RadiotapHeader_snd radiotap buffer size h.2
  refine ⟨?_, ?_, hdata, hinside, ?_, fun i hi => ?_, not_pad_mem radiotap hend⟩
  · have h2 : 2 < (buffer.take size).length := by omega
    rw [← hbyte 2 (by omega), List.getD_eq_getElem?_getD, List.getElem?_eq_getElem h2,
      Option.getD_some]
  · rw [htake, h.size_eq radiotap, hlength]
  · rw [hsnd.1]
    exact hdata
  · have hsix : i < 6 := hi
    have hsaddr := h.saddr_eq radiotap i hi
    rw [← htake, hbyte _ (by omega)] at hsaddr
    exact hsaddr

/-- **A positive result rests on captured bytes**, and whatever the result, the parser loads no byte
from behind the first `size` ones. (The events are those of the run that returns the result:
`ieee80211RadiotapHeader_eq_noted`.) -/
theorem captured_of_pos (radiotap : Ieee80211Radiotap) (buffer : List UInt8) (size : Nat)
    (hsize : size ≤ buffer.length) :
    (∀ p, BsAct.load p ∈ parserEvents radiotap buffer size → p < size) ∧
      (0 < (ieee80211RadiotapHeader radiotap buffer size).1 →
        ∃ L, RestsOnCaptured radiotap buffer size L) := by
  refine ⟨fun p => lt_of_load_mem radiotap buffer size, fun hpos => ?_⟩
  rw [ieee80211RadiotapHeader_take radiotap hsize, ieee80211RadiotapHeader_pos_iff] at hpos
  exact ⟨_, hpos.restsOnCaptured radiotap hsize⟩

/-- A packet with eight bytes of header and six of payload. -/
theorem captured_of_pos_accepted :
    ∃ L, RestsOnCaptured ieee80211RadiotapZero (List.replicate 90 0x08) 90 L :=
  (captured_of_pos ieee80211RadiotapZero (List.replicate 90 0x08) 90 (by decide)).2
    (by rw [ieee80211RadiotapHeader_fst]; decide)

/-! ## Shifts -/

/-- A header of more than three bytes is skipped in one count. -/
theorem shift_mem_parserEvents (radiotap : Ieee80211Radiotap) {buffer : List UInt8} {size : Nat}
    (hend : 3 < headerEnd (buffer.take size)) :
    BsAct.shift (8 * (headerEnd (buffer.take size) - 3) - 1) ∈
      parserEvents radiotap buffer size :=
  Noted.traces_readHeader.mem_bind.mpr
    (Or.inl ((atByte_bsInit buffer size).shift_mem_readHeader hend))

/-- **Every shift stays inside its operand** exactly when there is no third byte or it announces at
most seven bytes: from eight on, the skip over the header shifts by 39 and more. -/
theorem shifts_defined_iff (radiotap : Ieee80211Radiotap) (buffer : List UInt8) (size : Nat) :
    (∀ k, BsAct.shift k ∈ parserEvents radiotap buffer size → k < 32) ↔
      ∀ L, (buffer.take size)[2]? = some L → L.toNat ≤ 7 := by
  constructor
  · intro hshifts L hL
    by_contra hlong
    have hgetD : (buffer.take size).getD 2 0 = L := by
      rw [List.getD_eq_getElem?_getD, hL, Option.getD_some]
    have hend : headerEnd (buffer.take size) = L.toNat := by
      rw [headerEnd, hgetD, Nat.max_eq_left (by omega)]
    have hskip := hshifts _ (shift_mem_parserEvents radiotap (by omega))
    omega
  · intro hshort k hk
    have hk : k < max 16 (8 * (headerEnd (buffer.take size) - 3)) :=
      emits_radiotapHeader radiotap buffer size _ hk
    have hL : ((buffer.take size).getD 2 0).toNat ≤ 7 := by
      rw [List.getD_eq_getElem?_getD]
      cases hbyte : (buffer.take size)[2]? with
      | none => decide
      | some L => exact hshort L hbyte
    rw [headerEnd] at hk
    omega

/-- The eight bytes of the shortest radiotap header are enough. -/
theorem exists_shift_undefined :
    ¬ ∀ k, BsAct.shift k ∈ parserEvents ieee80211RadiotapZero (List.replicate 90 0x08) 90 →
      k < 32 := by
  intro hshifts
  have hend : headerEnd ((List.replicate 90 0x08).take 90) = 8 := by decide
  have hskip := hshifts _ (shift_mem_parserEvents ieee80211RadiotapZero (by rw [hend]; decide))
  rw [hend] at hskip
  exact absurd hskip (by decide)

end SmartConfig
