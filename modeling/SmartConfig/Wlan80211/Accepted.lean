import SmartConfig.Wlan80211

/-!
# `wlan80211.c`: which packets are accepted

The receiver takes a packet when `ieee80211RadiotapHeader` returns a positive size. `Accepted` says
which packets these are, in terms of their bytes.

The format has its own idea of the matter, `WellFormed`: the length of the radiotap header is a
16-bit field (`header.length` is a `uint16_t`), the low byte first, and covers the eight bytes that
every such header has. The parser reads the field with `bs_read_u8`, so that it takes the low byte
for the length, and it has no lower bound for it.
-/

namespace SmartConfig

/-- The packets with a positive result. -/
def Accepted (packet : List UInt8) : Prop :=
  (packet.getD 2 0).toNat + 76 < packet.length ∧ packet[headerEnd packet]? = some 0x08

instance (packet : List UInt8) : Decidable (Accepted packet) :=
  inferInstanceAs (Decidable (_ ∧ _))

section Result

variable (radiotap : Ieee80211Radiotap) (buffer : List UInt8) (size : Nat)

/-- The result, for a packet of any content and size. -/
theorem ieee80211RadiotapHeader_fst :
    (ieee80211RadiotapHeader radiotap buffer size).1 =
      if (buffer.take size)[headerEnd (buffer.take size)]? = some 0x08 then
        (size : Int) - ((buffer.take size).getD 2 0).toNat - 76
      else SMART_FAIL := by
  have htype : foundType (bsInit buffer size) = 0x08 ↔
      (buffer.take size)[headerEnd (buffer.take size)]? = some 0x08 := by
    rw [foundType_eq, List.getD_eq_getElem?_getD]
    cases (buffer.take size)[headerEnd (buffer.take size)]? with
    | none => simp
    | some v => simp
  rw [ieee80211RadiotapHeader_eq, foundLength_eq]
  by_cases h : foundType (bsInit buffer size) = 0x08
  · rw [if_neg (not_not_intro h), if_pos (htype.mp h), UInt8.toNat_toUInt16]
  · rw [if_pos h, if_neg fun hsome => h (htype.mpr hsome)]

/-- What `*radiotap` holds after a result other than a failure. -/
theorem ieee80211RadiotapHeader_snd
    (h : (buffer.take size)[headerEnd (buffer.take size)]? = some 0x08) :
    (ieee80211RadiotapHeader radiotap buffer size).2.frame_type = 0x08 ∧
      ∀ (i : Nat) (hi : i < MAC_LEN),
        (ieee80211RadiotapHeader radiotap buffer size).2.saddr[i] =
          (buffer.take size).getD (headerEnd (buffer.take size) + 16 + i) 0 := by
  have htype : foundType (bsInit buffer size) = 0x08 := by
    rw [foundType_eq, List.getD_eq_getElem?_getD, h, Option.getD_some]
  have hsaddr : (ieee80211RadiotapHeader radiotap buffer size).2.saddr =
      foundSaddr (bsInit buffer size) := by
    rw [ieee80211RadiotapHeader_eq, if_neg (not_not_intro htype)]
  refine ⟨?_, fun i hi => ?_⟩
  · rw [ieee80211RadiotapHeader_eq, if_neg (not_not_intro htype)]
    dsimp only
    exact htype
  · rw [hsaddr]
    exact foundSaddr_eq buffer size i hi

end Result

variable {packet : List UInt8} (radiotap : Ieee80211Radiotap)

/-- The packets with a positive result are the accepted ones. -/
theorem ieee80211RadiotapHeader_pos_iff :
    0 < (ieee80211RadiotapHeader radiotap packet packet.length).1 ↔ Accepted packet := by
  rw [ieee80211RadiotapHeader_fst, List.take_length, Accepted]
  split
  · next htype =>
    constructor
    · exact fun hpos => ⟨by omega, htype⟩
    · exact fun hacc => by omega
  · next htype =>
    constructor
    · exact fun hpos => absurd hpos (by decide)
    · exact fun hacc => absurd hacc.2 htype

/-- An accepted packet reaches past the address of the sender: 76 bytes and more follow the
header. -/
theorem Accepted.headerEnd_lt (h : Accepted packet) : headerEnd packet + 22 ≤ packet.length := by
  obtain ⟨hlen, -⟩ := h
  rw [headerEnd]
  omega

theorem Accepted.size_eq (h : Accepted packet) :
    (ieee80211RadiotapHeader radiotap packet packet.length).1 =
      packet.length - (packet.getD 2 0).toNat - 76 := by
  rw [ieee80211RadiotapHeader_fst, List.take_length, if_pos h.2]

/-- The address of an accepted packet is captured. -/
theorem Accepted.saddr_eq (h : Accepted packet) (i : Nat) (hi : i < MAC_LEN) :
    packet[headerEnd packet + 16 + i]? =
      some ((ieee80211RadiotapHeader radiotap packet packet.length).2.saddr[i]) := by
  have hin : headerEnd packet + 16 + i < packet.length := by
    have hend := h.headerEnd_lt
    have hsix : i < 6 := hi
    omega
  have hsnd := ieee80211RadiotapHeader_snd radiotap packet packet.length
  rw [List.take_length] at hsnd
  rw [(hsnd h.2).2 i hi, List.getD_eq_getElem?_getD, List.getElem?_eq_getElem hin,
    Option.getD_some]

/-! ## Well-formed captures -/

/-- `header.length` as the format defines it: bytes 2 and 3, the low one first. -/
def headerLength (packet : List UInt8) : Nat :=
  (packet.getD 2 0).toNat + 256 * (packet.getD 3 0).toNat

/-- A data frame behind a radiotap header, with more than the 76 bytes around a payload. -/
structure WellFormed (packet : List UInt8) : Prop where
  fixed : 8 ≤ packet.length
  header : 8 ≤ headerLength packet
  frame : headerLength packet + 76 < packet.length
  type : packet[headerLength packet]? = some 0x08

/-- The parser accepts a packet when it is well formed, and only then; and it finds the size of the
payload and the address where the format has them. -/
structure ParsesFormat (radiotap : Ieee80211Radiotap) (packet : List UInt8) : Prop where
  accepts : 0 < (ieee80211RadiotapHeader radiotap packet packet.length).1 ↔ WellFormed packet
  size : 0 < (ieee80211RadiotapHeader radiotap packet packet.length).1 →
    (ieee80211RadiotapHeader radiotap packet packet.length).1 =
      packet.length - headerLength packet - 76
  saddr : 0 < (ieee80211RadiotapHeader radiotap packet packet.length).1 →
    ∀ (i : Nat) (hi : i < MAC_LEN), packet[headerLength packet + 16 + i]? =
      some ((ieee80211RadiotapHeader radiotap packet packet.length).2.saddr[i])

/-- With a second length byte of zero, the field is the first one. -/
theorem headerLength_eq (hhigh : packet.getD 3 0 = 0) :
    headerLength packet = (packet.getD 2 0).toNat := by
  rw [headerLength, hhigh]
  rfl

/-- With a first one of eight or more besides, the parser and the format mean the same offset. -/
theorem headerEnd_eq_headerLength (hlow : 8 ≤ (packet.getD 2 0).toNat)
    (hhigh : packet.getD 3 0 = 0) : headerEnd packet = headerLength packet := by
  rw [headerEnd, headerLength_eq hhigh, Nat.max_eq_left (by omega)]

theorem accepted_iff_wellFormed (hlow : 8 ≤ (packet.getD 2 0).toNat)
    (hhigh : packet.getD 3 0 = 0) : Accepted packet ↔ WellFormed packet := by
  have hlength := headerLength_eq hhigh
  have hend := headerEnd_eq_headerLength hlow hhigh
  constructor
  · rintro ⟨hsize, htype⟩
    exact ⟨by omega, by omega, by omega, by rwa [← hend]⟩
  · rintro ⟨-, -, hsize, htype⟩
    exact ⟨by omega, by rwa [hend]⟩

/-- A packet that is accepted and parsed as the format says has a one-byte header length. -/
theorem high_eq_zero_of_size (hacc : Accepted packet)
    (hsize : (ieee80211RadiotapHeader radiotap packet packet.length).1 =
      packet.length - headerLength packet - 76) : packet.getD 3 0 = 0 := by
  rw [hacc.size_eq, headerLength] at hsize
  have hzero : (packet.getD 3 0).toNat = 0 := by omega
  exact UInt8.toNat_inj.mp hzero

/-- **The parser follows the format exactly** on the packets whose header length is below 256 and at
least 8, and on those that neither of them accepts. -/
theorem parsesFormat_iff (packet : List UInt8) :
    ParsesFormat radiotap packet ↔
      packet.getD 3 0 = 0 ∧ 8 ≤ (packet.getD 2 0).toNat ∨
        ¬ Accepted packet ∧ ¬ WellFormed packet := by
  constructor
  · intro h
    by_cases hacc : Accepted packet
    · have hpos := (ieee80211RadiotapHeader_pos_iff radiotap).mpr hacc
      have hhigh := high_eq_zero_of_size radiotap hacc (h.size hpos)
      have hheader := (h.accepts.mp hpos).header
      rw [headerLength, hhigh] at hheader
      exact Or.inl ⟨hhigh, hheader⟩
    · have hiff := h.accepts
      rw [ieee80211RadiotapHeader_pos_iff] at hiff
      exact Or.inr ⟨hacc, fun hwf => hacc (hiff.mpr hwf)⟩
  · rintro (⟨hhigh, hlow⟩ | ⟨hacc, hwf⟩)
    · have hacc : 0 < (ieee80211RadiotapHeader radiotap packet packet.length).1 ↔ Accepted packet :=
        ieee80211RadiotapHeader_pos_iff radiotap
      refine ⟨?_, fun hpos => ?_, fun hpos i hi => ?_⟩
      · exact hacc.trans (accepted_iff_wellFormed hlow hhigh)
      · rw [(hacc.mp hpos).size_eq, headerLength_eq hhigh]
      · rw [← headerEnd_eq_headerLength hlow hhigh]
        exact (hacc.mp hpos).saddr_eq radiotap i hi
    · rw [← ieee80211RadiotapHeader_pos_iff radiotap] at hacc
      exact ⟨iff_of_false hacc hwf, fun hpos => absurd hpos hacc, fun hpos => absurd hpos hacc⟩

/-- A capture with a radiotap header of 256 bytes, which the parser takes for a header of none. -/
def longHeaderPacket : List UInt8 :=
  [0x00, 0x00, 0x00, 0x01] ++ List.replicate 252 0x00 ++ [0x08] ++ List.replicate 100 0x00

theorem wellFormed_longHeaderPacket : WellFormed longHeaderPacket where
  fixed := by decide +kernel
  header := by decide
  frame := by decide +kernel
  type := by decide +kernel

theorem exists_wellFormed_rejected :
    ¬ ParsesFormat ieee80211RadiotapZero longHeaderPacket := by
  intro h
  have hpos := h.accepts.mpr wellFormed_longHeaderPacket
  rw [ieee80211RadiotapHeader_pos_iff] at hpos
  exact absurd hpos.2 (by decide +kernel)

end SmartConfig
