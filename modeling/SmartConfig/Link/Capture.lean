import SmartConfig.Link.InStep
import SmartConfig.SmartLinkRx.Process

/-!
# From the sender to the callback

The whole way: the lengths of a transmission, the packets they are captured as behind a radiotap
header of any length, the parser, the receiving loop and the decoder. What is assumed of the driver
and the air link is `Captured`; packets that the parser makes nothing of may come in between.
-/

namespace SmartConfig

/-- A datagram of length `s` from the address `a`, captured behind a radiotap header of `L` bytes;
the bytes not mentioned are arbitrary. -/
structure Captured (L : UInt8) (a : Mac) (s : Int) (packet : List UInt8) : Prop where
  size : (packet.length : Int) = L.toNat + 76 + s
  fits : packet.length ≤ PACKET_MAX - 1
  header : packet[2]? = some L
  frame_type : packet[L.toNat]? = some 0x08
  saddr : ∀ (i : Nat) (hi : i < MAC_LEN), packet[L.toNat + 16 + i]? = some a[i]

/-- A packet on the air; `sent` is the length that it carries if it is one of the transmission. -/
structure Packet where
  bytes : List UInt8
  sent : Option Int

/-- The packets carry the transmission of `m` in order, and the parser makes nothing of the
others. -/
structure CapturedInOrder (tx : SmartLinkTx) (m : Message) (L : UInt8) (a : Mac)
    (air : List Packet) : Prop where
  sent : air.filterMap (·.sent) = m.send tx
  own : ∀ p ∈ air, ∀ s, p.sent = some s → Captured L a s p.bytes
  other : ∀ p ∈ air, p.sent = none → p.bytes.length ≤ PACKET_MAX - 1 ∧
    (ieee80211RadiotapHeader ieee80211RadiotapZero p.bytes p.bytes.length).1 ≤ 0

/-- The packets as `recvfrom` hands them over. -/
def received (air : List Packet) : List (Option (List UInt8)) := air.map fun p => some p.bytes

/-! ## The frames that the decoder sees -/

/-- A packet that fits is handed to the parser as it is. -/
theorem capturedFrame_eq {packet : List UInt8} (hfits : packet.length ≤ PACKET_MAX - 1) :
    capturedFrame (some packet) =
      let result := ieee80211RadiotapHeader ieee80211RadiotapZero packet packet.length
      if 0 < packet.length ∧ 0 < result.1 then
        some { sendlen := result.1, saddr := result.2.saddr } else none := by
  simp only [capturedFrame, socketRevcRawpacket, List.take_of_length_le hfits,
    ieee80211RadiotapHeader_append]
  by_cases hpos : 0 < packet.length
  · simp only [hpos, if_true, true_and]
    by_cases hres : (ieee80211RadiotapHeader ieee80211RadiotapZero packet packet.length).1 ≤ 0
    · rw [if_pos hres, if_neg (by omega)]
    · rw [if_neg hres, if_pos (by omega)]
  · simp only [hpos, if_false, false_and]
    exact if_pos (Int.le_refl 0)

theorem Captured.frame {L : UInt8} {a : Mac} {s : Int} {packet : List UInt8}
    (h : Captured L a s packet) (hL : 8 ≤ L.toNat) (hs : 0 < s) :
    capturedFrame (some packet) = some { sendlen := s, saddr := a } := by
  have hsize := h.size
  have hres : (packet.length : Int) - L.toNat - 76 = s := by omega
  rw [capturedFrame_eq h.fits, ieee80211RadiotapHeader_captured h.header (by omega) h.frame_type
    h.saddr, hres]
  exact if_pos ⟨by omega, hs⟩

/-- Every length carries the 24 bytes of header. -/
theorem pos_of_mem_send {tx : SmartLinkTx} {m : Message} {s : Int} (hs : s ∈ m.send tx) :
    0 < s := by
  rw [m.send_eq] at hs
  obtain ⟨f, -, rfl⟩ := List.mem_map.mp hs
  rw [frameLength, txSendlen]
  omega

namespace CapturedInOrder

variable {tx : SmartLinkTx} {m : Message} {L : UInt8} {a : Mac} {air : List Packet}

/-- The frames of some of the packets are the lengths that they carry. -/
theorem frames (h : CapturedInOrder tx m L a air) (hL : 8 ≤ L.toNat) {ps : List Packet}
    (hps : ∀ p ∈ ps, p ∈ air) :
    (received ps).filterMap capturedFrame =
      framesFrom a (ps.filterMap (·.sent)) := by
  induction ps with
  | nil => rfl
  | cons p ps ih =>
      have hmem := hps p (by simp)
      have ih := ih fun q hq => hps q (by simp [hq])
      rw [received, List.map_cons, ← received]
      cases hsent : p.sent with
      | none =>
          obtain ⟨hfits, hother⟩ := h.other p hmem hsent
          have hnone : capturedFrame (some p.bytes) = none := by
            rw [capturedFrame_eq hfits]
            exact if_neg fun hpos => by omega
          rw [List.filterMap_cons_none hnone, List.filterMap_cons_none hsent, ih]
      | some s =>
          have hs : s ∈ m.send tx := by
            rw [← h.sent]
            exact List.mem_filterMap.mpr ⟨p, hmem, hsent⟩
          have hframe := (h.own p hmem s hsent).frame hL (pos_of_mem_send hs)
          rw [List.filterMap_cons_some hframe, List.filterMap_cons_some hsent, ih]
          rfl

/-- The last packet of the transmission. -/
theorem exists_last (h : CapturedInOrder tx m L a air) :
    ∃ pre p post s ss, air = pre ++ p :: post ∧ p.sent = some s ∧
      post.filterMap (·.sent) = [] ∧ pre.filterMap (·.sent) = ss ∧ m.send tx = ss ++ [s] := by
  have hne : m.send tx ≠ [] := by
    rw [m.send_eq, Ne, List.map_eq_nil_iff, ← List.length_eq_zero_iff, ChainCode.length_encode,
      m.length_air]
    omega
  obtain ⟨ss, s, hss⟩ := (List.eq_nil_or_concat' (m.send tx)).resolve_left hne
  -- cut the packets before the one that carries the last length
  obtain ⟨l1, l2, rfl, h1, h2⟩ := List.filterMap_eq_append_iff.mp (h.sent.trans hss)
  obtain ⟨u, p, v, rfl, hu, hp, hv⟩ := List.filterMap_eq_cons_iff.mp h2
  refine ⟨l1 ++ u, p, v, s, ss, by simp, hp, hv, ?_, hss⟩
  rw [List.filterMap_append, h1, List.filterMap_eq_nil_iff.mpr hu, List.append_nil]

end CapturedInOrder

/-! ## End to end -/

/-- **The capture path delivers**: exactly one callback, on the last packet of the transmission,
with the sender's address and the message. -/
theorem captured_delivered (tx : SmartLinkTx) (m : Message) (hplain : m.Plain) (L : UInt8)
    (hL : 8 ≤ L.toNat) (a : Mac) (air : List Packet) (h : CapturedInOrder tx m L a air) :
    ∃ pre p post c, air = pre ++ p :: post ∧ p.sent ≠ none ∧ (∀ q ∈ post, q.sent = none) ∧
      processCalls (received pre) = [] ∧ processCalls (received (pre ++ [p])) = [c] ∧
      processCalls (received air) = [c] ∧ c.mac = a ∧ c.Delivers m.bytes := by
  obtain ⟨pre, p, post, s, ss, hair, hp, hpost, hpre, hss⟩ := h.exists_last
  have hcalls : ∀ ps, (∀ q ∈ ps, q ∈ air) →
      processCalls (received ps) = rxCalls (framesFrom a (ps.filterMap (·.sent))) := by
    intro ps hps
    rw [(process_eq _).2, h.frames hL hps]
  have hone : (pre ++ [p]).filterMap (·.sent) = m.send tx := by
    rw [List.filterMap_append, hpre, hss]
    simp [hp]
  -- the whole transmission, and all of it but the last frame
  have hwhole : airFrames (framesFrom a (m.send tx)) = smartCode.encode m.air := by
    rw [airFrames_framesFrom, map_airFrame_send]
  have hinit : airFrames (framesFrom a ss) <+: smartCode.encode m.air := by
    rw [← hwhole, hss, framesFrom_append, airFrames, airFrames, List.map_append]
    exact List.prefix_append _ _
  have hlen : (framesFrom a ss).length + 1 = 2 * (m.stop + 2) := by
    have := congrArg List.length hwhole
    rw [hss, framesFrom_append, airFrames, List.length_map, List.length_append,
      ChainCode.length_encode, m.length_air, ← hplain.stop_eq] at this
    exact this
  have hbefore := ((inStep_start m).run hinit (by omega)).2
  obtain ⟨-, f, c, hlast, hc, hfor⟩ :=
    (inStep_start m).run_rest hplain (by rw [m.length_air]; omega) hwhole
  have hmac : f.saddr = a := by
    rw [hss, framesFrom_append, framesFrom, framesFrom, List.map_singleton,
      List.getLast?_concat] at hlast
    rw [← Option.some.inj hlast]
  refine ⟨pre, p, post, c, hair, by simp [hp], List.filterMap_eq_nil_iff.mp hpost, ?_, ?_, ?_,
    hfor.mac.trans hmac, hfor.delivers⟩
  · rw [hcalls pre (fun q hq => by simp [hair, hq]), hpre]
    exact hbefore
  · have hmem : ∀ q ∈ pre ++ [p], q ∈ air := fun q hq => by
      rw [hair, List.append_cons]
      exact List.mem_append_left _ hq
    rw [hcalls (pre ++ [p]) hmem, hone]
    exact hc
  · rw [hcalls air (fun q hq => hq), h.sent]
    exact hc

theorem length_dataPacket (a : Mac) (s : Nat) : (dataPacket a s).length = 84 + s := by
  have hmac : a.toList.length = 6 := a.length_toList
  rw [dataPacket, List.length_append, List.length_append, List.length_append, List.length_replicate,
    List.length_replicate, hmac, List.length_cons]
  simp only [List.length_cons, List.length_nil]
  omega

theorem captured_dataPacket (a : Mac) {s : Nat} (hs : s ≤ 1415) :
    Captured 8 a s (dataPacket a s) where
  size := by
    rw [length_dataPacket]
    show ((84 + s : Nat) : Int) = 8 + 76 + s
    omega
  fits := by
    rw [length_dataPacket, PACKET_MAX]
    omega
  header := rfl
  frame_type := rfl
  saddr i hi := by
    have hmac : a.toList[i]? = some a[i] := by simp [hi]
    rw [← hmac, dataPacket, List.getElem?_append_left (by simp; omega),
      List.getElem?_append_right (by simp)]
    congr 1
    simp

/-- The message `A` behind a packet that is too short to be a frame. -/
def letterAPackets (a : Mac) : List Packet :=
  ⟨[0x80], none⟩ :: (Message.letterA.send ⟨0⟩).map fun s => ⟨dataPacket a s.toNat, some s⟩

theorem capturedInOrder_letterA (a : Mac) :
    CapturedInOrder ⟨0⟩ Message.letterA 8 a (letterAPackets a) where
  sent := by
    rw [letterAPackets, List.filterMap_cons_none rfl, List.filterMap_map]
    exact List.filterMap_some
  own p hp s hs := by
    rcases List.mem_cons.mp hp with rfl | hp
    · cases hs
    · obtain ⟨s', hs', rfl⟩ := List.mem_map.mp hp
      obtain rfl := Option.some.inj hs
      have hle : ∀ s ∈ Message.letterA.send ⟨0⟩, 0 ≤ s ∧ s ≤ 1415 := by
        rw [Message.letterA.send_eq]
        decide
      obtain ⟨h0, h1415⟩ := hle s' hs'
      have h := captured_dataPacket a (s := s'.toNat) (by omega)
      rwa [Int.toNat_of_nonneg h0] at h
  other p hp hnone := by
    rcases List.mem_cons.mp hp with rfl | hp
    · exact ⟨by decide, by decide +kernel⟩
    · obtain ⟨s, -, rfl⟩ := List.mem_map.mp hp
      cases hnone

theorem captured_delivered_letterA :
    ∃ pre p post c, letterAPackets #v[2, 0, 0, 0, 0, 1] = pre ++ p :: post ∧ p.sent ≠ none ∧
      (∀ q ∈ post, q.sent = none) ∧ processCalls (received pre) = [] ∧
      processCalls (received (pre ++ [p])) = [c] ∧
      processCalls (received (letterAPackets #v[2, 0, 0, 0, 0, 1])) = [c] ∧
      c.mac = #v[2, 0, 0, 0, 0, 1] ∧ c.Delivers [0x41] :=
  captured_delivered ⟨0⟩ Message.letterA (by decide) 8 (by decide) _ _ (capturedInOrder_letterA _)

end SmartConfig
