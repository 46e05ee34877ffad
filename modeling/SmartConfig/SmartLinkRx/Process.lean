import SmartConfig.SmartLinkRx.Received
import SmartConfig.Wlan80211

/-!
# The receiving loop

`_smartlinkRxProcess` reads one packet after the other into the same `ieee80211_radiotap` and hands
every positive result to the decoder. `process_eq`: what is left in that structure by earlier
packets never matters, so the loop does to its packets what the decoder does to the frames that the
parser makes of them. In particular the packets that it rejects might as well not have been there
(`rejected_inert`).
-/

namespace SmartConfig

/-! ## The loop -/

/-- `socketRevcRawpacket`; `received` is the packet that `recvfrom` has, `none` if it fails. -/
def socketRevcRawpacket (received : Option (List UInt8)) (radiotap : Ieee80211Radiotap) :
    Int × Ieee80211Radiotap :=
  match received with
  | none => (-1, radiotap)
  | some data =>
    let packet := data.take (PACKET_MAX - 1)
    let buffer := packet ++ List.replicate (PACKET_MAX - packet.length) 0
    if 0 < packet.length then ieee80211RadiotapHeader radiotap buffer packet.length
    else (0, radiotap)

/-- What the loop carries along: the context, and the structure that the parser fills. -/
structure RxLoop where
  ctx : SmartLinkRx
  radiotap : Ieee80211Radiotap

def rxLoopStart : RxLoop where
  ctx := smartLinkRxStart
  radiotap := ieee80211RadiotapZero

/-- The body of the loop of `_smartlinkRxProcess`. -/
def smartlinkRxProcess (s : RxLoop) (received : Option (List UInt8)) : RxLoop × Option RxCall :=
  let sendlen := (socketRevcRawpacket received s.radiotap).1
  let radiotap := (socketRevcRawpacket received s.radiotap).2
  if sendlen ≤ 0 then ({ s with radiotap := radiotap }, none)
  else
    let step := smartlinkRxDecode s.ctx sendlen radiotap.saddr
    ({ ctx := step.ctx, radiotap := radiotap }, step.call)

/-- The loop after a sequence of packets. -/
def processAfter (rs : List (Option (List UInt8))) : RxLoop :=
  (Mealy.run smartlinkRxProcess rxLoopStart rs).1

/-- The callbacks it has made. -/
def processCalls (rs : List (Option (List UInt8))) : List RxCall :=
  (Mealy.run smartlinkRxProcess rxLoopStart rs).2

/-! ## What the decoder sees of it -/

/-- The frame that a packet is to the decoder, if it is one. -/
def capturedFrame (received : Option (List UInt8)) : Option Frame :=
  let result := socketRevcRawpacket received ieee80211RadiotapZero
  if result.1 ≤ 0 then none else some { sendlen := result.1, saddr := result.2.saddr }

/-- A capture of a datagram of length `s`, behind an empty radiotap header. -/
def dataPacket (a : Mac) (s : Nat) : List UInt8 :=
  [0, 0, 8, 0, 0, 0, 0, 0, 0x08] ++ List.replicate 15 0 ++ a.toList ++ List.replicate (54 + s) 0

theorem bsInit_append (packet rest : List UInt8) :
    bsInit (packet ++ rest) packet.length = bsInit packet packet.length := by
  rw [bsInit, bsInit, List.take_left, List.take_length]

/-- The zeros behind the packet are not part of it. -/
theorem ieee80211RadiotapHeader_append (radiotap : Ieee80211Radiotap) (packet rest : List UInt8) :
    ieee80211RadiotapHeader radiotap (packet ++ rest) packet.length =
      ieee80211RadiotapHeader radiotap packet packet.length := by
  rw [ieee80211RadiotapHeader, ieee80211RadiotapHeader, bsInit_append]

/-- What is left in `*radiotap` decides neither the result nor, after a positive one, what is in it
then. -/
theorem socketRevcRawpacket_fresh (received : Option (List UInt8))
    (radiotap radiotap' : Ieee80211Radiotap) :
    (socketRevcRawpacket received radiotap).1 = (socketRevcRawpacket received radiotap').1 ∧
      (0 < (socketRevcRawpacket received radiotap).1 →
        socketRevcRawpacket received radiotap = socketRevcRawpacket received radiotap') := by
  cases received with
  | none => exact ⟨rfl, fun h => absurd h (show ¬ (0 : Int) < -1 from by decide)⟩
  | some data =>
      simp only [socketRevcRawpacket, ieee80211RadiotapHeader_append]
      split
      · obtain ⟨hres, hall⟩ := ieee80211RadiotapHeader_fresh radiotap radiotap'
          (data.take (PACKET_MAX - 1)) (data.take (PACKET_MAX - 1)).length
        refine ⟨hres, fun hpos => hall fun hfail => ?_⟩
        rw [hfail] at hpos
        exact absurd hpos (by decide)
      · exact ⟨rfl, fun h => absurd h (Int.lt_irrefl 0)⟩

/-- A positive result is at most what 76 bytes leave of the largest packet. -/
theorem socketRevcRawpacket_le (received : Option (List UInt8)) (radiotap : Ieee80211Radiotap) :
    (socketRevcRawpacket received radiotap).1 ≤ 1423 := by
  cases received with
  | none => exact (by decide : (-1 : Int) ≤ 1423)
  | some data =>
      have hlen : (data.take (PACKET_MAX - 1)).length ≤ 1499 := List.length_take_le _ _
      simp only [socketRevcRawpacket]
      split
      · rcases ieee80211RadiotapHeader_le radiotap
          (data.take (PACKET_MAX - 1) ++
            List.replicate (PACKET_MAX - (data.take (PACKET_MAX - 1)).length) 0)
          (data.take (PACKET_MAX - 1)).length with h | h
        · rw [h]; decide
        · omega
      · exact (by decide : (0 : Int) ≤ 1423)

/-- **The loop is the decoder behind the parser.** -/
theorem process_eq (rs : List (Option (List UInt8))) :
    (processAfter rs).ctx = rxAfter (rs.filterMap capturedFrame) ∧
      processCalls rs = rxCalls (rs.filterMap capturedFrame) := by
  refine Mealy.run_filterMap (R := fun (s : RxLoop) ctx => s.ctx = ctx) ?_ ?_ rs rfl
  · -- a packet that is a frame: the parser has just filled in all that the decoder reads
    rintro s ctx received f rfl hf
    obtain ⟨hres, hall⟩ := socketRevcRawpacket_fresh received s.radiotap ieee80211RadiotapZero
    rw [capturedFrame] at hf
    split at hf
    · cases hf
    · next hpos =>
      obtain rfl := Option.some.inj hf
      rw [smartlinkRxProcess, hall (by omega), if_neg hpos]
      exact ⟨rfl, rfl⟩
  · -- any other packet may change `*radiotap`, but not the context
    rintro s ctx received rfl hnone
    have hres := (socketRevcRawpacket_fresh received s.radiotap ieee80211RadiotapZero).1
    rw [capturedFrame] at hnone
    split at hnone
    · next hle =>
      rw [smartlinkRxProcess, if_pos (by omega)]
      exact ⟨rfl, rfl⟩
    · cases hnone

/-! ## Rejected packets -/

/-- The packets with a positive result, each parsed where it comes in the run. -/
def keptPackets : RxLoop → List (Option (List UInt8)) → List (Option (List UInt8))
  | _, [] => []
  | s, received :: rs =>
    if (socketRevcRawpacket received s.radiotap).1 ≤ 0 then
      keptPackets (smartlinkRxProcess s received).1 rs
    else received :: keptPackets (smartlinkRxProcess s received).1 rs

/-- The packets left out are no frames to the decoder. -/
theorem filterMap_keptPackets (s : RxLoop) (rs : List (Option (List UInt8))) :
    (keptPackets s rs).filterMap capturedFrame = rs.filterMap capturedFrame := by
  induction rs generalizing s with
  | nil => rfl
  | cons received rs ih =>
      have hres := (socketRevcRawpacket_fresh received s.radiotap ieee80211RadiotapZero).1
      rw [keptPackets]
      split
      · next hle =>
        have hnone : capturedFrame received = none := by
          rw [hres] at hle
          exact if_pos hle
        rw [List.filterMap_cons_none hnone, ih]
      · rw [List.filterMap_cons, List.filterMap_cons, ih]

/-- **Rejected packets have no influence**: without them the decoder ends in the same state and
makes the same calls. -/
theorem rejected_inert (rs : List (Option (List UInt8))) :
    (processAfter (keptPackets rxLoopStart rs)).ctx = (processAfter rs).ctx ∧
      processCalls (keptPackets rxLoopStart rs) = processCalls rs := by
  have hframes := filterMap_keptPackets rxLoopStart rs
  obtain ⟨hctx, hcalls⟩ := process_eq rs
  obtain ⟨hctx', hcalls'⟩ := process_eq (keptPackets rxLoopStart rs)
  rw [hframes] at hctx' hcalls'
  exact ⟨hctx'.trans hctx.symm, hcalls'.trans hcalls.symm⟩

end SmartConfig
