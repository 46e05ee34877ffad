import SmartConfig.Link.Capture
import SmartConfig.Link.Duplicate
import SmartConfig.SmartLinkRx.Bounds
import SmartConfig.Wlan80211.Accepted

/-!
# Receivers that no packet reaches any more

A captured packet has a check value of at most 87, or of 254 or 255 (`rxFlag_captured`), and the
decoder has no way back from its second byte on. So a receiver that waits for a larger check value
waits for ever: `deaf_iff`. A message with a frame that is too long to be captured leads there
(`oversized_deafens`).
-/

namespace SmartConfig

open Nibble Received

/-- Whatever is captured from now on, the context stays as it is and no callback is made. -/
def Deaf (rs : List (Option (List UInt8))) : Prop :=
  ∀ later, (processAfter (rs ++ later)).ctx = (processAfter rs).ctx ∧
    processCalls (rs ++ later) = processCalls rs

/-- A packet goes through the parser to the decoder. -/
theorem process_append (rs later : List (Option (List UInt8))) :
    (processAfter (rs ++ later)).ctx =
        (Mealy.run rxStep (processAfter rs).ctx (later.filterMap capturedFrame)).1 ∧
      processCalls (rs ++ later) = processCalls rs ++
        (Mealy.run rxStep (processAfter rs).ctx (later.filterMap capturedFrame)).2 := by
  rw [(process_eq (rs ++ later)).1, (process_eq (rs ++ later)).2, (process_eq rs).1,
    (process_eq rs).2, List.filterMap_append, rxAfter, rxAfter, rxCalls, rxCalls, Mealy.run_append]
  exact ⟨rfl, rfl⟩

/-- A check value that no captured frame has, and no restart. -/
theorem rxStep_of_deaf {ctx : SmartLinkRx} (hb : Bounded ctx) (h88 : 88 ≤ (rxExpected ctx).toNat)
    {f : Frame} (hpos : 0 < f.sendlen) (hle : f.sendlen ≤ 1423) : rxStep ctx f = (ctx, none) := by
  obtain ⟨r, hr, hlen⟩ := hb
  have hdiv := expected_div r.nibs
  rw [← hr.expected_eq] at hdiv
  have hflag := rxFlag_captured hpos hle
  have hrej : ¬ rxAccepts ctx f.sendlen := by
    intro hacc
    have hacc : rxFlag f.sendlen = rxExpected ctx := hacc
    rw [hacc] at hflag
    split at hflag
    · omega
    · omega
  have hidx : ctx.u32Index ≠ 0 := by
    intro h0
    have := hr.index_eq_zero_iff.mp h0
    omega
  rw [rxStep_reject hrej, if_neg (fun h => hidx h.2.1)]

/-- A frame with a payload of `s` bytes behind a radiotap header that says seven bytes, one less
than there are: it is taken, and with it every length up to 1416. -/
def shortHeaderPacket (s : Nat) : List UInt8 :=
  [0, 0, 7, 0, 0, 0, 0, 0x08] ++ List.replicate (75 + s) 0

theorem capturedFrame_shortHeaderPacket {s : Nat} (hpos : 0 < s) (hs : s ≤ 1416) :
    ∃ f, capturedFrame (some (shortHeaderPacket s)) = some f ∧ f.sendlen = s := by
  have hlen : (shortHeaderPacket s).length = 83 + s := by
    rw [shortHeaderPacket, List.length_append, List.length_replicate]
    show 8 + (75 + s) = 83 + s
    omega
  have hacc : Accepted (shortHeaderPacket s) := by
    -- byte 7 is the frame type
    refine ⟨?_, rfl⟩
    rw [hlen]
    show 7 + 76 < 83 + s
    omega
  have hresult : (ieee80211RadiotapHeader ieee80211RadiotapZero (shortHeaderPacket s)
      (shortHeaderPacket s).length).1 = s := by
    rw [hacc.size_eq, hlen]
    show ((83 + s : Nat) : Int) - 7 - 76 = s
    omega
  have hfits : (shortHeaderPacket s).length ≤ PACKET_MAX - 1 := by
    rw [hlen, PACKET_MAX]
    omega
  rw [capturedFrame_eq hfits]
  generalize ieee80211RadiotapHeader ieee80211RadiotapZero (shortHeaderPacket s)
    (shortHeaderPacket s).length = result at hresult ⊢
  exact ⟨_, if_pos ⟨by omega, by omega⟩, hresult⟩

/-- **The deaf receivers**, exactly: those that wait for a check value of 88 or more. Every other
one is moved on by some packet. -/
theorem deaf_iff (rs : List (Option (List UInt8))) :
    Deaf rs ↔ 88 ≤ (rxExpected (processAfter rs).ctx).toNat := by
  constructor
  · intro hdeaf
    by_contra hlow
    -- a packet with the check value that is due
    obtain ⟨f, hf, hsendlen⟩ := capturedFrame_shortHeaderPacket
      (s := 24 + 16 * (rxExpected (processAfter rs).ctx).toNat) (by omega) (by omega)
    have hacc : rxAccepts (processAfter rs).ctx f.sendlen := by
      rw [rxAccepts, ← UInt8.toNat_inj, toNat_rxFlag, hsendlen]
      omega
    have hsame := (hdeaf [some (shortHeaderPacket
      (24 + 16 * (rxExpected (processAfter rs).ctx).toNat))]).1
    rw [(process_append _ _).1, List.filterMap_cons_some hf] at hsame
    exact rxStep_accept_ne hacc hsame
  · intro h88 later
    have hfixed : Mealy.run rxStep (processAfter rs).ctx (later.filterMap capturedFrame) =
        ((processAfter rs).ctx, []) := by
      refine Mealy.run_fixed fun f hf => ?_
      obtain ⟨received, -, hcap⟩ := List.mem_filterMap.mp hf
      obtain ⟨hpos, hle⟩ := capturedFrame_bounds hcap
      exact rxStep_of_deaf (bounded_process rs) h88 hpos hle
    obtain ⟨hctx, hcalls⟩ := process_append rs later
    rw [hfixed] at hctx hcalls
    exact ⟨hctx, hcalls.trans (List.append_nil _)⟩

theorem frameLength_lt (f : UInt8 × Nibble) : frameLength f < 24 + 4096 := by
  have hx : f.2.val.toNat < 2 ^ 4 := UInt8.lt_iff_toNat_lt.mp f.2.property
  have hc := f.1.toNat_lt
  rw [frameLength, txSendlen, ← Nat.shiftLeft_add_eq_or_of_lt hx, Nat.shiftLeft_eq]
  omega

/-- **A message that is too long for the capture path**: once the frames before the first one whose
check value cannot be captured have come in order, the receiver is deaf, and it has delivered
nothing. -/
theorem oversized_deafens (tx : SmartLinkTx) (m : Message) (t : Nat) (s : Int)
    (ht : t < 2 * (m.stop + 2)) (hs : (m.send tx)[t]? = some s) (hbig : 1432 ≤ s)
    (rs : List (Option (List UInt8)))
    (hrs : (rs.filterMap capturedFrame).map (·.sendlen) = (m.send tx).take t) :
    Deaf rs ∧ processCalls rs = [] := by
  have hframes : airFrames (rs.filterMap capturedFrame) = (smartCode.encode m.air).take t := by
    rw [airFrames_eq, hrs, List.map_take, map_airFrame_send]
  have hstop := m.stop_le
  have hlen : (rs.filterMap capturedFrame).length = t := by
    have h := congrArg List.length hframes
    rw [airFrames, List.length_map, List.length_take, ChainCode.length_encode, m.length_air] at h
    omega
  have hpre : airFrames (rs.filterMap capturedFrame) <+: (smartCode.encode m.air).drop 0 := by
    rw [hframes]
    exact List.take_prefix _ _
  obtain ⟨⟨r, hr, hnibs, -⟩, hnone⟩ := (inStep_start m).run hpre (by omega)
  obtain ⟨hctx, hcalls⟩ := process_eq rs
  refine ⟨(deaf_iff rs).mpr ?_, hcalls.trans hnone⟩
  -- the frame that is due is the one that is too long
  have hdue : (smartCode.encode m.air)[t]? = some (airFrame s) := by
    rw [← map_airFrame_send tx, List.getElem?_map, hs]
    rfl
  rw [ChainCode.getElem?_encode, Option.map_eq_some_iff] at hdue
  obtain ⟨x, -, hair⟩ := hdue
  rw [Nat.zero_add, hlen] at hnibs
  have hexpected : rxExpected (processAfter rs).ctx = rxFlag s := by
    rw [hctx, rxAfter, hr.expected_eq, hnibs, ← airFrame_fst, ← hair]
  have hmax : s < 24 + 4096 := by
    have hmem := List.mem_of_getElem? hs
    rw [m.send_eq] at hmem
    obtain ⟨f, -, rfl⟩ := List.mem_map.mp hmem
    exact frameLength_lt f
  rw [hexpected, toNat_rxFlag]
  omega

/-- The packets that short lengths are captured as are heard as these lengths. -/
theorem filterMap_dataPacket (a : Mac) {ss : List Int} (h : ∀ s ∈ ss, 0 < s ∧ s ≤ 1415) :
    (ss.map fun s => some (dataPacket a s.toNat)).filterMap capturedFrame = framesFrom a ss := by
  induction ss with
  | nil => rfl
  | cons s ss ih =>
      obtain ⟨⟨hpos, hle⟩, hrest⟩ := List.forall_mem_cons.mp h
      have hcap := captured_dataPacket a (s := s.toNat) (by omega)
      rw [Int.toNat_of_nonneg (by omega)] at hcap
      rw [List.map_cons, List.filterMap_cons_some (hcap.frame (by decide) hpos), ih hrest]
      rfl

/-- A message with more bytes than fit between the check values that can be captured. -/
def longMessage : Message where
  bytes := List.replicate 47 0x10
  one_le := by decide
  le_253 := by decide

theorem oversized_deafens_longMessage :
    Deaf (((longMessage.send ⟨0⟩).take 88).map fun s => some (dataPacket macZero s.toNat)) := by
  refine (oversized_deafens ⟨0⟩ longMessage 88 1433 ?_ ?_ (by decide) _ ?_).1
  · decide +kernel
  · rw [longMessage.send_eq]
    decide +kernel
  · rw [filterMap_dataPacket, map_sendlen_framesFrom]
    rw [longMessage.send_eq]
    decide +kernel

end SmartConfig
