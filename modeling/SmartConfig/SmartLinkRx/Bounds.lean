import SmartConfig.SmartLinkRx.Process

/-!
# The bounds of the receive pipeline

Nothing in the decoder checks a bound. What bounds it is the largest packet: a captured length is
at most 1423 (`socketRevcRawpacket_le`), so a check value on the air is at most 87, or 254 or 255
when the length is below 24. The check value that the decoder expects is in the block of 16 that its
position is in (`expected_div`), so from position 96 on it waits for one that cannot come.
-/

namespace SmartConfig

open Nibble Received

/-! ## Check values -/

/-- The check value of a captured frame; it is 254 or 255 for the lengths below the header. -/
theorem rxFlag_captured {sendlen : Int} (hpos : 0 < sendlen) (hle : sendlen ≤ 1423) :
    if sendlen < 24 then 254 ≤ (rxFlag sendlen).toNat else (rxFlag sendlen).toNat ≤ 87 := by
  rw [toNat_rxFlag]
  split <;> omega

/-- The expected check value is in the block of 16 of its position. -/
theorem expected_div (xs : List Nibble) :
    (smartCode.expected xs).toNat / 16 = xs.length % 256 / 16 := by
  rcases List.eq_nil_or_concat' xs with rfl | ⟨ys, x, rfl⟩
  · rfl
  · rw [expected_concat, toNat_xor_div, UInt8.toNat_ofNat', List.length_append,
      List.length_singleton]

/-- What a captured frame can be accepted as: a nibble at a position before 96, and never a length
below the header. -/
theorem accepted_captured {xs : List Nibble} (hlen : xs.length ≤ 96) {sendlen : Int}
    (hpos : 0 < sendlen) (hle : sendlen ≤ 1423)
    (hacc : rxFlag sendlen = smartCode.expected xs) :
    xs.length < 96 ∧ ¬ sendlen < 24 ∧ (smartCode.expected xs).toNat ≤ 87 := by
  have hflag := rxFlag_captured hpos hle
  have hdiv := expected_div xs
  rw [hacc] at hflag
  split at hflag
  · omega
  · next hge => exact ⟨by omega, hge, hflag⟩

/-- The check values of the low half of a terminator run ahead of its position from 88 on. -/
theorem terminator_check : ∀ t < 96, t % 2 = 1 → 0x7 ^^^ t ≤ 87 → t < 88 := by decide

/-- A terminator is completed at a position before 88. -/
theorem terminated_captured {xs : List Nibble} {d : Nibble} (hlen : xs.length < 96)
    (hcheck : (smartCode.expected xs).toNat ≤ 87) (hterm : Terminated (xs ++ [d])) :
    xs.length < 88 := by
  obtain ⟨ys, rfl, -, heven, -⟩ := hterm.eq_concat
  rw [List.length_append, List.length_singleton] at hlen ⊢
  have hseq : (UInt8.ofNat (ys.length + 1)).toNat = ys.length + 1 := by
    rw [UInt8.toNat_ofNat']
    omega
  rw [expected_concat, UInt8.toNat_xor, hseq] at hcheck
  exact terminator_check _ hlen (by omega) hcheck

/-! ## One step -/

/-- The decoder has counted no further than the largest packet lets it. -/
def Bounded (ctx : SmartLinkRx) : Prop := ∃ r, Holds r ctx ∧ r.nibs.length ≤ 96

/-- Nothing of the frame is taken as data: the message stays as it is, and nobody is told. -/
structure Ignored (ctx : SmartLinkRx) (f : Frame) : Prop where
  accepts : ¬ rxAccepts ctx f.sendlen
  buffer : (rxStep ctx f).1.buffer = ctx.buffer
  index : (rxStep ctx f).1.u32Index = ctx.u32Index
  call : (rxStep ctx f).2 = none

theorem ignored_of_reject {ctx : SmartLinkRx} {f : Frame} (h : ¬ rxAccepts ctx f.sendlen) :
    Ignored ctx f := by
  have hreject := rxStep_reject h
  refine ⟨h, ?_, ?_, by rw [hreject]⟩
  · rw [hreject]
    split <;> rfl
  · rw [hreject]
    split <;> rfl

/-- What does not go wrong when the decoder is given a captured frame. -/
structure StepWithin (ctx : SmartLinkRx) (f : Frame) : Prop where
  subscripts : ∀ i ∈ (smartlinkRxDecode ctx f.sendlen f.saddr).subscripts, 0 ≤ i ∧ i < BUFFER_MAX
  header : f.sendlen < 24 → Ignored ctx f
  sequence : rxAccepts ctx f.sendlen →
    (rxStep ctx f).1.u32Sequence.toNat = ctx.u32Sequence.toNat + 1
  index : ctx.u32Index.toNat ≤ (rxStep ctx f).1.u32Index.toNat
  payload : ∀ c, (rxStep ctx f).2 = some c → c.len ≤ 46

/-- The subscripts are `u32Index`, the one before it if it is not zero, and the one before the
incremented one. -/
theorem mem_subscripts {ctx : SmartLinkRx} {sendlen : Int} {saddr : Mac} {i : Int}
    (hi : i ∈ (smartlinkRxDecode ctx sendlen saddr).subscripts) :
    i = ctx.u32Index.toNat ∨ (ctx.u32Index ≠ 0 ∧ i = (ctx.u32Index.toNat : Int) - 1) ∨
      i = ((ctx.u32Index + 1).toNat : Int) - 1 := by
  simp only [smartlinkRxDecode] at hi
  split_ifs at hi <;> simp at hi <;> tauto

theorem subscripts_within {ctx : SmartLinkRx} (hidx : ctx.u32Index.toNat < 255) {sendlen : Int}
    {saddr : Mac} : ∀ i ∈ (smartlinkRxDecode ctx sendlen saddr).subscripts,
      0 ≤ i ∧ i < BUFFER_MAX := by
  have hnext := toNat_add_one hidx
  have hmax : BUFFER_MAX = 512 := rfl
  intro i hi
  rcases mem_subscripts hi with rfl | ⟨h0, rfl⟩ | rfl
  · omega
  · have hpos := toNat_ne_zero h0
    omega
  · omega

/-- **One captured frame**: nothing goes wrong, and the decoder stays bounded. -/
theorem Bounded.step {ctx : SmartLinkRx} (h : Bounded ctx) {f : Frame} (hpos : 0 < f.sendlen)
    (hle : f.sendlen ≤ 1423) : StepWithin ctx f ∧ Bounded (rxStep ctx f).1 := by
  obtain ⟨r, hr, hlen⟩ := h
  have hidx := hr.index
  have hseq := hr.sequence
  obtain ⟨hholds, hcall⟩ := rxStep_refines hr (by omega) f
  have hidx' := hholds.index
  have hseq' := hholds.sequence
  by_cases hacc : rxAccepts ctx f.sendlen
  · have hcheck := hr.accepts_iff.mp hacc
    obtain ⟨h96, h24, h87⟩ := accepted_captured hlen hpos hle hcheck
    have hgrow := Received.length_step_accept hcheck
    refine ⟨⟨subscripts_within (by omega), fun hlt => absurd hlt h24, fun _ => by omega, by omega,
      fun c hc => ?_⟩, _, hholds, by omega⟩
    obtain ⟨-, hnone⟩ | ⟨m, c', hd, hc', hfor⟩ := call_cases hcall
    · rw [hnone] at hc
      cases hc
    · -- the terminator comes before position 88, so the call is for at most 42 bytes
      obtain rfl : c = c' := Option.some.inj (hc.symm.trans hc')
      obtain ⟨-, hterm, rfl⟩ := Received.step_delivers hd
      have h88 := terminated_captured h96 h87 hterm
      have hpay := hfor.len
      rw [length_payload, List.length_append, List.length_singleton] at hpay
      omega
  · have hgrow := Received.length_step_reject fun h => hacc (hr.accepts_iff.mpr h)
    have hignored := ignored_of_reject hacc
    refine ⟨⟨subscripts_within (by omega), fun _ => hignored, fun h => absurd h hacc, by omega,
      fun c hc => ?_⟩, _, hholds, by omega⟩
    rw [hignored.call] at hc
    cases hc

/-! ## Every run -/

theorem capturedFrame_bounds {received : Option (List UInt8)} {f : Frame}
    (h : capturedFrame received = some f) : 0 < f.sendlen ∧ f.sendlen ≤ 1423 := by
  rw [capturedFrame] at h
  split at h
  · cases h
  · next hpos =>
    obtain rfl := Option.some.inj h
    exact ⟨by simpa using hpos, socketRevcRawpacket_le _ _⟩

theorem bounded_process (rs : List (Option (List UInt8))) : Bounded (processAfter rs).ctx := by
  have hstart : Bounded smartLinkRxStart := ⟨idle, holds_idle, Nat.zero_le _⟩
  rw [(process_eq rs).1, rxAfter]
  refine Mealy.run_inv (I := Bounded) (P := fun f => 0 < f.sendlen ∧ f.sendlen ≤ 1423)
    (fun ctx f h hf => (Bounded.step h hf.1 hf.2).2) _ _ hstart fun f hf => ?_
  obtain ⟨received, -, hcap⟩ := List.mem_filterMap.mp hf
  exact capturedFrame_bounds hcap

/-- **The bounds of the receive pipeline**, over every sequence of packets, of whatever content. -/
theorem pipeline_bounds (rs : List (Option (List UInt8))) :
    (processAfter rs).ctx.u32Index.toNat ≤ 48 ∧ (processAfter rs).ctx.u32Sequence.toNat ≤ 96 ∧
      ∀ received, 0 < (socketRevcRawpacket received (processAfter rs).radiotap).1 →
        StepWithin (processAfter rs).ctx
          { sendlen := (socketRevcRawpacket received (processAfter rs).radiotap).1
            saddr := (socketRevcRawpacket received (processAfter rs).radiotap).2.saddr } := by
  have hb := bounded_process rs
  obtain ⟨r, hr, hlen⟩ := hb
  have hidx := hr.index
  have hseq := hr.sequence
  exact ⟨by omega, by omega, fun received hpos =>
    (Bounded.step ⟨r, hr, hlen⟩ hpos (socketRevcRawpacket_le _ _)).1⟩

/-- An empty radiotap header before the first frame of a message. -/
def firstPacket : List UInt8 := [0, 0, 8, 0, 0, 0, 0, 0, 0x08] ++ List.replicate 106 0

theorem pipeline_bounds_firstPacket :
    StepWithin (processAfter []).ctx
      { sendlen := (socketRevcRawpacket (some firstPacket) (processAfter []).radiotap).1
        saddr := (socketRevcRawpacket (some firstPacket) (processAfter []).radiotap).2.saddr } :=
  (pipeline_bounds []).2.2 (some firstPacket) (by decide +kernel)

end SmartConfig
