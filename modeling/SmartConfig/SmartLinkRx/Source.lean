import SmartConfig.SmartLinkRx.Received

/-!
# Where a delivery comes from

The decoder looks at check values only. It copies a source address when a byte is completed, and
nothing ever compares two of them: the addresses of a run may be exchanged at will without a change
in what is accepted or delivered (`addresses_inert`). What the address handed to the callback says
is where the last of the delivered nibbles came from (`call_source`).
-/

namespace SmartConfig

/-- Frame `i` of the run is `f`, and its nibble went into byte `k`. -/
structure AcceptedInto (fs : List Frame) (i : Nat) (f : Frame) (k : UInt8) : Prop where
  frame : fs[i]? = some f
  accepted : rxAccepts (rxAfter (fs.take i)) f.sendlen
  byte : (rxAfter (fs.take i)).u32Index = k

/-- Frame `i` of the run is `f`, and its nibble is in the bytes that the decoder has completed. -/
def AcceptedFrom (fs : List Frame) (i : Nat) (f : Frame) : Prop :=
  ∃ k, AcceptedInto fs i f k ∧ k < (rxAfter fs).u32Index

/-! ## Addresses play no part -/

/-- Two contexts that differ in the source address at most. -/
structure SameData (s t : SmartLinkRx) : Prop where
  index : s.u32Index = t.u32Index
  sequence : s.u32Sequence = t.u32Sequence
  buffer : s.buffer = t.buffer

/-- Two calls that differ in the source address at most. -/
structure SameCall (c d : RxCall) : Prop where
  mac_len : c.mac_len = d.mac_len
  buf : c.buf = d.buf
  len : c.len = d.len

theorem SameData.accepts_iff {s t : SmartLinkRx} (h : SameData s t) (sendlen : Int) :
    rxAccepts s sendlen ↔ rxAccepts t sendlen := by
  simp only [rxAccepts, rxExpected, rxLowBefore, rxHighHere, h.index, h.sequence, h.buffer]

theorem SameData.completed_eq {s t : SmartLinkRx} (h : SameData s t) (sendlen : Int) :
    rxCompleted s sendlen = rxCompleted t sendlen := by
  simp only [rxCompleted, h.index, h.buffer]

theorem SameData.step {s t : SmartLinkRx} {f g : Frame} (h : SameData s t)
    (hlen : f.sendlen = g.sendlen) :
    SameData (rxStep s f).1 (rxStep t g).1 ∧ Option.Rel SameCall (rxStep s f).2 (rxStep t g).2 := by
  have hiff := h.accepts_iff f.sendlen
  have hcomp := h.completed_eq f.sendlen
  have hseq := h.sequence
  rw [hlen] at hiff hcomp
  by_cases hacc : rxAccepts t g.sendlen
  · have hacc' : rxAccepts s f.sendlen := by rw [hlen]; exact hiff.mpr hacc
    by_cases he : t.u32Sequence % 2 = 0
    · rw [rxStep_accept_even (hseq ▸ he) hacc', rxStep_accept_even he hacc]
      refine ⟨⟨h.index, congrArg (· + 1) hseq, ?_⟩, .none⟩
      simp only [h.index, h.buffer, hlen]
    · rw [rxStep_accept_odd (hseq ▸ he) hacc', rxStep_accept_odd he hacc, hlen, hcomp, h.index,
        hseq]
      split
      · exact ⟨⟨rfl, rfl, rfl⟩, .some ⟨rfl, rfl, rfl⟩⟩
      · exact ⟨⟨rfl, rfl, rfl⟩, .none⟩
  · have hrej : ¬ rxAccepts s f.sendlen := by rw [hlen]; exact fun h' => hacc (hiff.mp h')
    rw [rxStep_reject hrej, rxStep_reject hacc, h.index, hseq, hlen]
    split
    · exact ⟨⟨rfl, rfl, h.buffer⟩, .none⟩
    · exact ⟨h, .none⟩

/-- Runs that differ in the source addresses only take the same nibbles and deliver the same
bytes. -/
theorem addresses_inert {fs gs : List Frame}
    (h : List.Forall₂ (fun f g => f.sendlen = g.sendlen) fs gs) :
    SameData (rxAfter fs) (rxAfter gs) ∧ List.Forall₂ SameCall (rxCalls fs) (rxCalls gs) :=
  Mealy.run_rel (fun _ _ _ _ h hlen => h.step hlen) h ⟨rfl, rfl, rfl⟩

/-! ## What the address says -/

/-- A step that calls back is the acceptance of a low half, of the last byte counted. -/
theorem rxStep_calls {ctx : SmartLinkRx} {f : Frame} {c : RxCall}
    (h : (rxStep ctx f).2 = some c) :
    rxAccepts ctx f.sendlen ∧ c.mac = f.saddr ∧ ctx.u32Index < (rxStep ctx f).1.u32Index := by
  obtain ⟨ho, hacc, hgt, hmac⟩ := rxStep_call h
  refine ⟨hacc, hmac, ?_⟩
  -- a counter that has just passed 2 has not wrapped
  have hpassed := UInt8.lt_iff_toNat_lt.mp hgt
  have hlt := ctx.u32Index.toNat_lt
  rw [(rxStep_odd_counters ho hacc).1, UInt8.lt_iff_toNat_lt]
  rw [UInt8.toNat_add, UInt8.toNat_one] at hpassed ⊢
  have htwo : (0x02 : UInt8).toNat = 2 := rfl
  omega

/-- **The address handed over is that of the frame that completes the delivery**, the last of the
frames whose nibbles are delivered; it speaks for the others as far as they come from one source. -/
theorem call_source (fs : List Frame) (f : Frame) (c : RxCall)
    (h : (rxStep (rxAfter fs) f).2 = some c) :
    (AcceptedFrom (fs ++ [f]) fs.length f ∧ c.mac = f.saddr) ∧
      ∀ a, (∀ i g, AcceptedFrom (fs ++ [f]) i g → g.saddr = a) → c.mac = a := by
  obtain ⟨hacc, hmac, hlt⟩ := rxStep_calls h
  have hlast : AcceptedFrom (fs ++ [f]) fs.length f := by
    refine ⟨_, ⟨by simp, ?_, rfl⟩, ?_⟩
    · rwa [List.take_left]
    · rwa [List.take_left, rxAfter_concat]
  exact ⟨⟨hlast, hmac⟩, fun a ha => hmac.trans (ha _ f hlast)⟩

/-- The message `A` without its last frame, its frames in turn from two senders. -/
def twoSources : List Frame :=
  [⟨31, #v[2, 0, 0, 0, 0, 1]⟩, ⟨135, #v[2, 0, 0, 0, 0, 9]⟩, ⟨236, #v[2, 0, 0, 0, 0, 1]⟩,
   ⟨137, #v[2, 0, 0, 0, 0, 9]⟩, ⟨111, #v[2, 0, 0, 0, 0, 1]⟩]

/-- The frame that completes it. -/
def lastFrame : Frame := ⟨71, #v[2, 0, 0, 0, 0, 9]⟩

theorem exists_call_twoSources : ∃ c, (rxStep (rxAfter twoSources) lastFrame).2 = some c :=
  Option.isSome_iff_exists.mp (by decide +kernel)

theorem call_source_twoSources :
    ∃ c, (rxStep (rxAfter twoSources) lastFrame).2 = some c ∧ c.mac = #v[2, 0, 0, 0, 0, 9] := by
  obtain ⟨c, hc⟩ := exists_call_twoSources
  exact ⟨c, hc, (call_source twoSources lastFrame c hc).1.2⟩

/-- The first half of the START byte is from the other sender. -/
theorem not_one_source :
    ¬ ∀ c, (rxStep (rxAfter twoSources) lastFrame).2 = some c →
      ∀ i g, AcceptedFrom (twoSources ++ [lastFrame]) i g → g.saddr = c.mac := by
  intro h
  obtain ⟨c, hc⟩ := exists_call_twoSources
  have hfirst : AcceptedFrom (twoSources ++ [lastFrame]) 0 ⟨31, #v[2, 0, 0, 0, 0, 1]⟩ :=
    ⟨0, ⟨rfl, by decide +kernel, rfl⟩, by decide +kernel⟩
  have hmac : c.mac = #v[2, 0, 0, 0, 0, 9] := (rxStep_calls hc).2.1
  have heq := h c hc 0 _ hfirst
  rw [hmac] at heq
  exact absurd heq (show (#v[2, 0, 0, 0, 0, 1] : Mac) ≠ #v[2, 0, 0, 0, 0, 9] from by decide)

end SmartConfig
