import SmartConfig.Link.InStep

/-!
# One transmission, with foreign traffic in between

A receiver hears the frames of one message in order, and between them frames that are none of its
business. `transmission_inv` follows it through the feed: before the terminator it is in step with
the message and has called nothing, from the terminator on it has delivered. The round trip of
`smartlinkTxSend` and `_smartlinkRxDecode` is read off that invariant. What the callback is told
about the length is another matter (`call_length`).
-/

namespace SmartConfig

/-- A frame as the receiver hears it; `own` marks the frames of the message. -/
structure Heard where
  frame : Frame
  own : Bool
  deriving DecidableEq

/-- The frames of a feed. -/
def heard (feed : List Heard) : List Frame := feed.map (·.frame)

/-- The number of frames of the message among the first `i` frames of the feed. -/
def ownBefore (feed : List Heard) (i : Nat) : Nat := ((feed.take i).filter (·.own)).length

/-- The feed carries the transmission of `m` in order, the two frames of the START byte first, and
every other frame in it has a check value that the decoder does not expect when it arrives. -/
structure Interleaved (tx : SmartLinkTx) (m : Message) (feed : List Heard) : Prop where
  own : (feed.filter (·.own)).map (·.frame.sendlen) = m.send tx
  start : ∀ h ∈ feed.take 2, h.own = true
  foreign : ∀ (i : Nat) (hi : i < feed.length), feed[i].own = false →
    rxFlag feed[i].frame.sendlen ≠ rxExpected (rxAfter (heard (feed.take i)))

/-! ## The feed, one frame longer -/

theorem heard_take_succ {feed : List Heard} {i : Nat} (hi : i < feed.length) :
    heard (feed.take (i + 1)) = heard (feed.take i) ++ [feed[i].frame] := by
  rw [heard, heard, List.take_succ_eq_append_getElem hi, List.map_append]; rfl

theorem ownBefore_succ {feed : List Heard} {i : Nat} (hi : i < feed.length) :
    ownBefore feed (i + 1) = ownBefore feed i + if feed[i].own then 1 else 0 := by
  rw [ownBefore, ownBefore, List.take_succ_eq_append_getElem hi, List.filter_append,
    List.length_append]
  congr 1
  cases h : feed[i].own <;> simp [h]

/-! ## Following the receiver through the feed -/

namespace Interleaved

variable {tx : SmartLinkTx} {m : Message} {feed : List Heard}

/-- The frame of the message that arrives after `t` others is the one the code has at `t`. -/
theorem airFrame_own (h : Interleaved tx m feed) {i : Nat} (hi : i < feed.length)
    (hown : feed[i].own = true) :
    (smartCode.encode m.air)[ownBefore feed i]? = some (airFrame feed[i].frame.sendlen) := by
  have hsplit : feed.filter (·.own) =
      (feed.take i).filter (·.own) ++ feed[i] :: (feed.drop (i + 1)).filter (·.own) := by
    conv_lhs => rw [← List.take_append_drop i feed, List.drop_eq_getElem_cons hi]
    rw [List.filter_append, List.filter_cons_of_pos hown]
  -- frame `i` of the feed comes at position `ownBefore feed i` of the transmission
  have hget := congrArg (·[ownBefore feed i]?) h.own
  simp only [m.send_eq, hsplit, List.map_append, List.map_cons, List.getElem?_map] at hget
  rw [List.getElem?_append_right (by simp [ownBefore])] at hget
  simp only [ownBefore, List.length_map, Nat.sub_self, List.getElem?_cons_zero] at hget
  obtain ⟨f, hf, hlen⟩ := Option.map_eq_some_iff.mp hget.symm
  rw [ownBefore, hf, ← hlen, airFrame_frameLength]

/-- A foreign frame comes after the START byte. -/
theorem two_le_of_foreign (h : Interleaved tx m feed) {i : Nat} (hi : i < feed.length)
    (hown : feed[i].own = false) : 2 ≤ ownBefore feed i := by
  have h2 : 2 ≤ i := by
    by_contra hlt
    have hmem : feed[i] ∈ feed.take 2 := List.mem_take_iff_getElem.mpr ⟨i, by omega, rfl⟩
    rw [h.start _ hmem] at hown
    exact Bool.noConfusion hown
  have hall : (feed.take 2).filter (·.own) = feed.take 2 := List.filter_eq_self.mpr h.start
  have hpre : feed.take 2 <+: feed.take i := List.take_prefix_take_left h2
  have hle := (hpre.filter (·.own)).length_le
  rw [hall, List.length_take] at hle
  rw [ownBefore]
  omega

/-- Before the terminator the receiver is in step and has called nothing; from the terminator on
it has delivered, once, and every further frame that is not its own is ignored. -/
theorem transmission_inv (h : Interleaved tx m feed) (i : Nat) (hi : i ≤ feed.length)
    (ht : ownBefore feed i ≤ 2 * (m.stop + 2)) :
    if ownBefore feed i < 2 * (m.stop + 2) then
      InStep m (ownBefore feed i) (rxAfter (heard (feed.take i))) ∧
        rxCalls (heard (feed.take i)) = []
    else
      Finished m (rxAfter (heard (feed.take i))) ∧
        ∃ c, rxCalls (heard (feed.take i)) = [c] ∧ c.Delivers (m.bytes.take m.stop) := by
  induction i with
  | zero =>
      rw [if_pos (by simp [ownBefore])]
      exact ⟨inStep_start m, rfl⟩
  | succ i ih =>
      have hi' : i < feed.length := hi
      rw [heard_take_succ hi', rxAfter_concat, rxCalls_concat]
      cases hown : feed[i].own with
      | true =>
          have hcount : ownBefore feed (i + 1) = ownBefore feed i + 1 := by
            simp [ownBefore_succ hi', hown]
          rw [hcount] at ht ⊢
          have hrec := ih (Nat.le_of_lt hi') (by omega)
          rw [if_pos (by omega)] at hrec
          obtain ⟨-, hmid, hend⟩ := hrec.1.own (by omega) (h.airFrame_own hi' hown)
          rw [hrec.2]
          split
          · next hlt =>
            obtain ⟨hin, hnone⟩ := hmid hlt
            exact ⟨hin, by rw [hnone]; rfl⟩
          · next hge =>
            obtain ⟨hfin, c, hc, hfor⟩ := hend (by omega)
            exact ⟨hfin, c, by rw [hc]; rfl, hfor.delivers⟩
      | false =>
          have hcount : ownBefore feed (i + 1) = ownBefore feed i := by
            simp [ownBefore_succ hi', hown]
          rw [hcount] at ht ⊢
          have hrec := ih (Nat.le_of_lt hi') ht
          have hrej : ¬ rxAccepts (rxAfter (heard (feed.take i))) feed[i].frame.sendlen :=
            h.foreign i hi' hown
          have h2 := h.two_le_of_foreign hi' hown
          split
          · next hlt =>
            rw [if_pos hlt] at hrec
            rw [hrec.1.foreign h2 hrej]
            exact ⟨hrec.1, by rw [hrec.2]; rfl⟩
          · next hge =>
            rw [if_neg hge] at hrec
            rw [hrec.1.foreign hrej]
            simpa using hrec

end Interleaved

/-! ## The round trip -/

/-- **Decoding undoes encoding**, up to the first in-band terminator and whatever rejected traffic
comes in between. -/
theorem decode_undoes_encode (tx : SmartLinkTx) (m : Message) (feed : List Heard)
    (h : Interleaved tx m feed) :
    (∀ (i : Nat) (hi : i < feed.length), feed[i].own = true → ownBefore feed i ≤ 2 * m.stop + 3 →
      rxAccepts (rxAfter (heard (feed.take i))) feed[i].frame.sendlen ∧
      rxCalls (heard (feed.take i)) = [] ∧
      (ownBefore feed i < 2 * m.stop + 3 → rxCalls (heard (feed.take (i + 1))) = []) ∧
      (ownBefore feed i = 2 * m.stop + 3 →
        ∃ c, rxCalls (heard (feed.take (i + 1))) = [c] ∧ c.mac = feed[i].frame.saddr ∧
          c.Delivers (m.bytes.take m.stop))) ∧
    (m.Plain → ∃ c, rxCalls (heard feed) = [c] ∧ c.Delivers m.bytes) := by
  constructor
  · intro i hi hown ht
    have hinv := h.transmission_inv i (Nat.le_of_lt hi) (by omega)
    rw [if_pos (by omega)] at hinv
    obtain ⟨hacc, hmid, hend⟩ := hinv.1.own (by omega) (h.airFrame_own hi hown)
    refine ⟨hacc, hinv.2, fun hlt => ?_, fun heq => ?_⟩
    · rw [heard_take_succ hi, rxCalls_concat, hinv.2, (hmid (by omega)).2]; rfl
    · obtain ⟨-, c, hc, hfor⟩ := hend (by omega)
      rw [heard_take_succ hi, rxCalls_concat, hinv.2, hc]
      exact ⟨c, rfl, hfor.mac, hfor.delivers⟩
  · intro hplain
    have hstop := hplain.stop_eq
    have hall : ownBefore feed feed.length = 2 * (m.stop + 2) := by
      have hlen := congrArg List.length h.own
      rw [m.send_eq, List.length_map, List.length_map, ChainCode.length_encode, m.length_air,
        ← hstop] at hlen
      rw [ownBefore, List.take_length, hlen]
    have hinv := h.transmission_inv feed.length (Nat.le_refl _) (Nat.le_of_eq hall)
    rw [if_neg (by omega), List.take_length] at hinv
    obtain ⟨-, c, hc, hdel⟩ := hinv
    exact ⟨c, hc, by rwa [hstop, List.take_length] at hdel⟩

/-- `A`, with one foreign frame after the START byte and one after the delivery. -/
def letterAFeed : List Heard :=
  [⟨⟨31, #v[2, 0, 0, 0, 0, 3]⟩, true⟩, ⟨⟨135, #v[2, 0, 0, 0, 0, 3]⟩, true⟩,
   ⟨⟨100, #v[2, 0, 0, 0, 0, 4]⟩, false⟩, ⟨⟨236, #v[2, 0, 0, 0, 0, 3]⟩, true⟩,
   ⟨⟨137, #v[2, 0, 0, 0, 0, 3]⟩, true⟩, ⟨⟨111, #v[2, 0, 0, 0, 0, 3]⟩, true⟩,
   ⟨⟨71, #v[2, 0, 0, 0, 0, 3]⟩, true⟩, ⟨⟨100, #v[2, 0, 0, 0, 0, 4]⟩, false⟩]

theorem decode_undoes_encode_letterA :
    ∃ c, rxCalls (heard letterAFeed) = [c] ∧ c.Delivers [0x41] :=
  (decode_undoes_encode ⟨0⟩ Message.letterA letterAFeed
    { own := by rw [Message.letterA.send_eq]; decide +kernel
      start := by decide
      foreign := by decide +kernel }).2 (by decide)

/-! ## The length that goes with it -/

/-- The call that a transmission leads to. -/
theorem exists_call {tx : SmartLinkTx} {m : Message} (hplain : m.Plain) {fs : List Frame}
    (hfs : fs.map (·.sendlen) = m.send tx) : ∃ f c, rxCalls fs = [c] ∧ CallFor f m.bytes c := by
  have hframes : airFrames fs = (smartCode.encode m.air).drop 0 := airFrames_of_send hfs
  obtain ⟨-, f, c, -, hc, hfor⟩ :=
    (inStep_start m).run_rest hplain (by rw [m.length_air]; omega) hframes
  exact ⟨f, c, hc, hfor⟩

/-- **The length handed over is never that of the message**: it counts the two framing bytes as
well, of which the buffer starts behind the first. -/
theorem call_length (tx : SmartLinkTx) (m : Message) (hplain : m.Plain) (fs : List Frame)
    (hfs : fs.map (·.sendlen) = m.send tx) :
    ∃ c, rxCalls fs = [c] ∧ c.Delivers m.bytes ∧ c.len = m.bytes.length + 2 ∧
      ¬ (c.len = m.bytes.length ∧ c.buf.take c.len = m.bytes) := by
  obtain ⟨f, c, hc, hfor⟩ := exists_call hplain hfs
  have hlen := hfor.len
  exact ⟨c, hc, hfor.delivers, hlen, fun h => by omega⟩

theorem call_length_letterA :
    ∃ c, rxCalls (framesFrom macZero (Message.letterA.send ⟨0⟩)) = [c] ∧ c.Delivers [0x41] ∧
      c.len = 3 ∧ ¬ (c.len = 1 ∧ c.buf.take c.len = [0x41]) :=
  call_length ⟨0⟩ Message.letterA (by decide) _ (map_sendlen_framesFrom _ _)

/-- One byte is sent and three are reported. -/
theorem not_call_length_letterA :
    ¬ ∃ c, rxCalls (framesFrom macZero (Message.letterA.send ⟨0⟩)) = [c] ∧ c.len = 1 ∧
      c.buf.take c.len = [0x41] := by
  rintro ⟨c, hc, hlen, -⟩
  obtain ⟨f, c', hc', hfor⟩ :=
    exists_call (by decide) (map_sendlen_framesFrom macZero (Message.letterA.send ⟨0⟩))
  obtain rfl : c = c' := List.singleton_inj.mp (hc.symm.trans hc')
  have hthree : c.len = 3 := hfor.len
  omega

end SmartConfig
