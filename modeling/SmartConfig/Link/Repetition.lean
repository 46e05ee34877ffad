import Mathlib.Data.List.Chain
import SmartConfig.Link.Roundtrip

/-!
# Transmission after transmission

The sender starts every message from sequence 0; the receiver never goes back to the start by
itself. After a delivery it is in step with the next message exactly as far as that message repeats
what it holds (`Continues`), and messages that continue each other are all delivered
(`successive_delivered`).
-/

namespace SmartConfig

open Nibble Received

/-! ## Several messages on the air -/

/-- The lengths of several messages; each call starts with the context the one before it left. -/
def sendAll : SmartLinkTx → List Message → List Int
  | _, [] => []
  | tx, m :: ms => m.send tx ++ sendAll (smartlinkTxSend tx m.bytes m.size).2 ms

theorem sendAll_eq (tx : SmartLinkTx) (ms : List Message) :
    sendAll tx ms = (ms.flatMap fun m => smartCode.encode m.air).map frameLength := by
  induction ms generalizing tx with
  | nil => rfl
  | cons m ms ih => rw [sendAll, ih, m.send_eq, List.flatMap_cons, List.map_append]

/-- The frames of the first message, and those of the rest. -/
theorem split_sendAll {tx : SmartLinkTx} {m : Message} {ms : List Message} {fs : List Frame}
    (h : fs.map (·.sendlen) = sendAll tx (m :: ms)) :
    ∃ fs1 fs2, fs = fs1 ++ fs2 ∧ airFrames fs1 = smartCode.encode m.air ∧
      ∃ tx', fs2.map (·.sendlen) = sendAll tx' ms := by
  rw [sendAll] at h
  obtain ⟨fs1, fs2, rfl, h1, h2⟩ := List.map_eq_append_iff.mp h
  exact ⟨fs1, fs2, rfl, airFrames_of_send (t := 0) h1, _, h2⟩

/-! ## Going on after a delivery -/

/-- `m'` repeats everything that a delivery of `m` leaves in the receiver, and none of the frames
that say so again has the check value that the receiver waits for. -/
structure Continues (m m' : Message) : Prop where
  holds : m.bytes ++ [0x00] <+: m'.bytes
  again : UInt8.ofNat (2 * (m.bytes.length + 2)) ∉
    ((smartCode.encode m'.air).take (2 * (m.bytes.length + 2))).map Prod.fst

/-- After a delivery, the nibbles held are those of START, the message and the cleared byte. -/
theorem Finished.nibs_eq {m : Message} (hplain : m.Plain) :
    m.air.take (2 * (m.stop + 1)) ++ [0, 0] = nibbles (START_FLAGS :: (m.bytes ++ [0x00])) := by
  have hcut : (framed m.bytes).take (m.bytes.length + 1) = START_FLAGS :: m.bytes := by
    rw [framed, List.take_succ_cons, List.take_left]
  rw [hplain.stop_eq, Message.air, nibbles_take, hcut, ← List.cons_append, nibbles_append]
  rfl

/-- A frame that says what is held already is ignored. -/
theorem Finished.run_again {m : Message} {ctx : SmartLinkRx} {fs : List Frame}
    (hrej : ∀ f ∈ fs, ¬ rxAccepts ctx f.sendlen) (h : Finished m ctx) :
    Mealy.run rxStep ctx fs = (ctx, []) := by
  induction fs with
  | nil => rfl
  | cons f fs ih =>
      have hstep := h.foreign (hrej f (by simp))
      rw [Mealy.run_cons, hstep, ih fun g hg => hrej g (by simp [hg])]
      rfl

/-- What a delivery leaves behind is the beginning of a message that continues it. -/
theorem Continues.inStep {m m' : Message} (hplain : m.Plain) (hcont : Continues m m')
    {ctx : SmartLinkRx} (h : Finished m ctx) : InStep m' (2 * (m.bytes.length + 2)) ctx := by
  obtain ⟨r, hr, hnibs⟩ := h
  obtain ⟨rest, hrest⟩ := hcont.holds
  refine ⟨r, hr, ?_, fun h0 => by omega⟩
  have hcut : (framed m'.bytes).take (m.bytes.length + 2) = START_FLAGS :: (m.bytes ++ [0x00]) := by
    rw [framed, List.take_succ_cons, ← hrest, List.append_assoc, List.take_left']
    simp
  rw [hnibs, Finished.nibs_eq hplain, Message.air, nibbles_take, hcut]

/-- After a delivery the receiver waits for the check value of the position behind it. -/
theorem Finished.accepts_iff {m : Message} (hplain : m.Plain) {ctx : SmartLinkRx}
    (h : Finished m ctx) {f : Frame} :
    rxAccepts ctx f.sendlen ↔
      (airFrame f.sendlen).1 = UInt8.ofNat (2 * (m.bytes.length + 2)) := by
  obtain ⟨r, hr, hnibs⟩ := h
  have hlen : (START_FLAGS :: (m.bytes ++ [0x00])).length = m.bytes.length + 2 := by simp
  have hlast : (START_FLAGS :: (m.bytes ++ [0x00])).getD (m.bytes.length + 2 - 1) 0 = 0x00 := by
    simp
  rw [hr.accepts_iff, hnibs, Finished.nibs_eq hplain, expected_nibbles, hlen, hlast,
    show (0x00 : UInt8) &&& 0xF = 0 from rfl, UInt8.zero_xor]

/-- **The next message** after a delivery, if it continues what was delivered. -/
theorem Finished.next {m m' : Message} {ctx : SmartLinkRx} (h : Finished m ctx) (hplain : m.Plain)
    (hplain' : m'.Plain) (hcont : Continues m m') {fs : List Frame}
    (hfs : airFrames fs = smartCode.encode m'.air) :
    Finished m' (Mealy.run rxStep ctx fs).1 ∧
      ∃ c, (Mealy.run rxStep ctx fs).2 = [c] ∧ c.Delivers m'.bytes := by
  have hlen := hcont.holds.length_le
  rw [List.length_append, List.length_singleton] at hlen
  have hair := m'.length_air
  -- what is held already, and the rest
  obtain ⟨again, rest, hsplit, hagain, hrest⟩ : ∃ again rest, fs = again ++ rest ∧
      airFrames again = (smartCode.encode m'.air).take (2 * (m.bytes.length + 2)) ∧
      airFrames rest = (smartCode.encode m'.air).drop (2 * (m.bytes.length + 2)) :=
    ⟨fs.take (2 * (m.bytes.length + 2)), fs.drop (2 * (m.bytes.length + 2)),
      (List.take_append_drop _ _).symm, by rw [← hfs, airFrames, airFrames, List.map_take],
      by rw [← hfs, airFrames, airFrames, List.map_drop]⟩
  have hrej : ∀ f ∈ again, ¬ rxAccepts ctx f.sendlen := by
    intro f hf hacc
    have hmem : airFrame f.sendlen ∈ airFrames again :=
      List.mem_map.mpr ⟨f, hf, rfl⟩
    rw [hagain] at hmem
    exact hcont.again (List.mem_map.mpr ⟨_, hmem, (h.accepts_iff hplain).mp hacc⟩)
  -- the first part is ignored, and the receiver is in step with the rest
  obtain ⟨hfin, f, c, -, hc, hfor⟩ :=
    (hcont.inStep hplain h).run_rest hplain' (by omega) hrest
  rw [hsplit, Mealy.run_append, h.run_again hrej]
  exact ⟨hfin, c, hc, hfor.delivers⟩

theorem Finished.run_sendAll {ms : List Message} : ∀ {m : Message} {ctx : SmartLinkRx},
    Finished m ctx → m.Plain → (∀ m' ∈ ms, m'.Plain) → (m :: ms).IsChain Continues →
    ∀ {tx : SmartLinkTx} {fs : List Frame}, fs.map (·.sendlen) = sendAll tx ms →
      List.Forall₂ (fun m c => RxCall.Delivers c m.bytes) ms (Mealy.run rxStep ctx fs).2 := by
  induction ms with
  | nil =>
      intro m ctx _ _ _ _ tx fs hfs
      rw [List.map_eq_nil_iff.mp hfs]
      exact .nil
  | cons m' ms ih =>
      intro m ctx h hplain hplains hchain tx fs hfs
      obtain ⟨hcont, hchain'⟩ := List.isChain_cons_cons.mp hchain
      obtain ⟨fs1, fs2, rfl, hfs1, tx', hfs2⟩ := split_sendAll hfs
      have hplain' := hplains m' (by simp)
      obtain ⟨hfin, c, hc, hdel⟩ := h.next hplain hplain' hcont hfs1
      have hrest := ih hfin hplain' (fun x hx => hplains x (by simp [hx])) hchain' hfs2
      rw [Mealy.run_append, hc, List.singleton_append]
      exact .cons hdel hrest

/-- **Messages that continue each other are all delivered**, each by its own call. -/
theorem successive_delivered (tx : SmartLinkTx) (ms : List Message) (hplain : ∀ m ∈ ms, m.Plain)
    (hchain : ms.IsChain Continues) (fs : List Frame) (hfs : fs.map (·.sendlen) = sendAll tx ms) :
    List.Forall₂ (fun m c => RxCall.Delivers c m.bytes) ms (rxCalls fs) := by
  cases ms with
  | nil =>
      rw [List.map_eq_nil_iff.mp hfs]
      exact .nil
  | cons m ms =>
      obtain ⟨fs1, fs2, rfl, hfs1, tx', hfs2⟩ := split_sendAll hfs
      have hplain1 := hplain m (by simp)
      obtain ⟨hfin, f, c, -, hc, hfor⟩ :=
        (inStep_start m).run_rest hplain1 (by rw [m.length_air]; omega) (by rw [hfs1]; rfl)
      have hrest := hfin.run_sendAll hplain1 (fun x hx => hplain x (by simp [hx])) hchain hfs2
      rw [rxCalls, Mealy.run_append, hc, List.singleton_append]
      exact .cons hfor.delivers hrest

/-- The message `AB`. -/
def lettersAB : Message where
  bytes := [0x41, 0x42]
  one_le := by decide
  le_253 := by decide

/-- `AB`, the cleared byte and `C`. -/
def lettersABC : Message where
  bytes := [0x41, 0x42, 0x00, 0x43]
  one_le := by decide
  le_253 := by decide

theorem successive_delivered_letters :
    List.Forall₂ (fun m c => RxCall.Delivers c m.bytes) [lettersAB, lettersABC]
      (rxCalls (framesFrom macZero (sendAll ⟨0⟩ [lettersAB, lettersABC]))) :=
  successive_delivered ⟨0⟩ [lettersAB, lettersABC] (by decide)
    (List.isChain_pair.mpr ⟨by decide, by decide⟩) _ (map_sendlen_framesFrom _ _)

/-- `AB` after `A` is not delivered. -/
theorem not_successive_delivered :
    ¬ List.Forall₂ (fun m c => RxCall.Delivers c m.bytes) [Message.letterA, lettersAB]
      (rxCalls (framesFrom macZero (sendAll ⟨0⟩ [Message.letterA, lettersAB]))) := by
  intro h
  have hlen := h.length_eq
  rw [sendAll_eq] at hlen
  revert hlen
  decide +kernel

end SmartConfig
