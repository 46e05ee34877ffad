import SmartConfig.Link.Capture
import SmartConfig.SmartLinkRx.Nested
import SmartConfig.SmartLinkRx.Progress
import SmartConfig.SmartLinkTx.Closing

/-!
# Several callers and one receiver

Calls of `smartlinkTxSend` for different messages compete for a transmitter, which may be closed at
any time, and a receiver that has its first byte never goes back to the start. `first_call_wins`:
on a channel without loss, the call that gets the mutex first decides what the receiver hands over,
in every callback, however the threads on both sides are interleaved, as long as nobody uses a
context that has been freed. `delivers_in_time` says how soon: a receiver that nobody stops has
called back after five steps of its thread for each packet.
-/

namespace SmartConfig

open Nibble Received
open RxWorld (letterAStream stopInCallback)

namespace Message

/-- The transmission up to the frame that completes a terminator. -/
def untilStop (tx : SmartLinkTx) (m : Message) : List Int := (m.send tx).take (2 * (m.stop + 2))

/-- The C string of what is delivered. -/
def string (m : Message) : List UInt8 := (m.bytes.take m.stop).takeWhile (· ≠ 0x00)

/-- The call that sends the message. -/
def call (m : Message) : TxCall := ⟨m.bytes, m.size⟩

theorem alone_call (tx : SmartLinkTx) (m : Message) : m.call.alone tx = m.send tx := rfl

theorem length_send (tx : SmartLinkTx) (m : Message) :
    (m.send tx).length = 2 * (m.bytes.length + 2) := by
  rw [m.send_eq, List.length_map, ChainCode.length_encode, m.length_air]

end Message

/-! ## The receiver -/

section Receiver

variable {tx : SmartLinkTx} {m : Message} {fs : List Frame} {rs : List (Option (List UInt8))}

/-- Before the stop, nothing is called back. -/
theorem calls_before_stop (h : fs.map (·.sendlen) <+: m.send tx)
    (hlt : fs.length < 2 * (m.stop + 2)) : rxCalls fs = [] := by
  have hair : airFrames fs <+: (smartCode.encode m.air).drop 0 := by
    rw [airFrames_eq, List.drop_zero, ← map_airFrame_send tx]
    exact h.map airFrame
  exact ((inStep_start m).run hair (by omega)).2

/-- At the stop, the bytes before it are. -/
theorem calls_of_stop (h : m.untilStop tx <+: fs.map (·.sendlen)) :
    ∃ c cs, rxCalls fs = c :: cs ∧ HandsOver (m.bytes.take m.stop) c := by
  have hstop := m.stop_le
  have hlen : (m.untilStop tx).length = 2 * (m.stop + 2) := by
    rw [Message.untilStop, List.length_take_of_le]
    rw [m.length_send]
    omega
  have hle : 2 * (m.stop + 2) ≤ fs.length := by
    have hlength := h.length_le
    rwa [hlen, List.length_map] at hlength
  -- the frames before the stop, the one that completes it, and the others
  obtain ⟨before, f, rest, rfl, hbefore⟩ : ∃ before f rest, fs = before ++ f :: rest ∧
      before.length + 1 = 2 * (m.stop + 2) := by
    have hlt : 2 * m.stop + 3 < fs.length := by omega
    refine ⟨fs.take (2 * m.stop + 3), fs[2 * m.stop + 3], fs.drop (2 * m.stop + 4), ?_, ?_⟩
    · rw [List.getElem_cons_drop, List.take_append_drop]
    · rw [List.length_take_of_le (by omega)]
      omega
  have hheard : m.untilStop tx = before.map (·.sendlen) ++ [f.sendlen] := by
    rw [List.prefix_iff_eq_take.mp h, hlen, ← hbefore, ← List.map_take, List.take_append,
      List.take_of_length_le (Nat.le_succ _), Nat.add_sub_cancel_left, List.map_append]
    rfl
  have hsend : before.map (·.sendlen) ++ [f.sendlen] <+: m.send tx := by
    rw [← hheard]
    exact List.take_prefix _ _
  have hair : airFrames before ++ [airFrame f.sendlen] <+: smartCode.encode m.air := by
    rw [← map_airFrame_send tx, airFrames_eq]
    have hmap := hsend.map airFrame
    rwa [List.map_append] at hmap
  have hget : (smartCode.encode m.air)[0 + before.length]? = some (airFrame f.sendlen) := by
    obtain ⟨ys, hys⟩ := hair
    rw [← hys, Nat.zero_add, List.append_assoc, List.getElem?_append_right (by simp [airFrames])]
    simp [airFrames]
  obtain ⟨hin, hnone⟩ := (inStep_start m).run ((List.prefix_append _ _).trans hair) (by omega)
  obtain ⟨-, c, hc, hfor⟩ := (hin.own (by omega) hget).2.2 (by omega)
  refine ⟨c, (Mealy.run rxStep (rxStep (rxAfter before) f).1 rest).2, ?_, hfor.len, hfor.delivers⟩
  rw [rxCalls, Mealy.run_append, hnone, List.nil_append, Mealy.run_cons, hc]
  rfl

/-- A receiver that has heard a message up to its stop hands over its string, then and ever
after. -/
theorem strings_of_stop
    (h : m.untilStop tx <+: (rs.filterMap capturedFrame).map (·.sendlen)) :
    processCalls rs ≠ [] ∧ ∀ c ∈ processCalls rs, c.string = m.string := by
  obtain ⟨c, cs, hcalls, hfirst⟩ := calls_of_stop h
  have hprocess : processCalls rs = c :: cs := (process_eq rs).2.trans hcalls
  have hnested := processCalls_extends rs
  rw [hprocess] at hnested ⊢
  refine ⟨List.cons_ne_nil _ _, fun c' hc' => ?_⟩
  rcases List.mem_cons.mp hc' with rfl | hc'
  · exact hfirst.string_eq
  · exact ((List.pairwise_cons.mp hnested).1 c' hc').string.trans hfirst.string_eq

end Receiver

/-! ## The sender -/

/-- The length that goes out. -/
def TxEvent.emitted : TxEvent → Option Int
  | .sendto sendlen => some sendlen
  | .close => none

/-- The lengths that have gone out. -/
def sentLengths (out : List TxEvent) : List Int := out.filterMap TxEvent.emitted

theorem sentLengths_sendto (ss : List Int) : sentLengths (ss.map .sendto) = ss := by
  rw [sentLengths, List.filterMap_map]
  exact List.filterMap_some

section Sender

variable {ι : Type*} {call : ι → TxCall} {c₀ : TxContext}
  {s : CriticalSection.State (Option ι) TxContext TxSharedPoint TxEvent}

theorem sentLengths_blocks (tx : SmartLinkTx) (before : List ι) :
    sentLengths (blocks call tx before) = before.flatMap fun i => (call i).alone tx :=
  sentLengths_sendto _

/-- Whatever has been sent begins with a transmission of one call, as far as it goes. -/
theorem sent_begins [DecidableEq ι] (hfd : 0 < c₀.sockfd) (h : (txClosing call).Reachable c₀ s) :
    sentLengths s.out = [] ∨
      ∃ i later, sentLengths s.out <+: (call i).alone c₀.tx ++ later := by
  have hblocks : ∀ {before : List ι} {later : List Int},
      sentLengths s.out = (before.flatMap fun i => (call i).alone c₀.tx) ++ later →
      before ≠ [] → ∃ i later, sentLengths s.out <+: (call i).alone c₀.tx ++ later := by
    intro before later hsent hne
    obtain ⟨i, before, rfl⟩ := List.exists_cons_of_ne_nil hne
    rw [hsent, List.flatMap_cons, List.append_assoc]
    exact ⟨i, _, List.prefix_rfl⟩
  rcases sent_of_reachable hfd h with
    ⟨before, begun, -, -, -, hout, hheld, hfree⟩ | ⟨before, -, -, -, hout⟩
  · have hsent : sentLengths s.out =
        (before.flatMap fun i => (call i).alone c₀.tx) ++ begun := by
      rw [hout, sentLengths, List.filterMap_append]
      exact congrArg₂ _ (sentLengths_blocks _ _) (sentLengths_sendto _)
    by_cases hne : before = []
    · -- the first transmission is still going on
      rw [hne, List.flatMap_nil, List.nil_append] at hsent
      by_cases howner : ∃ i, s.owner = some (some i)
      · obtain ⟨i, hi⟩ := howner
        refine .inr ⟨i, [], ?_⟩
        rw [hsent, List.append_nil]
        exact hheld i hi
      · rw [not_exists] at howner
        exact .inl (hsent.trans (hfree howner))
    · exact .inr (hblocks hsent hne)
  · have hsent : sentLengths s.out =
        (before.flatMap fun i => (call i).alone c₀.tx) ++ [] := by
      rw [hout, sentLengths, List.filterMap_append]
      exact congrArg₂ _ (sentLengths_blocks _ _) rfl
    by_cases hne : before = []
    · rw [hne] at hsent
      exact .inl hsent
    · exact .inr (hblocks hsent hne)

end Sender

/-! ## Both -/

/-- The lengths that a receiver has decoded. -/
def RxWorld.heard (w : RxWorld) (packets : Nat → Option (List UInt8)) : List Int :=
  ((RxWorld.taken packets w.decoded).filterMap capturedFrame).map (·.sendlen)

/-- **The first call wins.** Any number of calls compete for a transmitter that may be closed and
freed at any time, and a receiver that may be torn down at any time, by its own callback too, has
heard, in order, a beginning of what they have sent; on neither side has anything been used after
its release. It has called back exactly if that goes as far as the stop of the first call, and then
every callback hands over the string of that call. -/
theorem first_call_wins {ι : Type*} [DecidableEq ι] (m : ι → Message) (c₀ : TxContext) (n : Nat)
    (dev : Option String) (o : TxOutcome) (hinit : (smartlinktTxInit n dev o).2 = some c₀.sockfd)
    (s : TxWorld ι) (hs : TxReached (fun i => (m i).call) c₀ s)
    (packets : Nat → Option (List UInt8)) (tearsDown : RxCall → Bool) (sockFd : Int)
    (u16Channel : UInt16) (schedule : List Party) (w : RxWorld)
    (hrun : (RxWorld.start sockFd u16Channel).definedRun packets tearsDown schedule = some w)
    (hheard : w.heard packets <+: sentLengths s.calls.out) :
    (w.calls ≠ [] ↔ ∃ i, (m i).untilStop c₀.tx <+: w.heard packets) ∧
      ∀ i, (m i).untilStop c₀.tx <+: w.heard packets → ∀ c ∈ w.calls, c.string = (m i).string := by
  have hcalls : w.calls = processCalls (RxWorld.taken packets w.decoded) :=
    RxWorld.calls_of_decoded (RxWorld.decoded_of_run (PartialRun.run_of_guarded hrun))
  rw [hcalls]
  refine ⟨⟨fun hne => ?_, fun ⟨i, hi⟩ => (strings_of_stop hi).1⟩, fun i hi =>
    (strings_of_stop hi).2⟩
  -- a callback has a beginning of what was sent behind it, which is the first call's
  have hfirst := sent_begins (sockfd_pos_of_init hinit) hs.calls
  rcases hfirst with hnothing | ⟨i, later, hbegins⟩
  · -- nothing sent, nothing heard
    rw [hnothing, List.prefix_nil, RxWorld.heard, List.map_eq_nil_iff] at hheard
    rw [(process_eq _).2, hheard] at hne
    exact absurd rfl hne
  · have hprefix := hheard.trans hbegins
    rw [Message.alone_call] at hprefix
    have hstop := (m i).stop_le
    have hsend := (m i).length_send c₀.tx
    refine ⟨i, ?_⟩
    rcases Nat.lt_or_ge (w.heard packets).length (2 * ((m i).stop + 2)) with hshort | hlong
    · -- too little of the first transmission
      have hown : w.heard packets <+: (m i).send c₀.tx :=
        List.prefix_of_prefix_length_le hprefix (List.prefix_append _ _) (by omega)
      have hnone := calls_before_stop hown (by rwa [RxWorld.heard, List.length_map] at hshort)
      exact absurd ((process_eq _).2.trans hnone) hne
    · have huntil : (m i).untilStop c₀.tx <+: (m i).send c₀.tx ++ later :=
        (List.take_prefix _ _).trans (List.prefix_append _ _)
      refine List.prefix_of_prefix_length_le huntil hprefix ?_
      rw [Message.untilStop, List.length_take]
      omega

/-- Two messages, `A` and `B`. -/
def twoMessages (second : Bool) : Message where
  bytes := if second then [0x42] else [0x41]
  one_le := by cases second <;> decide
  le_253 := by cases second <;> decide

/-- The first call has been sent, the transmitter has been closed and freed, and the second call
still waits. -/
theorem exists_reached_freed :
    ∃ s, TxReached (fun i => (twoMessages i).call) ⟨⟨7⟩, 3⟩ s ∧ s.freed = true ∧
      s.calls.phase (some true) = .waiting ∧
      sentLengths s.calls.out = (twoMessages false).send ⟨7⟩ := by
  have hcall : (fun i => (twoMessages i).call) = twoCalls := by
    funext i
    cases i <;> rfl
  obtain ⟨s, hs, hdone, hwaits, hout⟩ := exists_reachable_closing
  rw [hcall]
  refine ⟨⟨s, true⟩, (TxReached.of_reachable hs).tail (.free hdone), rfl, hwaits, ?_⟩
  show sentLengths s.out = _
  rw [hout, sentLengths, List.filterMap_append]
  exact (congrArg₂ _ (sentLengths_sendto _) rfl).trans (List.append_nil _)

/-- The receiver has heard all of it, and its callback has stopped it. -/
theorem first_call_wins_letterA :
    ∃ s w, TxReached (fun i => (twoMessages i).call) ⟨⟨7⟩, 3⟩ s ∧ s.freed = true ∧
      s.calls.phase (some true) = .waiting ∧
      (RxWorld.start 3 6).definedRun letterAStream (fun _ => true) stopInCallback = some w ∧
      w.main = .returned ∧
      (w.calls ≠ [] ↔ ∃ i, (twoMessages i).untilStop ⟨7⟩ <+: w.heard letterAStream) ∧
      w.calls ≠ [] ∧ ∀ c ∈ w.calls, c.string = [0x41] := by
  obtain ⟨s, hs, hfreed, hwaits, hsent⟩ := exists_reached_freed
  have hrun : ((RxWorld.start 3 6).definedRun letterAStream (fun _ => true)
      stopInCallback).map (fun w => (w.main, w.heard letterAStream)) =
      some (.returned, [31, 135, 236, 137, 111, 71]) := by decide +kernel
  obtain ⟨w, hw, hend⟩ := Option.map_eq_some_iff.mp hrun
  obtain ⟨hmain, hheard⟩ := Prod.mk.inj hend
  have hair : [31, 135, 236, 137, 111, 71] = (twoMessages false).send ⟨7⟩ := by
    rw [Message.send_eq]
    decide +kernel
  have hfirst : (twoMessages false).untilStop ⟨7⟩ <+: w.heard letterAStream := by
    rw [hheard, hair]
    exact List.take_prefix _ _
  have hall : w.heard letterAStream = sentLengths s.calls.out := by rw [hheard, hsent, hair]
  have h := first_call_wins twoMessages ⟨⟨7⟩, 3⟩ 0 (some "wlan0") txUpOutcome rfl s hs
    letterAStream (fun _ => true) 3 6 stopInCallback w hw (hall ▸ List.prefix_rfl)
  exact ⟨s, w, hs, hfreed, hwaits, hw, hmain, h.1, h.1.mpr ⟨false, hfirst⟩, h.2 false hfirst⟩

/-! ## In time -/

theorem taken_prefix (packets : Nat → Option (List UInt8)) {n k : Nat} (h : n ≤ k) :
    RxWorld.taken packets n <+: RxWorld.taken packets k := by
  have htake : RxWorld.taken packets n = (RxWorld.taken packets k).take n := by
    rw [RxWorld.taken, RxWorld.taken, ← List.map_take, List.take_range, Nat.min_eq_left h]
  rw [htake]
  exact List.take_prefix _ _

/-- **Delivery in time.** A receiver whose first `n` packets begin with a message, up to its stop:
as long as nobody has stopped it, its thread can move, and once that has moved `5 * n - 2` times,
whatever the program has done in between, the message has been called back. -/
theorem delivers_in_time (tx : SmartLinkTx) (m : Message) (packets : Nat → Option (List UInt8))
    (n : Nat)
    (hfirst : m.untilStop tx <+:
      ((RxWorld.taken packets n).filterMap capturedFrame).map (·.sendlen))
    (tearsDown : RxCall → Bool) (sockFd : Int) (hfd : 0 < sockFd) (u16Channel : UInt16)
    (schedule : List Party) (w : RxWorld)
    (hrun : (RxWorld.start sockFd u16Channel).run packets tearsDown schedule = some w)
    (hexit : w.ctx.threadExit = false) :
    (w.step packets tearsDown .thread).isSome ∧
      (5 * n ≤ schedule.count .thread + 2 →
        w.calls ≠ [] ∧ ∀ c ∈ w.calls, c.string = m.string) := by
  obtain ⟨hmoves, hcount⟩ := RxWorld.keeps_up hfd hrun hexit
  refine ⟨hmoves, fun hturns => ?_⟩
  rw [RxWorld.calls_of_decoded (RxWorld.decoded_of_run hrun)]
  have htaken := taken_prefix packets (show n ≤ w.decoded by omega)
  exact strings_of_stop (hfirst.trans ((htaken.filterMap capturedFrame).map _))

/-- The program has begun to stop the receiver. -/
theorem delivers_in_time_letterA :
    ∃ w, (RxWorld.start 3 6).run letterAStream (fun _ => false)
        (.main :: List.replicate 28 .thread) = some w ∧
      w.calls ≠ [] ∧ ∀ c ∈ w.calls, c.string = [0x41] := by
  have hexit : ((RxWorld.start 3 6).run letterAStream (fun _ => false)
      (.main :: List.replicate 28 .thread)).map (·.ctx.threadExit) = some false := by decide +kernel
  obtain ⟨w, hrun, hw⟩ := Option.map_eq_some_iff.mp hexit
  have hfirst : Message.letterA.untilStop ⟨0⟩ <+:
      ((RxWorld.taken letterAStream 6).filterMap capturedFrame).map (·.sendlen) := by
    rw [Message.untilStop, Message.letterA.send_eq]
    decide +kernel
  exact ⟨w, hrun, (delivers_in_time ⟨0⟩ Message.letterA letterAStream 6 hfirst (fun _ => false) 3
    (by decide) 6 _ w hrun hw).2 (by decide)⟩

end SmartConfig
