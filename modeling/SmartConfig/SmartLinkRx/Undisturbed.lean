import SmartConfig.SmartLinkRx.Threads

/-!
# `smartlinkrx.c`: what the receiving thread decodes, whoever else is there

`smartLinkRxDeInit` shares the context with the receiving thread and moves between any two of its
steps. `decodes_undisturbed` says that it has no influence on the decoder: the callbacks made so far
are those of the packets decoded so far, each once and in order.
-/

namespace SmartConfig

open RxWorld

/-- The callback that an act is. -/
def RxAct.call : RxAct → Option RxCall
  | .callback c => some c
  | _ => none

namespace RxWorld

variable {v w : RxWorld}

/-- The callbacks made so far. -/
def calls (w : RxWorld) : List RxCall := w.acts.filterMap RxAct.call

/-- What the two threads of a receiver do not share with the teardown. -/
structure SameDecoder (v w : RxWorld) : Prop where
  rx : w.ctx.rx = v.ctx.rx
  radiotap : w.radiotap = v.radiotap
  received : w.received = v.received
  calls : w.calls = v.calls

/-- The acts of a teardown are no callbacks. -/
theorem calls_of_acts {acts : List RxAct} (h : v.acts = w.acts ++ acts)
    (hsilent : acts.filterMap RxAct.call = []) : v.calls = w.calls := by
  rw [calls, calls, h, List.filterMap_append, hsilent, List.append_nil]

theorem sameDecoder_deInit {p : Party} {q : DeInitPoint} {q' : Option DeInitPoint}
    (h : w.deInit p q = some (v, q')) :
    SameDecoder w v ∧ v.main = w.main ∧ v.thread = w.thread := by
  cases q with
  | join =>
      cases p with
      | thread =>
          cases h
          exact ⟨⟨rfl, rfl, rfl, calls_of_acts rfl rfl⟩, rfl, rfl⟩
      | main =>
          rw [deInit] at h
          split at h
          · cases h
            exact ⟨⟨rfl, rfl, rfl, calls_of_acts rfl rfl⟩, rfl, rfl⟩
          · cases h
  | close =>
      rw [deInit] at h
      split at h
      · cases h
        exact ⟨⟨rfl, rfl, rfl, calls_of_acts rfl rfl⟩, rfl, rfl⟩
      · cases h
        exact ⟨⟨rfl, rfl, rfl, calls_of_acts rfl rfl⟩, rfl, rfl⟩
  | check | setExit | free =>
      cases h
      exact ⟨⟨rfl, rfl, rfl, calls_of_acts rfl rfl⟩, rfl, rfl⟩

/-- The program leaves the decoder and the thread alone. -/
theorem sameDecoder_stepMain (h : w.stepMain = some v) : SameDecoder w v ∧ v.thread = w.thread := by
  rw [stepMain] at h
  split at h
  · cases h
    exact ⟨⟨rfl, rfl, rfl, rfl⟩, rfl⟩
  · obtain ⟨⟨u, q'⟩, hstep, rfl⟩ := Option.map_eq_some_iff.mp h
    obtain ⟨hsame, -, hthread⟩ := sameDecoder_deInit hstep
    exact ⟨⟨hsame.rx, hsame.radiotap, hsame.received, hsame.calls⟩, hthread⟩
  · cases h

/-! ## Decoding -/

section Decoding

/-- What the first `n` calls of `recvfrom` find. -/
def taken (packets : Nat → Option (List UInt8)) (n : Nat) : List (Option (List UInt8)) :=
  (List.range n).map packets

variable {packets : Nat → Option (List UInt8)} {tearsDown : RxCall → Bool}

/-- The loop after `n` packets, if nobody else is there. -/
structure LoopAfter (packets : Nat → Option (List UInt8)) (n : Nat) (s : RxLoop)
    (calls : List RxCall) : Prop where
  state : processAfter (taken packets n) = s
  calls : processCalls (taken packets n) = calls

theorem LoopAfter.next {n : Nat} {s : RxLoop} {calls : List RxCall}
    (h : LoopAfter packets n s calls) :
    LoopAfter packets (n + 1) (smartlinkRxProcess s (packets n)).1
      (calls ++ (smartlinkRxProcess s (packets n)).2.toList) := by
  have htaken : taken packets (n + 1) = taken packets n ++ [packets n] := by
    rw [taken, List.range_succ, List.map_append]
    rfl
  have hstate := h.state
  have hcalls := h.calls
  rw [processAfter] at hstate
  rw [processCalls] at hcalls
  constructor
  · rw [processAfter, htaken, Mealy.run_concat, hstate]
  · rw [processCalls, htaken, Mealy.run_concat, hstate, hcalls]

/-- What the world has to do with the loop, wherever the thread is. -/
def Decoded (packets : Nat → Option (List UInt8)) (w : RxWorld) : Prop :=
  match w.thread with
  | .head | .recv | .exited => LoopAfter packets w.received ⟨w.ctx.rx, w.radiotap⟩ w.calls
  | .decode sendlen =>
    ∃ n radiotap, w.received = n + 1 ∧ LoopAfter packets n ⟨w.ctx.rx, radiotap⟩ w.calls ∧
      socketRevcRawpacket (packets n) radiotap = (sendlen, w.radiotap) ∧ 0 < sendlen
  | .callback c =>
    LoopAfter packets w.received
      ⟨{ w.ctx.rx with u32Sequence := w.ctx.rx.u32Sequence + 1 }, w.radiotap⟩ w.calls ∧ c ∈ w.calls
  | .deInit _ | .tail =>
    LoopAfter packets w.received
      ⟨{ w.ctx.rx with u32Sequence := w.ctx.rx.u32Sequence + 1 }, w.radiotap⟩ w.calls

theorem decoded_start (sockFd : Int) (u16Channel : UInt16) :
    Decoded packets (start sockFd u16Channel) := ⟨rfl, rfl⟩

/-- The teardown leaves it alone. -/
theorem Decoded.congr (h : Decoded packets w) (hsame : SameDecoder w v)
    (hthread : v.thread = w.thread) : Decoded packets v := by
  obtain ⟨hrx, hradiotap, hreceived, hcalls⟩ := hsame
  rw [Decoded, hthread, hrx, hradiotap, hreceived, hcalls]
  exact h

/-- The decoder has counted one nibble more when it has called back. -/
theorem u32Sequence_of_call {ctx : SmartLinkRx} {sendlen : Int} {saddr : Mac} {c : RxCall}
    (h : (smartlinkRxDecode ctx sendlen saddr).call = some c) :
    (smartlinkRxDecode ctx sendlen saddr).ctx.u32Sequence = ctx.u32Sequence + 1 := by
  have hcall : (rxStep ctx ⟨sendlen, saddr⟩).2 = some c := h
  obtain ⟨ho, hacc, -, -⟩ := rxStep_call hcall
  exact (rxStep_odd_counters ho hacc).2

theorem Decoded.decode {sendlen : Int} (h : Decoded packets w)
    (hthread : w.thread = .decode sendlen) :
    LoopAfter packets w.received
      ⟨(smartlinkRxDecode w.ctx.rx sendlen w.radiotap.saddr).ctx, w.radiotap⟩
      (w.calls ++ (smartlinkRxDecode w.ctx.rx sendlen w.radiotap.saddr).call.toList) := by
  rw [Decoded, hthread] at h
  obtain ⟨n, radiotap, hreceived, hloop, hresult, hpos⟩ := h
  have hprocess : smartlinkRxProcess ⟨w.ctx.rx, radiotap⟩ (packets n) =
      (⟨(smartlinkRxDecode w.ctx.rx sendlen w.radiotap.saddr).ctx, w.radiotap⟩,
        (smartlinkRxDecode w.ctx.rx sendlen w.radiotap.saddr).call) := by
    rw [smartlinkRxProcess]
    dsimp only
    rw [hresult, if_neg (by omega)]
  have hnext := hloop.next
  rw [hprocess] at hnext
  rw [hreceived]
  exact hnext

theorem Decoded.stepThread (h : Decoded packets w)
    (hstep : w.stepThread packets tearsDown = some v) :
    Decoded packets v := by
  rw [RxWorld.stepThread] at hstep
  have hdec := h
  rw [Decoded] at h
  cases hthread : w.thread with
  | head =>
      rw [hthread] at h hstep
      obtain rfl := Option.some.inj hstep
      have hcalls : (w.act [.touch .thread]).calls = w.calls := calls_of_acts rfl rfl
      rw [← hcalls] at h
      -- the decoder is where it was, whether the loop goes on or ends
      cases w.ctx.threadExit
      · exact h
      · exact h
  | recv =>
      rw [hthread] at h hstep
      dsimp only at hstep
      split at hstep
      · -- a socket that has been closed
        obtain rfl := Option.some.inj hstep
        have hcalls : (w.act [.touch .thread]).calls = w.calls := calls_of_acts rfl rfl
        rw [← hcalls] at h
        exact h
      · obtain rfl := Option.some.inj hstep
        have hcalls : (w.act [.touch .thread, .recvfrom]).calls = w.calls := calls_of_acts rfl rfl
        rw [← hcalls] at h
        by_cases hle : (socketRevcRawpacket (packets w.received) w.radiotap).1 ≤ 0
        · have hnext := LoopAfter.next h
          rw [smartlinkRxProcess, if_pos hle, Option.toList_none, List.append_nil] at hnext
          rw [Decoded, if_pos hle]
          exact hnext
        · rw [Decoded, if_neg hle]
          exact ⟨w.received, w.radiotap, rfl, h, rfl, by omega⟩
  | decode sendlen =>
      have hloop := hdec.decode hthread
      rw [hthread] at hstep
      dsimp only at hstep
      split at hstep
      · next hnone =>
        obtain rfl := Option.some.inj hstep
        rw [hnone, Option.toList_none, List.append_nil] at hloop
        have hcalls : (w.act [.touch .thread]).calls = w.calls := calls_of_acts rfl rfl
        rw [← hcalls] at hloop
        exact hloop
      · next c hc =>
        obtain rfl := Option.some.inj hstep
        have hcalls : (w.act [.touch .thread, .callback c]).calls = w.calls ++ [c] := by
          rw [calls, calls, act, List.filterMap_append]
          rfl
        -- the last `u32Sequence++` of the decoder comes after the callback
        have hseq := u32Sequence_of_call hc
        rw [hc, Option.toList_some, ← hcalls] at hloop
        refine ⟨⟨hloop.state.trans ?_, hloop.calls⟩, ?_⟩
        · show _ = (⟨{ (smartlinkRxDecode w.ctx.rx sendlen w.radiotap.saddr).ctx with
            u32Sequence := w.ctx.rx.u32Sequence + 1 }, w.radiotap⟩ : RxLoop)
          rw [← hseq]
        · show c ∈ (w.act [.touch .thread, .callback c]).calls
          rw [hcalls]
          exact List.mem_append_right _ List.mem_cons_self
  | callback c =>
      rw [hthread] at h hstep
      obtain rfl := Option.some.inj hstep
      cases htears : tearsDown c
      · exact h.1
      · exact h.1
  | deInit q =>
      rw [hthread] at h hstep
      obtain ⟨⟨u, q'⟩, hdeinit, rfl⟩ := Option.map_eq_some_iff.mp hstep
      obtain ⟨⟨hrx, hradiotap, hreceived, hcalls⟩, -, -⟩ := sameDecoder_deInit hdeinit
      dsimp only at h
      rw [← hrx, ← hradiotap, ← hreceived, ← hcalls] at h
      cases q' with
      | none => exact h
      | some q' => exact h
  | tail =>
      rw [hthread] at h hstep
      obtain rfl := Option.some.inj hstep
      have hcalls : (w.act [.touch .thread]).calls = w.calls := calls_of_acts rfl rfl
      dsimp only at h
      rw [← hcalls] at h
      exact h
  | exited =>
      rw [hthread] at hstep
      cases hstep

theorem Decoded.step {p : Party} (h : Decoded packets w)
    (hstep : w.step packets tearsDown p = some v) : Decoded packets v := by
  cases p with
  | main =>
      obtain ⟨hsame, hthread⟩ := sameDecoder_stepMain hstep
      exact h.congr hsame hthread
  | thread => exact h.stepThread hstep

theorem decoded_of_run {sockFd : Int} {u16Channel : UInt16} {schedule : List Party}
    (h : (start sockFd u16Channel).run packets tearsDown schedule = some w) : Decoded packets w :=
  PartialRun.run_inv (P := fun _ => True) (fun _ _ _ hv _ hstep => hv.step hstep)
    (decoded_start sockFd u16Channel) (fun _ _ => trivial) h

/-- The packets that have gone through the decoder; the one it works on has been taken already. -/
def decoded (w : RxWorld) : Nat :=
  match w.thread with
  | .decode _ => w.received - 1
  | _ => w.received

/-- The callbacks made so far are those of the packets decoded so far. -/
theorem calls_of_decoded (h : Decoded packets w) :
    w.calls = processCalls (taken packets w.decoded) := by
  rw [Decoded] at h
  rw [decoded]
  cases hthread : w.thread with
  | head | recv | exited | deInit _ | tail =>
      rw [hthread] at h
      exact h.calls.symm
  | decode sendlen =>
      rw [hthread] at h
      obtain ⟨n, radiotap, hreceived, hloop, -, -⟩ := h
      show w.calls = processCalls (taken packets (w.received - 1))
      rw [hreceived, Nat.add_sub_cancel]
      exact hloop.calls.symm
  | callback c =>
      rw [hthread] at h
      exact h.1.calls.symm

/-- However the threads are interleaved, as long as nobody uses what has been freed, the callbacks
are those of the packets decoded so far, and whenever the thread is at its loop the decoder is where
these packets take it. -/
theorem decodes_undisturbed (packets : Nat → Option (List UInt8)) (tearsDown : RxCall → Bool)
    (sockFd : Int) (u16Channel : UInt16) (schedule : List Party) (w : RxWorld)
    (hrun : (start sockFd u16Channel).definedRun packets tearsDown schedule = some w) :
    w.calls = processCalls (taken packets w.decoded) ∧
      (w.thread = .head ∨ w.thread = .recv ∨ w.thread = .exited →
        ⟨w.ctx.rx, w.radiotap⟩ = processAfter (taken packets w.received)) := by
  have h := decoded_of_run (PartialRun.run_of_guarded hrun)
  refine ⟨calls_of_decoded h, fun hthread => ?_⟩
  rw [Decoded] at h
  rcases hthread with hthread | hthread | hthread
  · rw [hthread] at h
    exact h.state.symm
  · rw [hthread] at h
    exact h.state.symm
  · rw [hthread] at h
    exact h.state.symm

/-- The frames of a message of one letter, and then nothing. -/
def letterAStream (k : Nat) : Option (List UInt8) :=
  [31, 135, 236, 137, 111, 71][k]?.map (dataPacket macZero)

/-- The callback stops its own receiver, and the program finishes when the thread has ended. -/
def stopInCallback : List Party :=
  List.replicate 21 .thread ++ [.main, .main, .thread, .thread, .thread, .main, .main]

theorem decodes_undisturbed_letterA :
    ∃ w, (start 3 6).definedRun letterAStream (fun _ => true) stopInCallback = some w ∧
      w.main = .returned ∧ w.calls.length = 1 ∧
      w.calls = processCalls (taken letterAStream w.decoded) ∧
      ⟨w.ctx.rx, w.radiotap⟩ = processAfter (taken letterAStream w.received) := by
  have hrun : ((start 3 6).definedRun letterAStream (fun _ => true) stopInCallback).map
      (fun w => (w.main, w.thread, w.calls.length)) = some (.returned, .exited, 1) := by
    decide +kernel
  obtain ⟨w, hw, hend⟩ := Option.map_eq_some_iff.mp hrun
  simp only [Prod.mk.injEq] at hend
  obtain ⟨hmain, hthread, hcalls⟩ := hend
  have h := decodes_undisturbed letterAStream (fun _ => true) 3 6 stopInCallback w hw
  exact ⟨w, hw, hmain, hcalls, h.1, h.2 (.inr (.inr hthread))⟩

end Decoding

end RxWorld

end SmartConfig
