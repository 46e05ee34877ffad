import SmartConfig.SmartLinkRx.Join

/-!
# `smartlinkrx.c`: the receiving thread keeps up

Until `threadExit` is set, the receiving thread waits for nobody, and a packet costs it five steps
at most: `keeps_up`.
-/

namespace SmartConfig

open RxWorld

/-- How far the thread has come since it took the last packet, in a receiver that nobody stops. -/
def ThreadPoint.turns : ThreadPoint → Option Nat
  | .decode _ => some 2
  | .callback _ => some 3
  | .tail => some 4
  | .deInit .check => some 4
  | .deInit .setExit => some 5
  | .head => some 5
  | .recv => some 6
  | _ => none

namespace RxWorld

variable {packets : Nat → Option (List UInt8)} {tearsDown : RxCall → Bool} {v w : RxWorld} {n : Nat}

/-- The receiver runs, and its thread has made `n` steps. -/
structure Working (n : Nat) (w : RxWorld) : Prop where
  sockFd : 0 < w.ctx.sockFd
  main : w.main = .running ∨ w.main = .deInit .check ∨ w.main = .deInit .setExit
  thread : ∃ k, w.thread.turns = some k ∧ n + 5 ≤ 5 * w.received + k

theorem Working.stepMain (h : Working n w) (hstep : w.stepMain = some v)
    (hexit : v.ctx.threadExit = false) (hbefore : w.ctx.threadExit = false) : Working n v := by
  obtain ⟨hfd, hmain, hthread⟩ := h
  rw [RxWorld.stepMain] at hstep
  rcases hmain with hmain | hmain | hmain
  · rw [hmain] at hstep
    cases hstep
    exact ⟨hfd, .inr (.inl rfl), hthread⟩
  · rw [hmain] at hstep
    cases hstep
    refine ⟨hfd, .inr (.inr ?_), hthread⟩
    show MainPoint.deInit (if w.ctx.threadExit then .close else .setExit) = _
    rw [hbefore]
    rfl
  · rw [hmain] at hstep
    cases hstep
    cases hexit

theorem Working.stepThread (h : Working n w) (hstep : w.stepThread packets tearsDown = some v)
    (hexit : v.ctx.threadExit = false) (hbefore : w.ctx.threadExit = false) :
    Working (n + 1) v := by
  obtain ⟨hfd, hmain, k, hk, hturns⟩ := h
  rw [RxWorld.stepThread] at hstep
  cases hthread : w.thread with
  | head =>
      rw [hthread] at hk hstep
      obtain rfl := Option.some.inj hk
      cases hstep
      refine ⟨hfd, hmain, 6, ?_, by show n + 1 + 5 ≤ 5 * w.received + 6; omega⟩
      show (if w.ctx.threadExit then ThreadPoint.exited else .recv).turns = _
      rw [hbefore]
      rfl
  | recv =>
      rw [hthread] at hk hstep
      obtain rfl := Option.some.inj hk
      dsimp only at hstep
      rw [if_neg (by omega)] at hstep
      cases hstep
      -- a packet that is no frame, or one that goes to the decoder
      by_cases hresult : (socketRevcRawpacket (packets w.received) w.radiotap).1 ≤ 0
      · refine ⟨hfd, hmain, 5, ?_, by show n + 1 + 5 ≤ 5 * (w.received + 1) + 5; omega⟩
        dsimp only
        rw [if_pos hresult]
        rfl
      · refine ⟨hfd, hmain, 2, ?_, by show n + 1 + 5 ≤ 5 * (w.received + 1) + 2; omega⟩
        dsimp only
        rw [if_neg hresult]
        rfl
  | decode sendlen =>
      rw [hthread] at hk hstep
      obtain rfl := Option.some.inj hk
      dsimp only at hstep
      split at hstep
      · cases hstep
        exact ⟨hfd, hmain, 5, rfl, by show n + 1 + 5 ≤ 5 * w.received + 5; omega⟩
      · cases hstep
        exact ⟨hfd, hmain, 3, rfl, by show n + 1 + 5 ≤ 5 * w.received + 3; omega⟩
  | callback c =>
      rw [hthread] at hk hstep
      obtain rfl := Option.some.inj hk
      cases hstep
      refine ⟨hfd, hmain, 4, ?_, by show n + 1 + 5 ≤ 5 * w.received + 4; omega⟩
      dsimp only
      cases tearsDown c <;> rfl
  | deInit q =>
      rw [hthread] at hk hstep
      cases q with
      | check =>
          obtain rfl := Option.some.inj hk
          cases hstep
          refine ⟨hfd, hmain, 5, ?_, by show n + 1 + 5 ≤ 5 * w.received + 5; omega⟩
          show (ThreadPoint.deInit (if w.ctx.threadExit then .close else .setExit)).turns = _
          rw [hbefore]
          rfl
      | setExit =>
          cases hstep
          cases hexit
      | join | close | free => cases hk
  | tail =>
      rw [hthread] at hk hstep
      obtain rfl := Option.some.inj hk
      cases hstep
      exact ⟨hfd, hmain, 5, rfl, by show n + 1 + 5 ≤ 5 * w.received + 5; omega⟩
  | exited =>
      rw [hthread] at hk
      cases hk

/-- Nobody takes `threadExit` back. -/
theorem threadExit_of_step {p : Party} (hstep : w.step packets tearsDown p = some v)
    (hexit : v.ctx.threadExit = false) : w.ctx.threadExit = false := by
  cases hbefore : w.ctx.threadExit with
  | false => rfl
  | true =>
      have hset : v.ctx.threadExit = true := by
        cases p with
        | main => exact (ending_stepMain hbefore hstep).threadExit
        | thread => exact (ending_stepThread hbefore hstep).threadExit
      exact absurd (hset.symm.trans hexit) (by decide)

theorem working_of_run {sockFd : Int} (hfd : 0 < sockFd) {u16Channel : UInt16}
    {schedule : List Party}
    (hrun : (start sockFd u16Channel).run packets tearsDown schedule = some w)
    (hexit : w.ctx.threadExit = false) : Working (schedule.count .thread) w := by
  have hstart : Working 0 (start sockFd u16Channel) := ⟨hfd, .inl rfl, 5, rfl, Nat.le_refl _⟩
  have h := PartialRun.run_inv_count
    (I := fun n w => w.ctx.threadExit = false → Working n w) (i := Party.thread)
    (fun n s p t hs hst ht => ?_) 0 (fun _ => hstart) hrun hexit
  · rwa [Nat.zero_add] at h
  · have hbefore := threadExit_of_step hst ht
    cases p with
    | main => exact (hs hbefore).stepMain hst ht hbefore
    | thread => exact (hs hbefore).stepThread hst ht hbefore

/-- **The thread keeps up**: as long as nobody has stopped it, it can move, and of every five steps
that it makes a packet is decoded. -/
theorem keeps_up {sockFd : Int} (hfd : 0 < sockFd) {u16Channel : UInt16} {schedule : List Party}
    (hrun : (start sockFd u16Channel).run packets tearsDown schedule = some w)
    (hexit : w.ctx.threadExit = false) :
    (w.step packets tearsDown .thread).isSome ∧
      schedule.count .thread ≤ 5 * w.decoded + 2 := by
  obtain ⟨hopen, -, k, hk, hturns⟩ := working_of_run hfd hrun hexit
  rw [step, RxWorld.stepThread, decoded]
  cases hthread : w.thread with
  | head | callback _ | tail =>
      -- five steps for the packets before, and the ones since the last
      rw [hthread] at hk
      obtain rfl := Option.some.inj hk
      exact ⟨rfl, by dsimp only; omega⟩
  | recv =>
      rw [hthread] at hk
      obtain rfl := Option.some.inj hk
      dsimp only
      rw [if_neg (by omega)]
      exact ⟨rfl, by omega⟩
  | decode sendlen =>
      rw [hthread] at hk
      obtain rfl := Option.some.inj hk
      refine ⟨?_, by dsimp only; omega⟩
      dsimp only
      split <;> rfl
  | deInit q =>
      rw [hthread] at hk
      cases q with
      | check | setExit =>
          obtain rfl := Option.some.inj hk
          exact ⟨rfl, by dsimp only; omega⟩
      | join | close | free => cases hk
  | exited =>
      rw [hthread] at hk
      cases hk

end RxWorld

end SmartConfig
