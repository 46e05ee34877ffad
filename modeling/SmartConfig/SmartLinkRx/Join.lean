import SmartConfig.SmartLinkRx.Teardown

/-!
# `smartlinkrx.c`: the join

The socket does not block, so that the receiving thread always comes back to its loop, where it
sees `threadExit`. `deInit_returns` bounds what is left to do from there.
-/

namespace SmartConfig

/-- The steps that a call of `smartLinkRxDeInit` has left, at most. -/
def DeInitPoint.rank : DeInitPoint → Nat
  | .check => 5
  | .setExit => 4
  | .join => 3
  | .close => 2
  | .free => 1

def MainPoint.rank : MainPoint → Nat
  | .running => 6
  | .deInit q => q.rank
  | .returned => 0

/-- The steps that the thread has left, at most, once `threadExit` is set. -/
def ThreadPoint.rank : ThreadPoint → Nat
  | .recv => 10
  | .decode _ => 9
  | .callback _ => 8
  | .deInit q => q.rank + 2
  | .tail => 2
  | .head => 1
  | .exited => 0

/-- The packets it will still take. -/
def ThreadPoint.packetsLeft : ThreadPoint → Nat
  | .recv => 1
  | _ => 0

/-- The callbacks it will still make. -/
def ThreadPoint.callsLeft : ThreadPoint → Nat
  | .recv | .decode _ => 1
  | _ => 0

theorem DeInitPoint.rank_le (q : DeInitPoint) : q.rank ≤ 5 := by cases q <;> decide

theorem MainPoint.rank_le (t : MainPoint) : t.rank ≤ 6 := by
  cases t with
  | running => exact Nat.le_refl 6
  | deInit q => exact Nat.le_succ_of_le q.rank_le
  | returned => exact Nat.zero_le 6

theorem ThreadPoint.rank_le (t : ThreadPoint) : t.rank ≤ 10 := by
  cases t with
  | deInit q => exact Nat.le_trans (Nat.add_le_add_right q.rank_le 2) (by decide : 7 ≤ 10)
  | recv | decode | callback | tail | head | exited => simp [rank]

theorem ThreadPoint.packetsLeft_le (t : ThreadPoint) : t.packetsLeft ≤ 1 := by
  cases t <;> simp [packetsLeft]

theorem ThreadPoint.callsLeft_le (t : ThreadPoint) : t.callsLeft ≤ 1 := by
  cases t <;> simp [callsLeft]

namespace RxWorld

variable {packets : Nat → Option (List UInt8)} {tearsDown : RxCall → Bool} {v w : RxWorld}

def rank (w : RxWorld) : Nat := w.main.rank + w.thread.rank

/-- What a step leaves to do once `threadExit` is set. -/
structure Ending (w v : RxWorld) : Prop where
  threadExit : v.ctx.threadExit = true
  rank : v.rank < w.rank
  received : v.received + v.thread.packetsLeft ≤ w.received + w.thread.packetsLeft
  calls : v.calls.length + v.thread.callsLeft ≤ w.calls.length + w.thread.callsLeft

theorem deInit_rank {p : Party} {q : DeInitPoint} {q' : Option DeInitPoint}
    (hexit : w.ctx.threadExit = true) (h : w.deInit p q = some (v, q')) :
    v.ctx.threadExit = true ∧ q'.elim 0 DeInitPoint.rank < q.rank := by
  cases q with
  | check =>
      cases h
      rw [hexit]
      exact ⟨hexit, by decide⟩
  | setExit =>
      cases h
      exact ⟨rfl, by decide⟩
  | join =>
      cases p with
      | thread =>
          cases h
          exact ⟨hexit, by decide⟩
      | main =>
          rw [deInit] at h
          split at h
          · cases h
            exact ⟨hexit, by decide⟩
          · cases h
  | close =>
      rw [deInit] at h
      split at h
      · cases h
        exact ⟨hexit, by decide⟩
      · cases h
        exact ⟨hexit, by decide⟩
  | free =>
      cases h
      exact ⟨hexit, by decide⟩

theorem ending_stepMain (hexit : w.ctx.threadExit = true) (hstep : w.stepMain = some v) :
    Ending w v := by
  obtain ⟨⟨-, -, hreceived, hcalls⟩, hthread⟩ := sameDecoder_stepMain hstep
  have hmain : v.ctx.threadExit = true ∧ v.main.rank < w.main.rank := by
    rw [stepMain] at hstep
    cases hpoint : w.main with
    | running =>
        rw [hpoint] at hstep
        cases hstep
        exact ⟨hexit, Nat.lt_succ_self 5⟩
    | deInit q =>
        rw [hpoint] at hstep
        obtain ⟨⟨u, q'⟩, hdeinit, rfl⟩ := Option.map_eq_some_iff.mp hstep
        obtain ⟨hexit, hlower⟩ := deInit_rank hexit hdeinit
        refine ⟨hexit, ?_⟩
        cases q' with
        | none => exact hlower
        | some q' => exact hlower
    | returned =>
        rw [hpoint] at hstep
        cases hstep
  refine ⟨hmain.1, ?_, ?_, ?_⟩
  · rw [rank, rank, hthread]
    exact Nat.add_lt_add_right hmain.2 _
  · exact Nat.le_of_eq (by rw [hreceived, hthread])
  · exact Nat.le_of_eq (by rw [hcalls, hthread])

/-- The thread does not take another packet when it sees `threadExit`, and it has one delivery left
at most, that of the packet it has taken. -/
theorem ending_stepThread (hexit : w.ctx.threadExit = true)
    (hstep : w.stepThread packets tearsDown = some v) : Ending w v := by
  have hmain := main_of_stepThread hstep
  -- the program does not move, so that its part of the rank stays
  suffices h : v.ctx.threadExit = true ∧ v.thread.rank < w.thread.rank ∧
      v.received + v.thread.packetsLeft ≤ w.received + w.thread.packetsLeft ∧
      v.calls.length + v.thread.callsLeft ≤ w.calls.length + w.thread.callsLeft by
    refine ⟨h.1, ?_, h.2.2.1, h.2.2.2⟩
    rw [rank, rank, hmain]
    exact Nat.add_lt_add_left h.2.1 _
  rw [stepThread] at hstep
  have htouch : (w.act [.touch .thread]).calls = w.calls := calls_of_acts rfl rfl
  cases hthread : w.thread with
  | head =>
      rw [hthread, hexit] at hstep
      cases hstep
      refine ⟨hexit, Nat.zero_lt_one, Nat.le_refl _, ?_⟩
      exact Nat.le_of_eq (congrArg List.length htouch)
  | recv =>
      rw [hthread] at hstep
      dsimp only at hstep
      split at hstep
      · cases hstep
        refine ⟨hexit, (by decide : 1 < 10), Nat.le_succ _, ?_⟩
        exact Nat.le_succ_of_le (Nat.le_of_eq (congrArg List.length htouch))
      · cases hstep
        have hrecvfrom : (w.act [.touch .thread, .recvfrom]).calls = w.calls :=
          calls_of_acts rfl rfl
        have hlength := congrArg List.length hrecvfrom
        -- the one packet that may still be taken, and its delivery
        by_cases hle : (socketRevcRawpacket (packets w.received) w.radiotap).1 ≤ 0
        · rw [if_pos hle]
          refine ⟨hexit, (by decide : 1 < 10), Nat.le_refl _, ?_⟩
          exact Nat.le_succ_of_le (Nat.le_of_eq hlength)
        · rw [if_neg hle]
          refine ⟨hexit, Nat.lt_succ_self 9, Nat.le_refl _, ?_⟩
          exact Nat.add_le_add_right (Nat.le_of_eq hlength) 1
  | decode sendlen =>
      rw [hthread] at hstep
      dsimp only at hstep
      split at hstep
      · cases hstep
        refine ⟨hexit, (by decide : 1 < 9), Nat.le_refl _, ?_⟩
        exact Nat.le_succ_of_le (Nat.le_of_eq (congrArg List.length htouch))
      · next c _ =>
        cases hstep
        have hcalls : (w.act [.touch .thread, .callback c]).calls = w.calls ++ [c] := by
          rw [calls, calls, act, List.filterMap_append]
          rfl
        refine ⟨hexit, Nat.lt_succ_self 8, Nat.le_refl _, ?_⟩
        refine Nat.le_of_eq ((congrArg List.length hcalls).trans ?_)
        rw [List.length_append]
        rfl
  | callback c =>
      rw [hthread] at hstep
      cases hstep
      cases tearsDown c with
      | true => exact ⟨hexit, Nat.lt_succ_self 7, Nat.le_refl _, Nat.le_refl _⟩
      | false => exact ⟨hexit, (by decide : 2 < 8), Nat.le_refl _, Nat.le_refl _⟩
  | deInit q =>
      rw [hthread] at hstep
      obtain ⟨⟨u, q'⟩, hdeinit, rfl⟩ := Option.map_eq_some_iff.mp hstep
      obtain ⟨⟨-, -, hreceived, hcalls⟩, -, -⟩ := sameDecoder_deInit hdeinit
      obtain ⟨hexit, hlower⟩ := deInit_rank hexit hdeinit
      have hlength : u.calls.length ≤ w.calls.length := Nat.le_of_eq (congrArg List.length hcalls)
      cases q' with
      | none =>
          refine ⟨hexit, ?_, Nat.le_of_eq hreceived, hlength⟩
          exact Nat.lt_add_of_pos_left hlower
      | some q' =>
          refine ⟨hexit, ?_, Nat.le_of_eq hreceived, hlength⟩
          exact Nat.add_lt_add_right hlower 2
  | tail =>
      rw [hthread] at hstep
      cases hstep
      refine ⟨hexit, Nat.lt_succ_self 1, Nat.le_refl _, ?_⟩
      exact Nat.le_of_eq (congrArg List.length htouch)
  | exited =>
      rw [hthread] at hstep
      cases hstep

theorem rank_le (w : RxWorld) : w.rank ≤ 16 :=
  Nat.add_le_add w.main.rank_le w.thread.rank_le

/-- Only the join waits, and only for a thread that has steps left. -/
theorem returned_of_stuck (h : ∀ p, w.step packets tearsDown p = none) :
    w.main = .returned ∧ w.thread = .exited := by
  have hthread : w.thread = .exited := by
    have hstuck : w.stepThread packets tearsDown = none := h .thread
    rw [stepThread] at hstuck
    cases hpoint : w.thread with
    | exited => rfl
    | head | callback | tail =>
        rw [hpoint] at hstuck
        cases hstuck
    | recv =>
        rw [hpoint] at hstuck
        dsimp only at hstuck
        split at hstuck <;> cases hstuck
    | decode sendlen =>
        rw [hpoint] at hstuck
        dsimp only at hstuck
        split at hstuck <;> cases hstuck
    | deInit q =>
        rw [hpoint] at hstuck
        have hnone := Option.map_eq_none_iff.mp hstuck
        rw [deInit.eq_def] at hnone
        split at hnone
        · cases hnone
        · cases hnone
        · cases hnone
        · split at hnone <;> cases hnone
        · cases hnone
  refine ⟨?_, hthread⟩
  have hstuck : w.stepMain = none := h .main
  rw [stepMain] at hstuck
  cases hpoint : w.main with
  | returned => rfl
  | running =>
      rw [hpoint] at hstuck
      cases hstuck
  | deInit q =>
      rw [hpoint] at hstuck
      have hnone := Option.map_eq_none_iff.mp hstuck
      rw [deInit.eq_def] at hnone
      split at hnone
      · cases hnone
      · cases hnone
      · -- a join of a thread that has come to its end returns
        rw [if_pos hthread] at hnone
        cases hnone
      · split at hnone <;> cases hnone
      · cases hnone

/-- Once `threadExit` is set, whoever has set it, both threads together have at most sixteen steps
left, as long as nobody uses what has been freed or frees it again. One packet at most is still
taken and one delivered, and when nobody can move any more the thread has come to its end and
`smartLinkRxDeInit` has returned. -/
theorem deInit_returns (packets : Nat → Option (List UInt8)) (tearsDown : RxCall → Bool)
    (schedule : List Party) (w v : RxWorld) (hexit : w.ctx.threadExit = true)
    (hrun : w.definedRun packets tearsDown schedule = some v) :
    schedule.length ≤ 16 ∧ v.received ≤ w.received + 1 ∧ v.calls.length ≤ w.calls.length + 1 ∧
      ((∀ p, v.step packets tearsDown p = none) → v.main = .returned ∧ v.thread = .exited) := by
  have hstep : ∀ s p t, s.ctx.threadExit = true → s.step packets tearsDown p = some t →
      Ending s t := by
    intro s p t hs hst
    cases p with
    | main => exact ending_stepMain hs hst
    | thread => exact ending_stepThread hs hst
  -- What is left to take and to deliver bounds both counts from below on.
  obtain ⟨⟨-, hreceived, hcalls⟩, hlength⟩ := PartialRun.run_length_le
    (I := fun s => s.ctx.threadExit = true ∧
      s.received + s.thread.packetsLeft ≤ w.received + w.thread.packetsLeft ∧
      s.calls.length + s.thread.callsLeft ≤ w.calls.length + w.thread.callsLeft)
    (fun s p t hs hst => by
      have h := hstep s p t hs.1 hst
      exact ⟨⟨h.threadExit, Nat.le_trans h.received hs.2.1, Nat.le_trans h.calls hs.2.2⟩, h.rank⟩)
    ⟨hexit, Nat.le_refl _, Nat.le_refl _⟩ (PartialRun.run_of_guarded hrun)
  have hpackets := w.thread.packetsLeft_le
  have hleft := w.thread.callsLeft_le
  have hrank := rank_le w
  exact ⟨by omega, by omega, by omega, returned_of_stuck⟩

/-- The callback has stopped its own receiver, and the program is about to. -/
theorem deInit_returns_letterA :
    ∃ w v, (start 3 6).run letterAStream (fun _ => true) (List.replicate 21 .thread) = some w ∧
      w.definedRun letterAStream (fun _ => true)
        [.main, .main, .thread, .thread, .thread, .main, .main] = some v ∧
      v.main = .returned ∧ v.thread = .exited := by
  have hrun : ((start 3 6).run letterAStream (fun _ => true) (List.replicate 21 .thread)).bind
      (fun w => (w.definedRun letterAStream (fun _ => true)
          [.main, .main, .thread, .thread, .thread, .main, .main]).map
        fun v => (w.ctx.threadExit, (v.step letterAStream (fun _ => true) .main).isSome,
          (v.step letterAStream (fun _ => true) .thread).isSome)) =
      some (true, false, false) := by decide +kernel
  obtain ⟨w, hw, hrest⟩ := Option.bind_eq_some_iff.mp hrun
  obtain ⟨v, hv, hend⟩ := Option.map_eq_some_iff.mp hrest
  simp only [Prod.mk.injEq, Option.isSome_eq_false_iff, Option.isNone_iff_eq_none] at hend
  obtain ⟨hexit, hmain, hthread⟩ := hend
  have h := deInit_returns letterAStream (fun _ => true) _ w v hexit hv
  refine ⟨w, v, hw, hv, h.2.2.2 fun p => ?_⟩
  cases p with
  | main => exact hmain
  | thread => exact hthread

end RxWorld

end SmartConfig
