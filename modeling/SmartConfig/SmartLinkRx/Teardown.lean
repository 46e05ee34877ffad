import SmartConfig.SmartLinkRx.Undisturbed

/-!
# `smartlinkrx.c`: stopping a receiver

What holds however the receiving thread and the call of `smartLinkRxDeInit` are interleaved, when a
callback makes one such call at most.

* `teardown_safe_iff` — nothing touches the context after it has been freed, and nothing uses the
  socket after it has been closed, exactly when no delivery makes the callback tear its own
  receiver down.
* `self_teardown_leaks` — a callback that tears its receiver down gives nothing back.
-/

namespace SmartConfig

namespace RxWorld

variable {packets : Nat → Option (List UInt8)} {tearsDown : RxCall → Bool}
variable {sockFd : Int} {u16Channel : UInt16} {v w : RxWorld}

/-! ## Nothing after the release -/

/-- What may follow what: nothing the `free`, and no use of the socket its `close`. -/
def Orderly (a b : RxAct) : Prop := a ≠ .free ∧ (a = .close → b ≠ .recvfrom ∧ b ≠ .close)

/-- No use after the release. -/
def SafeTeardown (acts : List RxAct) : Prop := acts.Pairwise Orderly

/-- Nothing has been released. -/
def Open (acts : List RxAct) : Prop := ∀ a ∈ acts, a ≠ .close ∧ a ≠ .free

theorem Open.append {acts later : List RxAct} (h : Open acts) (hlater : Open later) :
    Open (acts ++ later) := by
  intro a ha
  rcases List.mem_append.mp ha with ha | ha
  · exact h a ha
  · exact hlater a ha

theorem open_touch {p : Party} : Open [.touch p] := by simp [Open]

theorem Open.safe {acts : List RxAct} (h : Open acts) : SafeTeardown acts :=
  List.pairwise_of_forall_mem_list fun a ha _ _ =>
    ⟨(h a ha).2, fun hclose => absurd hclose (h a ha).1⟩

/-- What comes last must not use the socket, unless nothing has been closed. -/
theorem SafeTeardown.concat {acts : List RxAct} {b : RxAct} (h : SafeTeardown acts)
    (hacts : ∀ a ∈ acts, Orderly a b) : SafeTeardown (acts ++ [b]) := by
  refine List.pairwise_append.mpr ⟨h, List.pairwise_singleton _ _, fun a ha b' hb' => ?_⟩
  obtain rfl := List.mem_singleton.mp hb'
  exact hacts a ha

/-! ## Teardown by the program -/

/-- What each point of the program's call means for the thread and for what has happened, when no
callback tears its receiver down. -/
def Phase (w : RxWorld) : Prop :=
  match w.main with
  | .running | .deInit .check | .deInit .setExit =>
    w.ctx.threadExit = false ∧ w.thread ≠ .exited ∧ Open w.acts
  | .deInit .join => w.ctx.threadExit = true ∧ Open w.acts
  | .deInit .close => w.thread = .exited ∧ Open w.acts
  | .deInit .free =>
    w.thread = .exited ∧ .free ∉ w.acts ∧ SafeTeardown w.acts
  | .returned => w.thread = .exited ∧ SafeTeardown w.acts

theorem Phase.safe (h : Phase w) : SafeTeardown w.acts := by
  rw [Phase] at h
  split at h
  · exact h.2.2.safe
  · exact h.2.2.safe
  · exact h.2.2.safe
  · exact h.2.safe
  · exact h.2.safe
  · exact h.2.2
  · exact h.2

theorem Phase.stepMain (h : Phase w) (hstep : w.stepMain = some v) : Phase v := by
  rw [RxWorld.stepMain] at hstep
  rw [Phase] at h
  cases hmain : w.main with
  | running =>
      rw [hmain] at h hstep
      obtain rfl := Option.some.inj hstep
      exact h
  | returned =>
      rw [hmain] at hstep
      cases hstep
  | deInit q =>
      rw [hmain] at h hstep
      obtain ⟨⟨u, q'⟩, hdeinit, rfl⟩ := Option.map_eq_some_iff.mp hstep
      cases q with
      | check =>
          cases hdeinit
          obtain ⟨hexit, hthread, hopen⟩ := h
          rw [hexit, if_neg Bool.false_ne_true]
          exact ⟨hexit, hthread, hopen.append open_touch⟩
      | setExit =>
          cases hdeinit
          exact ⟨rfl, h.2.2.append open_touch⟩
      | join =>
          rw [deInit] at hdeinit
          split at hdeinit
          · -- the join has returned, and nobody but the program moves any more
            next hexited =>
            cases hdeinit
            refine ⟨hexited, h.2.append ?_⟩
            simp [Open]
          · cases hdeinit
      | close =>
          obtain ⟨hexited, hopen⟩ := h
          rw [deInit] at hdeinit
          split at hdeinit
          · cases hdeinit
            have htouched : Open (w.acts ++ [.touch .main]) := hopen.append open_touch
            have hacts :
                w.acts ++ [.touch .main, .close] = w.acts ++ [.touch .main] ++ [.close] := by
              rw [List.append_assoc]
              rfl
            refine ⟨hexited, ?_, ?_⟩
            · show RxAct.free ∉ w.acts ++ [.touch .main, .close]
              rw [hacts, List.mem_append, List.mem_singleton]
              exact fun hmem => hmem.elim (fun hmem => (htouched _ hmem).2 rfl) RxAct.noConfusion
            · show SafeTeardown (w.acts ++ [.touch .main, .close])
              rw [hacts]
              exact htouched.safe.concat fun a ha =>
                ⟨(htouched a ha).2, fun hclose => absurd hclose (htouched a ha).1⟩
          · cases hdeinit
            have htouched : Open (w.acts ++ [.touch .main]) := hopen.append open_touch
            exact ⟨hexited, fun hmem => (htouched _ hmem).2 rfl, htouched.safe⟩
      | free =>
          cases hdeinit
          obtain ⟨hexited, hfree, hsafe⟩ := h
          refine ⟨hexited, hsafe.concat fun a ha => ⟨fun hfree' => hfree (hfree' ▸ ha), ?_⟩⟩
          exact fun _ => ⟨RxAct.noConfusion, RxAct.noConfusion⟩

/-- What a step of the thread does to the rest of the world, as long as it does not tear down. -/
structure Quiet (tearsDown : RxCall → Bool) (w v : RxWorld) : Prop where
  main : v.main = w.main
  threadExit : v.ctx.threadExit = w.ctx.threadExit
  sockFd : v.ctx.sockFd = w.ctx.sockFd
  acts : Open w.acts → Open v.acts
  alive : w.thread ≠ .exited
  exited : v.thread = .exited → w.ctx.threadExit = true
  tears : ∀ q, v.thread = .deInit q → q = .check ∧ ∃ c, w.thread = .callback c ∧ tearsDown c = true

theorem quiet_stepThread (hquiet : ∀ q, w.thread ≠ .deInit q)
    (hstep : w.stepThread packets tearsDown = some v) : Quiet tearsDown w v := by
  rw [stepThread] at hstep
  cases hthread : w.thread with
  | head =>
      rw [hthread] at hstep
      obtain rfl := Option.some.inj hstep
      refine ⟨rfl, rfl, rfl, fun h => h.append open_touch, by simp [hthread], ?_, ?_⟩
      · cases w.ctx.threadExit with
        | false => exact ThreadPoint.noConfusion
        | true => exact fun _ => rfl
      · cases w.ctx.threadExit with
        | false => exact fun q => ThreadPoint.noConfusion
        | true => exact fun q => ThreadPoint.noConfusion
  | recv =>
      rw [hthread] at hstep
      dsimp only at hstep
      split at hstep
      · obtain rfl := Option.some.inj hstep
        exact ⟨rfl, rfl, rfl, fun h => h.append open_touch, by simp [hthread],
          ThreadPoint.noConfusion, fun q => ThreadPoint.noConfusion⟩
      · obtain rfl := Option.some.inj hstep
        refine ⟨rfl, rfl, rfl, fun h => h.append (by simp [Open]), by simp [hthread], ?_, ?_⟩
        · dsimp only
          split
          · exact ThreadPoint.noConfusion
          · exact ThreadPoint.noConfusion
        · dsimp only
          split
          · exact fun q => ThreadPoint.noConfusion
          · exact fun q => ThreadPoint.noConfusion
  | decode sendlen =>
      rw [hthread] at hstep
      dsimp only at hstep
      split at hstep
      · obtain rfl := Option.some.inj hstep
        exact ⟨rfl, rfl, rfl, fun h => h.append open_touch, by simp [hthread],
          ThreadPoint.noConfusion, fun q => ThreadPoint.noConfusion⟩
      · obtain rfl := Option.some.inj hstep
        exact ⟨rfl, rfl, rfl, fun h => h.append (by simp [Open]), by simp [hthread],
          ThreadPoint.noConfusion, fun q => ThreadPoint.noConfusion⟩
  | callback c =>
      rw [hthread] at hstep
      obtain rfl := Option.some.inj hstep
      refine ⟨rfl, rfl, rfl, id, by simp [hthread], ?_, ?_⟩
      · dsimp only
        split
        · exact ThreadPoint.noConfusion
        · exact ThreadPoint.noConfusion
      · dsimp only
        split
        · next htears => exact fun q hq => ⟨(ThreadPoint.deInit.inj hq).symm, c, hthread, htears⟩
        · exact fun q => ThreadPoint.noConfusion
  | deInit q => exact absurd hthread (hquiet q)
  | tail =>
      rw [hthread] at hstep
      obtain rfl := Option.some.inj hstep
      exact ⟨rfl, rfl, rfl, fun h => h.append open_touch, by simp [hthread],
        ThreadPoint.noConfusion, fun q => ThreadPoint.noConfusion⟩
  | exited =>
      rw [hthread] at hstep
      cases hstep

theorem Phase.congr_thread (h : Phase w) (hquiet : Quiet tearsDown w v) : Phase v := by
  obtain ⟨hmain, hexit, -, hacts, halive, hexited, -⟩ := hquiet
  rw [Phase] at h ⊢
  rw [hmain]
  split
  all_goals next hpoint =>
    rw [hpoint] at h
    first
      | exact ⟨hexit.trans h.1, fun hv => Bool.false_ne_true (h.1.symm.trans (hexited hv)),
          hacts h.2.2⟩
      | exact ⟨hexit.trans h.1, hacts h.2⟩
      | exact absurd h.1 halive

/-- The world of a receiver whose callback never tears it down. -/
structure Supervised (packets : Nat → Option (List UInt8)) (w : RxWorld) : Prop where
  phase : Phase w
  decoded : Decoded packets w
  quiet : ∀ q, w.thread ≠ .deInit q

theorem Supervised.step {p : Party} (h : Supervised packets w)
    (hkeep : ∀ n, ∀ c ∈ processCalls (taken packets n), tearsDown c = false)
    (hstep : w.step packets tearsDown p = some v) : Supervised packets v := by
  have hdecoded := h.decoded.step hstep
  cases p with
  | main =>
      obtain ⟨-, hthread⟩ := sameDecoder_stepMain hstep
      exact ⟨h.phase.stepMain hstep, hdecoded, hthread ▸ h.quiet⟩
  | thread =>
      have hquiet := quiet_stepThread h.quiet hstep
      refine ⟨h.phase.congr_thread hquiet, hdecoded, fun q hq => ?_⟩
      obtain ⟨-, c, hc, htears⟩ := hquiet.tears q hq
      have hloop := h.decoded
      rw [Decoded, hc] at hloop
      obtain ⟨⟨-, hcalls⟩, hmem⟩ := hloop
      exact Bool.false_ne_true ((hkeep w.received c (hcalls ▸ hmem)).symm.trans htears)

theorem supervised_of_run {schedule : List Party}
    (hkeep : ∀ n, ∀ c ∈ processCalls (taken packets n), tearsDown c = false)
    (h : (start sockFd u16Channel).run packets tearsDown schedule = some w) :
    Supervised packets w := by
  have hstart : Supervised packets (start sockFd u16Channel) := by
    refine ⟨⟨rfl, ThreadPoint.noConfusion, ?_⟩, decoded_start _ _, fun q => ThreadPoint.noConfusion⟩
    exact fun a ha => absurd ha List.not_mem_nil
  exact PartialRun.run_inv (P := fun _ => True) (fun _ _ _ hv _ hstep => hv.step hkeep hstep)
    hstart (fun _ _ => trivial) h

/-! ## Teardown by the callback -/

section SelfTeardown

variable (packets tearsDown sockFd u16Channel)

/-- Some schedule leads there. -/
def Reached (w : RxWorld) : Prop :=
  ∃ schedule, (start sockFd u16Channel).run packets tearsDown schedule = some w

/-- The program has not begun to stop the receiver. -/
structure Untouched (w : RxWorld) : Prop where
  reached : Reached packets tearsDown sockFd u16Channel w
  main : w.main = .running
  threadExit : w.ctx.threadExit = false
  sockFd : 0 < w.ctx.sockFd

/-- `n` packets have come, and no delivery has made the callback tear the receiver down. -/
structure Idle (n : Nat) (w : RxWorld) : Prop extends
    Untouched packets tearsDown sockFd u16Channel w where
  thread : w.thread = .head
  received : w.received = n
  keeps : ∀ c ∈ w.calls, tearsDown c = false

/-- The callback has just called `smartLinkRxDeInit`. -/
structure Tearing (w : RxWorld) : Prop extends
    Untouched packets tearsDown sockFd u16Channel w where
  thread : w.thread = .deInit .check

variable {packets tearsDown sockFd u16Channel}

theorem Reached.run {schedule : List Party} (h : Reached packets tearsDown sockFd u16Channel w)
    (hrun : w.run packets tearsDown schedule = some v) :
    Reached packets tearsDown sockFd u16Channel v := by
  obtain ⟨before, hbefore⟩ := h
  exact ⟨before ++ schedule, PartialRun.run_append.mpr ⟨w, hbefore, hrun⟩⟩

theorem Reached.step {p : Party} (h : Reached packets tearsDown sockFd u16Channel w)
    (hstep : w.step packets tearsDown p = some v) :
    Reached packets tearsDown sockFd u16Channel v := by
  have hrun : w.run packets tearsDown [p] = some v := PartialRun.run_cons.mpr ⟨v, hstep, rfl⟩
  exact h.run hrun

theorem Untouched.stepThread (h : Untouched packets tearsDown sockFd u16Channel w)
    (hthread : ∀ q, w.thread ≠ .deInit q) (hstep : w.stepThread packets tearsDown = some v) :
    Untouched packets tearsDown sockFd u16Channel v := by
  have hquiet := quiet_stepThread hthread hstep
  exact ⟨h.reached.step (p := .thread) hstep, hquiet.main.trans h.main,
    hquiet.threadExit.trans h.threadExit, hquiet.sockFd ▸ h.sockFd⟩

theorem stepThread_head (hthread : w.thread = .head) (hexit : w.ctx.threadExit = false) :
    ∃ v, w.stepThread packets tearsDown = some v ∧ v.thread = .recv ∧ v.received = w.received ∧
      v.calls = w.calls := by
  rw [stepThread, hthread, hexit]
  exact ⟨_, rfl, rfl, rfl, calls_of_acts rfl rfl⟩

theorem stepThread_recv (hthread : w.thread = .recv) (hfd : 0 < w.ctx.sockFd) :
    ∃ v, w.stepThread packets tearsDown = some v ∧
      (v.thread = .head ∨ ∃ sendlen, v.thread = .decode sendlen) ∧
      v.received = w.received + 1 ∧ v.calls = w.calls := by
  rw [stepThread, hthread]
  dsimp only
  rw [if_neg (by omega)]
  refine ⟨_, rfl, ?_, rfl, calls_of_acts rfl rfl⟩
  dsimp only
  split
  · exact .inl rfl
  · exact .inr ⟨_, rfl⟩

theorem stepThread_decode {sendlen : Int} (hthread : w.thread = .decode sendlen) :
    ∃ v, w.stepThread packets tearsDown = some v ∧ v.received = w.received ∧
      (v.thread = .head ∧ v.calls = w.calls ∨
        ∃ c, v.thread = .callback c ∧ v.calls = w.calls ++ [c]) := by
  rw [stepThread, hthread]
  dsimp only
  split
  · exact ⟨_, rfl, rfl, .inl ⟨rfl, calls_of_acts rfl rfl⟩⟩
  · next c _ =>
    refine ⟨_, rfl, rfl, .inr ⟨c, rfl, ?_⟩⟩
    show (w.acts ++ [RxAct.touch .thread, .callback c]).filterMap RxAct.call = _
    rw [List.filterMap_append]
    rfl

theorem stepThread_callback {c : RxCall} (hthread : w.thread = .callback c) :
    ∃ v, w.stepThread packets tearsDown = some v ∧ v.received = w.received ∧ v.calls = w.calls ∧
      v.thread = if tearsDown c then .deInit .check else .tail := by
  rw [stepThread, hthread]
  exact ⟨_, rfl, rfl, rfl, rfl⟩

theorem stepThread_tail (hthread : w.thread = .tail) :
    ∃ v, w.stepThread packets tearsDown = some v ∧ v.received = w.received ∧ v.calls = w.calls ∧
      v.thread = .head := by
  rw [stepThread, hthread]
  exact ⟨_, rfl, rfl, calls_of_acts rfl rfl, rfl⟩

/-- The thread alone takes the next packet; in the end it waits for another one, or the callback
tears the receiver down. -/
theorem Idle.next {n : Nat} (h : Idle packets tearsDown sockFd u16Channel n w) :
    (∃ v, Idle packets tearsDown sockFd u16Channel (n + 1) v) ∨
      ∃ v, Tearing packets tearsDown sockFd u16Channel v := by
  obtain ⟨hw, hthread, hreceived, hkeeps⟩ := h
  obtain ⟨w₁, hstep₁, hthread₁, hreceived₁, hcalls₁⟩ := stepThread_head hthread hw.threadExit
  have hw₁ := hw.stepThread (by simp [hthread]) hstep₁
  obtain ⟨w₂, hstep₂, hthread₂, hreceived₂, hcalls₂⟩ := stepThread_recv hthread₁ hw₁.sockFd
  have hw₂ := hw₁.stepThread (by simp [hthread₁]) hstep₂
  have hn : w₂.received = n + 1 := by rw [hreceived₂, hreceived₁, hreceived]
  have hkeeps₂ : ∀ c ∈ w₂.calls, tearsDown c = false := by
    rw [hcalls₂, hcalls₁]
    exact hkeeps
  -- no packet, or none that is a frame
  rcases hthread₂ with hthread₂ | ⟨sendlen, hthread₂⟩
  · exact .inl ⟨w₂, hw₂, hthread₂, hn, hkeeps₂⟩
  obtain ⟨w₃, hstep₃, hreceived₃, hcall⟩ := stepThread_decode hthread₂
  have hw₃ := hw₂.stepThread (by simp [hthread₂]) hstep₃
  -- no callback
  rcases hcall with ⟨hthread₃, hcalls₃⟩ | ⟨c, hthread₃, hcalls₃⟩
  · exact .inl ⟨w₃, hw₃, hthread₃, hreceived₃.trans hn, hcalls₃ ▸ hkeeps₂⟩
  obtain ⟨w₄, hstep₄, hreceived₄, hcalls₄, hthread₄⟩ := stepThread_callback hthread₃
  have hw₄ := hw₃.stepThread (by simp [hthread₃]) hstep₄
  cases htears : tearsDown c with
  | true =>
      rw [htears, if_pos rfl] at hthread₄
      exact .inr ⟨w₄, hw₄, hthread₄⟩
  | false =>
      rw [htears, if_neg Bool.false_ne_true] at hthread₄
      obtain ⟨w₅, hstep₅, hreceived₅, hcalls₅, hthread₅⟩ := stepThread_tail hthread₄
      have hw₅ := hw₄.stepThread (by simp [hthread₄]) hstep₅
      refine .inl ⟨w₅, hw₅, hthread₅, ?_, ?_⟩
      · rw [hreceived₅, hreceived₄, hreceived₃, hn]
      · rw [hcalls₅, hcalls₄, hcalls₃]
        intro c' hc'
        rcases List.mem_append.mp hc' with hc' | hc'
        · exact hkeeps₂ c' hc'
        · exact List.mem_singleton.mp hc' ▸ htears

theorem idle_or_tearing (hfd : 0 < sockFd) (n : Nat) :
    (∃ v, Idle packets tearsDown sockFd u16Channel n v) ∨
      ∃ v, Tearing packets tearsDown sockFd u16Channel v := by
  induction n with
  | zero =>
      exact .inl ⟨_, ⟨⟨[], rfl⟩, rfl, rfl, hfd⟩, rfl, rfl, fun c hc => absurd hc List.not_mem_nil⟩
  | succ n ih =>
      rcases ih with ⟨v, hv⟩ | htearing
      · exact hv.next
      · exact .inr htearing

/-- A delivery that makes the callback tear its receiver down can happen before the program stops
it. -/
theorem exists_tearing (hfd : 0 < sockFd) {n : Nat} {c : RxCall}
    (hc : c ∈ processCalls (taken packets n)) (htears : tearsDown c = true) :
    ∃ v, Tearing packets tearsDown sockFd u16Channel v := by
  have hidle : (∃ v, Idle packets tearsDown sockFd u16Channel n v) ∨
      ∃ v, Tearing packets tearsDown sockFd u16Channel v := idle_or_tearing hfd n
  rcases hidle with ⟨v, ⟨⟨schedule, hrun⟩, -, -, -⟩, hthread, rfl, hkeeps⟩ | htearing
  · have hdecoded := decoded_of_run hrun
    rw [Decoded, hthread] at hdecoded
    have hcalls : processCalls (taken packets v.received) = v.calls := hdecoded.calls
    exact absurd ((hkeeps c (hcalls ▸ hc)).symm.trans htears) Bool.false_ne_true
  · exact htearing

/-- The callback's call sets `threadExit` and fails to join its own thread; the program's call sees
`threadExit` and does not join; the thread goes on with a context that has been freed. -/
theorem Tearing.unsafe_run (h : Tearing packets tearsDown sockFd u16Channel w) :
    ∃ v, Reached packets tearsDown sockFd u16Channel v ∧ ¬ SafeTeardown v.acts := by
  obtain ⟨⟨hreached, hmain, hexit, hfd⟩, hthread⟩ := h
  obtain ⟨⟨rx, fd, channel, exit⟩, radiotap, main, thread, received, acts⟩ := w
  obtain rfl : main = .running := hmain
  obtain rfl : thread = .deInit .check := hthread
  obtain rfl : exit = false := hexit
  -- the callback's call has returned without a join, and the program's call goes on to the close
  let u : RxWorld :=
    { ctx := ⟨rx, fd, channel, true⟩, radiotap := radiotap, main := .deInit .close, thread := .tail,
      received := received
      acts := acts ++ [.touch .thread] ++ [.touch .thread] ++ [.touch .thread] ++ [.touch .main] }
  have hcall : run packets tearsDown ⟨⟨rx, fd, channel, false⟩, radiotap, .running, .deInit .check,
      received, acts⟩ [.thread, .thread, .thread, .main, .main] = some u := rfl
  have hclose : u.step packets tearsDown .main = some
      { (u.act [.touch .main, .close]).closeSockFd with main := .deInit .free } := by
    rw [step, stepMain]
    dsimp only [u]
    rw [deInit, if_pos hfd]
    rfl
  have hrest : ∃ v, u.run packets tearsDown [.main, .main, .thread] = some v ∧
      v.acts = u.acts ++ [.touch .main, .close] ++ [.free] ++ [.touch .thread] :=
    ⟨_, PartialRun.run_cons.mpr ⟨_, hclose, rfl⟩, rfl⟩
  obtain ⟨v, hrest, hacts⟩ := hrest
  refine ⟨v, (hreached.run hcall).run hrest, ?_⟩
  -- the thread's next step touches what has been freed
  intro hsafe
  rw [hacts] at hsafe
  exact (List.pairwise_append.mp hsafe).2.2 .free
    (List.mem_append_right _ List.mem_cons_self) _ List.mem_cons_self |>.1 rfl

/-- Stopping a receiver is safe under every schedule exactly when its own callback, which may call
`smartLinkRxDeInit` once, never does: `pthread_join` refuses to join the calling thread, so that
the thread goes on, and a second call of `smartLinkRxDeInit`, which finds `threadExit` set, does not
wait for it. -/
theorem teardown_safe_iff (packets : Nat → Option (List UInt8)) (tearsDown : RxCall → Bool)
    (sockFd : Int) (u16Channel : UInt16) (hfd : 0 < sockFd) :
    (∀ schedule w, (start sockFd u16Channel).run packets tearsDown schedule = some w →
        SafeTeardown w.acts) ↔
      ∀ n, ∀ c ∈ processCalls (taken packets n), tearsDown c = false := by
  constructor
  · intro hsafe n c hc
    by_contra htears
    have htearing : ∃ v, Tearing packets tearsDown sockFd u16Channel v :=
      exists_tearing hfd hc (eq_true_of_ne_false htears)
    obtain ⟨v, hv⟩ := htearing
    obtain ⟨w, ⟨schedule, hrun⟩, hunsafe⟩ := hv.unsafe_run
    exact hunsafe (hsafe schedule w hrun)
  · intro hkeep schedule w hrun
    exact (supervised_of_run hkeep hrun).phase.safe

/-- A receiver whose callback keeps it is torn down safely. -/
theorem teardown_safe_kept :
    ∃ w, (start 3 6).run (fun _ => none) (fun _ => false)
        [.thread, .main, .main, .main, .thread, .thread, .main, .main, .main] = some w ∧
      SafeTeardown w.acts :=
  ⟨_, rfl, (teardown_safe_iff (fun _ => none) (fun _ => false) 3 6 (by decide)).mpr
    (fun _ _ _ => rfl) [.thread, .main, .main, .main, .thread, .thread, .main, .main, .main] _ rfl⟩

/-- Nothing is used after its `free` then. -/
theorem SafeTeardown.defined (h : SafeTeardown w.acts) : Defined w := h.imp fun h => h.1

/-- A receiver that no callback stops is defined under every schedule. -/
theorem definedRun_of_kept {schedule : List Party}
    (hkeep : ∀ n, ∀ c ∈ processCalls (taken packets n), tearsDown c = false)
    (hrun : (start sockFd u16Channel).run packets tearsDown schedule = some w) :
    (start sockFd u16Channel).definedRun packets tearsDown schedule = some w :=
  PartialRun.guarded_of_run (fun _ _ hv => (supervised_of_run hkeep hv).phase.safe.defined) hrun

/-- The thread of a receiver that has been stopped by its own callback. -/
def Winding (t : ThreadPoint) : Prop := t = .deInit .join ∨ t = .tail ∨ t = .head ∨ t = .exited

/-- As long as the program does not stop the receiver nothing has been released, and the thread is
done once `threadExit` is set. -/
structure Unstopped (w : RxWorld) : Prop where
  acts : Open w.acts
  before : w.ctx.threadExit = false → ∀ q, w.thread = .deInit q → q = .check ∨ q = .setExit
  after : w.ctx.threadExit = true → Winding w.thread

theorem Winding.stepThread (h : Winding w.thread) (hexit : w.ctx.threadExit = true)
    (hstep : w.stepThread packets tearsDown = some v) :
    Winding v.thread ∧ v.ctx.threadExit = true ∧ (Open w.acts → Open v.acts) ∧
      v.received = w.received ∧ v.calls = w.calls := by
  rw [RxWorld.stepThread] at hstep
  rcases h with hthread | hthread | hthread | hthread
  · rw [hthread] at hstep
    cases hstep
    exact ⟨.inr (.inl rfl), hexit, fun h => h.append open_touch, rfl, calls_of_acts rfl rfl⟩
  · rw [hthread] at hstep
    cases hstep
    exact ⟨.inr (.inr (.inl rfl)), hexit, fun h => h.append open_touch, rfl, calls_of_acts rfl rfl⟩
  · rw [hthread, hexit] at hstep
    cases hstep
    exact ⟨.inr (.inr (.inr rfl)), hexit, fun h => h.append open_touch, rfl, calls_of_acts rfl rfl⟩
  · rw [hthread] at hstep
    cases hstep

theorem Unstopped.stepThread (h : Unstopped w) (hstep : w.stepThread packets tearsDown = some v) :
    Unstopped v := by
  cases hexit : w.ctx.threadExit with
  | true =>
      obtain ⟨hwinding, hexit', hacts, -, -⟩ := (h.after hexit).stepThread hexit hstep
      exact ⟨hacts h.acts, fun hv => absurd (hexit'.symm.trans hv) Bool.false_ne_true.symm,
        fun _ => hwinding⟩
  | false =>
      -- the thread may be in the first two steps of its own call
      by_cases hthread : ∃ q, w.thread = .deInit q
      · obtain ⟨q, hq⟩ := hthread
        rw [RxWorld.stepThread, hq] at hstep
        rcases h.before hexit q hq with rfl | rfl
        · cases hstep
          rw [hexit]
          refine ⟨h.acts.append open_touch, fun _ q hq => .inr ?_, fun hv => ?_⟩
          · exact (ThreadPoint.deInit.inj hq).symm
          · exact absurd (hexit.symm.trans hv) Bool.false_ne_true
        · cases hstep
          exact ⟨h.acts.append open_touch, fun hv => absurd hv Bool.false_ne_true.symm,
            fun _ => .inl rfl⟩
      · have hquiet := quiet_stepThread (fun q hq => hthread ⟨q, hq⟩) hstep
        refine ⟨hquiet.acts h.acts, fun _ q hq => .inl (hquiet.tears q hq).1, fun hv => ?_⟩
        exact absurd (hexit.symm.trans (hquiet.threadExit.symm.trans hv)) Bool.false_ne_true

/-- The program does not come back to where it was before its call. -/
theorem not_running_of_stepMain (h : w.stepMain = some v) : v.main ≠ .running := by
  rw [stepMain] at h
  split at h
  · cases h
    exact MainPoint.noConfusion
  · obtain ⟨⟨u, q'⟩, -, rfl⟩ := Option.map_eq_some_iff.mp h
    cases q' with
    | none => exact MainPoint.noConfusion
    | some q' => exact MainPoint.noConfusion
  · cases h

theorem main_of_stepThread (h : w.stepThread packets tearsDown = some v) : v.main = w.main := by
  by_cases hthread : ∃ q, w.thread = .deInit q
  · obtain ⟨q, hq⟩ := hthread
    rw [stepThread, hq] at h
    obtain ⟨⟨u, q'⟩, hstep, rfl⟩ := Option.map_eq_some_iff.mp h
    exact (sameDecoder_deInit hstep).2.1
  · exact (quiet_stepThread (fun q hq => hthread ⟨q, hq⟩) h).main

/-- As long as the program does not move, its part of an invariant is the thread's. -/
theorem run_inv_running {I : RxWorld → Prop} {schedule : List Party}
    (hstep : ∀ v w, I v → v.stepThread packets tearsDown = some w → I w) (hw : I w)
    (hrun : w.run packets tearsDown schedule = some v) : v.main = .running → I v := by
  refine PartialRun.run_inv (I := fun v => v.main = .running → I v) (P := fun _ => True)
    (fun s p t hs _ hst hmain => ?_) (fun _ => hw) (fun _ _ => trivial) hrun
  cases p with
  | main => exact absurd hmain (not_running_of_stepMain hst)
  | thread => exact hstep s t (hs ((main_of_stepThread hst).symm.trans hmain)) hst

/-- A callback that tears its own receiver down, by one call of `smartLinkRxDeInit`, stops the
reception for good, but neither the socket nor the context is given back unless the program calls
`smartLinkRxDeInit` as well. -/
theorem self_teardown_leaks (packets : Nat → Option (List UInt8)) (tearsDown : RxCall → Bool)
    (sockFd : Int) (u16Channel : UInt16) (schedule : List Party) (w : RxWorld)
    (hrun : (start sockFd u16Channel).run packets tearsDown schedule = some w)
    (hmain : w.main = .running) :
    Open w.acts ∧ (w.ctx.threadExit = true → ∀ later v, w.run packets tearsDown later = some v →
      v.main = .running → v.received = w.received ∧ v.calls = w.calls) := by
  have hstart : Unstopped (start sockFd u16Channel) :=
    ⟨fun a ha => absurd ha List.not_mem_nil, fun _ q => ThreadPoint.noConfusion,
      fun h => absurd h Bool.false_ne_true⟩
  have h : Unstopped w := run_inv_running (fun _ _ hv => hv.stepThread) hstart hrun hmain
  refine ⟨h.acts, fun hexit later v hlater hv => ?_⟩
  have hend := run_inv_running (I := fun v => Winding v.thread ∧ v.ctx.threadExit = true ∧
    v.received = w.received ∧ v.calls = w.calls) (fun t u ht hu => ?_)
    ⟨h.after hexit, hexit, rfl, rfl⟩ hlater hv
  · exact hend.2.2
  · obtain ⟨hwinding, hexit', -, hreceived, hcalls⟩ := ht.1.stepThread ht.2.1 hu
    exact ⟨hwinding, hexit', hreceived.trans ht.2.2.1, hcalls.trans ht.2.2.2⟩

/-- A receiver whose callback stops it: at the join that fails, and when its thread has ended. -/
theorem self_teardown_leaks_letterA :
    ∃ w v, (start 3 6).run letterAStream (fun _ => true) (List.replicate 21 .thread) = some w ∧
      w.run letterAStream (fun _ => true) [.thread, .thread, .thread] = some v ∧
      v.thread = .exited ∧ w.calls.length = 1 ∧ Open w.acts ∧ v.received = w.received ∧
      v.calls = w.calls := by
  have hrun : ((start 3 6).run letterAStream (fun _ => true) (List.replicate 21 .thread)).bind
      (fun w => (w.run letterAStream (fun _ => true) [.thread, .thread, .thread]).map
        fun v => (w.main, v.main, v.thread, w.ctx.threadExit, w.calls.length)) =
      some (.running, .running, .exited, true, 1) := by decide +kernel
  obtain ⟨w, hw, hrest⟩ := Option.bind_eq_some_iff.mp hrun
  obtain ⟨v, hv, hend⟩ := Option.map_eq_some_iff.mp hrest
  simp only [Prod.mk.injEq] at hend
  obtain ⟨hmain, hmain', hthread, hexit, hcalls⟩ := hend
  have h := self_teardown_leaks letterAStream (fun _ => true) 3 6 _ w hw hmain
  exact ⟨w, v, hw, hv, hthread, hcalls, h.1, h.2 hexit _ v hv hmain'⟩

end SelfTeardown

end RxWorld

end SmartConfig
