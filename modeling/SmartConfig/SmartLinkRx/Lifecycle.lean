import SmartConfig.Lib.Factory
import SmartConfig.SmartLinkRx.Init

/-!
# `smartlinkrx.c`: receivers over whole runs

A program sets receivers up and tears them down, any number of them and in any order, and hands
every context it is given to `smartLinkRxDeInit` once. As long as no call fails behind its
allocation, everything that was taken is given back (`returned_of_works`); one such failure is
enough for a join of a thread that nobody has created.
-/

namespace SmartConfig

open Resource

/-! ## Runs -/

/-- The arguments of a call of `smartLinkRxInit`, and what the calls underneath return. -/
structure RxInit where
  dev : Option String
  u16Channel : UInt16
  o : RxOutcome

/-- Receivers, made by `smartLinkRxInit` and given back by `smartLinkRxDeInit`; the join of a thread
that runs succeeds. -/
def receivers : Factory RxResource SmartLinkRxT RxInit where
  owner := (·.owner)
  make n i := smartLinkRxInit n i.dev i.u16Channel i.o
  giveBack n c := smartLinkRxDeInit n (some c) SMART_SUCCESS
  make_owner n i := smartLinkRxInit_owner n i.u16Channel i.dev i.o
  giveBack_owner n c := smartLinkRxDeInit_owner n (some c) SMART_SUCCESS

/-- Where the call gets past its allocation, all the rest of it succeeds. -/
def RxInit.Works (i : RxInit) : Prop := InitWorks i.dev i.o

/-! ### One call -/

section Call

variable (n : Nat) {i : RxInit}

theorem receivers_unallocated (h : i.dev = none ∨ i.o.calloc = false) :
    receivers.history n i = [] := by
  have hmake : receivers.make n i = ([], none) := smartLinkRxInit_unallocated n i.u16Channel h
  rw [Factory.history, hmake]
  rfl

/-- A call that works takes all three resources, and all three are given back. -/
theorem receivers_works (halloc : ¬ (i.dev = none ∨ i.o.calloc = false)) (h : i.Works) :
    receivers.history n i =
      [.acquire ⟨.context, n⟩, .acquire ⟨.socket, n⟩, .acquire ⟨.thread, n⟩,
        .release ⟨.thread, n⟩, .release ⟨.socket, n⟩, .release ⟨.context, n⟩] := by
  obtain ⟨d, hdev, hcalloc⟩ := allocated halloc
  have hworks : i.o.Works := h (hdev ▸ Option.some_ne_none d) hcalloc
  obtain ⟨c, hmake, hfd, hexit⟩ : ∃ c, receivers.make n i =
      ([.acquire ⟨.context, n⟩, .acquire ⟨.socket, n⟩, .acquire ⟨.thread, n⟩], some c) ∧
        0 < c.sockFd ∧ c.threadExit = false := by
    have hinit := smartLinkRxInit_works n d i.u16Channel hcalloc hworks
    rw [← hdev] at hinit
    exact ⟨_, hinit, hworks.1, rfl⟩
  have hback : receivers.giveBack n c = _ := smartLinkRxDeInit_running n hfd hexit
  rw [Factory.history, hmake, Option.elim_some, hback]
  rfl

/-- One that fails after the allocation joins a thread that nobody has created. -/
theorem uses_thread_of_fails (h : ¬ i.Works) :
    uses ⟨.thread, n⟩ (receivers.history n i) = [.release ⟨.thread, n⟩] := by
  rw [RxInit.Works, InitWorks, Classical.not_imp, Classical.not_imp] at h
  obtain ⟨hdev, hcalloc, hfails⟩ := h
  obtain ⟨d, hd⟩ := Option.ne_none_iff_exists'.mp hdev
  obtain ⟨hnone, huses⟩ := smartLinkRxInit_fails n d i.u16Channel hcalloc hfails
  rw [← hd] at hnone huses
  have hmade : (receivers.make n i).2 = none := hnone
  rw [Factory.history, hmade]
  show uses _ (_ ++ []) = _
  rw [List.append_nil]
  exact huses

end Call

/-- **If all calls work that get past their allocation**, every resource is unused or has been given
back. -/
theorem returned_of_works {ops : List (Factory.Op RxInit)}
    {w : Factory.State RxResource SmartLinkRxT RxInit}
    (hrun : receivers.run Factory.start ops = some w) (hdone : ∀ n, w.live n = none)
    (hworks : ∀ i, .make i ∈ ops → i.Works) (r : RxResource) :
    Unused r w.log ∨ Returned r w.log := by
  rcases Factory.uses_of_run hrun hdone r with hunused | ⟨i, hi, huses⟩
  · exact .inl hunused
  have howner : receivers.owner r = r.owner := rfl
  rw [howner] at huses
  by_cases halloc : i.dev = none ∨ i.o.calloc = false
  · refine .inl (huses.trans ?_)
    rw [receivers_unallocated _ halloc]
    rfl
  · refine .inr (huses.trans ?_)
    rw [receivers_works _ halloc (hworks i hi)]
    obtain ⟨kind, owner⟩ := r
    cases kind <;> simp [uses, Use.resource]

/-! ## The life cycle -/

/-- What it takes for a call of `smartLinkRxInit` to fail. -/
def RxFailed (dev : Option String) (o : RxOutcome) : Prop :=
  dev = none ∨ o.calloc = false ∨ o.createRawSocket = INVALID_SOCKET ∨
    (∃ s ∈ o.config, s ≠ SMART_SUCCESS) ∨ o.pthread_create ≠ SMART_SUCCESS

/-- A call that works once it has its memory returns `NULL` for want of a device or of memory, which
are the only ways for it to fail. -/
theorem smartLinkRxInit_eq_none_iff (n : Nat) {dev : Option String} (u16Channel : UInt16)
    {o : RxOutcome} (h : InitWorks dev o) :
    (smartLinkRxInit n dev u16Channel o).2 = none ↔ RxFailed dev o := by
  by_cases halloc : dev = none ∨ o.calloc = false
  · have hfailed : RxFailed dev o := halloc.imp_right Or.inl
    rw [smartLinkRxInit_unallocated n u16Channel halloc]
    exact iff_of_true rfl hfailed
  · obtain ⟨d, rfl, hcalloc⟩ := allocated halloc
    have hworks := h (Option.some_ne_none d) hcalloc
    rw [smartLinkRxInit_works n d u16Channel hcalloc hworks]
    obtain ⟨hfd, hconfig, hcreate⟩ := hworks
    apply iff_of_false (fun hnone => nomatch hnone)
    rintro (hnone | hfalse | hinvalid | ⟨s, hs, hne⟩ | hne)
    · exact Option.some_ne_none d hnone
    · rw [hcalloc] at hfalse
      cases hfalse
    · rw [hinvalid] at hfd
      exact absurd hfd (by decide)
    · exact hne (hconfig s hs)
    · exact hne hcreate

/-- After the operations: only threads that were created and not joined yet have been joined, every
socket that was opened is closed exactly once, every context is freed exactly once, and
`smartLinkRxInit` has returned `NULL` exactly when one of its steps failed. -/
structure LifecycleSafe (ops : List (Factory.Op RxInit)) (log : RxLog) : Prop where
  joins : ∀ n, ReleasesHeld ⟨.thread, n⟩ log
  sockets : ∀ n, ReleasedOnce ⟨.socket, n⟩ log
  contexts : ∀ n, ReleasedOnce ⟨.context, n⟩ log
  null : ∀ n i, .make i ∈ ops →
    ((smartLinkRxInit n i.dev i.u16Channel i.o).2 = none ↔ RxFailed i.dev i.o)

/-- **The life cycle is safe** in exactly the runs where no `smartLinkRxInit` fails after its
allocation. -/
theorem lifecycleSafe_iff {ops : List (Factory.Op RxInit)}
    {w : Factory.State RxResource SmartLinkRxT RxInit}
    (hrun : receivers.run Factory.start ops = some w) (hdone : ∀ n, w.live n = none) :
    LifecycleSafe ops w.log ↔ ∀ i, .make i ∈ ops → i.Works := by
  constructor
  · intro hsafe i hi
    by_contra hfails
    obtain ⟨n, huses⟩ := Factory.uses_of_made hrun hdone hi
    have hthread := (huses ⟨.thread, n⟩ rfl).trans (uses_thread_of_fails n hfails)
    exact not_releasesHeld_of_uses hthread (hsafe.joins n)
  · intro hworks
    have hstage := returned_of_works hrun hdone hworks
    have honce : ∀ r, ReleasedOnce r w.log := fun r =>
      (hstage r).elim Unused.releasedOnce Returned.releasedOnce
    refine ⟨fun n => ?_, fun n => honce _, fun n => honce _, ?_⟩
    · exact (hstage _).elim Unused.releasesHeld Returned.releasesHeld
    · intro n i hi
      exact smartLinkRxInit_eq_none_iff n i.u16Channel (hworks i hi)

/-- Every call succeeds. -/
def workingOutcome : RxOutcome where
  calloc := true
  createRawSocket := 3
  socketBindIfcdev := 0
  ifaceSeMonitorMode := 0
  ifaceSetFreq := 0
  socketSetNoblocking := 0
  socketSetRevcbuffer := 0
  pthread_create := 0
  pthread_join := 0

/-- One receiver, set up and torn down again. -/
def upAndDown : List (Factory.Op RxInit) :=
  [.make { dev := some "wlan0", u16Channel := 38, o := workingOutcome }, .giveBack 0]

theorem lifecycleSafe_upAndDown :
    ∃ w, receivers.run Factory.start upAndDown = some w ∧ LifecycleSafe upAndDown w.log := by
  obtain ⟨w, hrun, hdone⟩ :
      ∃ w, receivers.run Factory.start upAndDown = some w ∧ ∀ n, w.live n = none := by
    refine ⟨_, rfl, fun (n : Nat) => ?_⟩
    cases n with
    | zero => rfl
    | succ n => rfl
  refine ⟨w, hrun, (lifecycleSafe_iff hrun hdone).mpr fun i hi => ?_⟩
  have hworks : workingOutcome.Works := by decide
  rcases List.mem_cons.mp hi with hi | hi
  · cases hi
    exact fun _ _ => hworks
  · cases List.mem_singleton.mp hi

/-- The program may not open raw sockets, and `pthread_join` finds no thread. -/
def refusedOutcome : RxOutcome :=
  { workingOutcome with createRawSocket := INVALID_SOCKET, pthread_join := 3 }

def refused : List (Factory.Op RxInit) :=
  [.make { dev := some "wlan0", u16Channel := 38, o := refusedOutcome }]

theorem not_lifecycleSafe_refused :
    ∃ w, receivers.run Factory.start refused = some w ∧ (∀ n, w.live n = none) ∧
      ¬ LifecycleSafe refused w.log := by
  obtain ⟨w, hrun, hdone⟩ :
      ∃ w, receivers.run Factory.start refused = some w ∧ ∀ n, w.live n = none := by
    refine ⟨_, rfl, fun (n : Nat) => ?_⟩
    cases n with
    | zero => rfl
    | succ n => rfl
  have hfails : ¬ RxInit.Works { dev := some "wlan0", u16Channel := 38, o := refusedOutcome } := by
    intro hworks
    have hraw : refusedOutcome.Works := hworks (Option.some_ne_none _) rfl
    exact absurd hraw (by decide)
  refine ⟨w, hrun, hdone, fun hsafe => ?_⟩
  obtain ⟨n, huses⟩ := Factory.uses_of_made hrun hdone
    (List.mem_singleton_self (Factory.Op.make (ι := RxInit) _))
  have hthread := (huses ⟨.thread, n⟩ rfl).trans (uses_thread_of_fails n hfails)
  exact not_releasesHeld_of_uses hthread (hsafe.joins n)

end SmartConfig
