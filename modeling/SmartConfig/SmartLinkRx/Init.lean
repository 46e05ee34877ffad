import SmartConfig.Lib.Resource
import SmartConfig.SmartLinkRx.Basic

/-!
# `smartlinkrx.c`: setting a receiver up and tearing it down

`smartLinkRxInit` allocates a context, opens a socket, configures it and starts the receiving
thread; `smartLinkRxDeInit` stops the thread and gives everything back. What the calls underneath
return is an `RxOutcome`. The `n`-th call of `smartLinkRxInit` takes up to three resources, which
are named after it, and the two functions write a log of what they take and give back.

`smartLinkRxInit` tears down with `smartLinkRxDeInit` whatever its first failing step leaves. The
memory comes from `calloc`, so that `threadExit` is 0 there, as it is in a running receiver, and
`smartLinkRxDeInit` joins a thread that was never started (`smartLinkRxInit_fails`).
-/

namespace SmartConfig

open Resource

inductive RxKind where
  | context
  | socket
  | thread
  deriving DecidableEq

/-- What the `owner`-th call of `smartLinkRxInit` takes. -/
structure RxResource where
  kind : RxKind
  owner : Nat
  deriving DecidableEq

abbrev RxLog := List (Use RxResource)

/-- What the calls under `smartLinkRxInit` return; `pthread_join` is the one that
`smartLinkRxDeInit` makes on its behalf. -/
structure RxOutcome where
  calloc : Bool
  createRawSocket : Int
  socketBindIfcdev : Int
  ifaceSeMonitorMode : Int
  ifaceSetFreq : Int
  socketSetNoblocking : Int
  socketSetRevcbuffer : Int
  pthread_create : Int
  pthread_join : Int
  deriving DecidableEq

/-- `SmartLinkRx_t`, with the part of the decoder as one field. -/
structure SmartLinkRxT where
  rx : SmartLinkRx
  sockFd : Int
  u16Channel : UInt16
  threadExit : Bool

/-- Fresh from `calloc`. -/
def smartLinkRxCalloc : SmartLinkRxT where
  rx := { u32Index := 0x00, u32Sequence := 0x00, sourceAddr := macZero,
          buffer := Vector.replicate BUFFER_MAX 0x00 }
  sockFd := 0
  u16Channel := 0
  threadExit := false

/-! ## The functions -/

/-- The steps of `_smartLinkRxSockConfig`, in order. -/
def RxOutcome.config (o : RxOutcome) : List Int :=
  [o.socketBindIfcdev, o.ifaceSeMonitorMode, o.ifaceSetFreq, o.socketSetNoblocking,
    o.socketSetRevcbuffer]

/-- `_smartLinkRxSockConfig`: the first step that fails is the result. -/
def smartLinkRxSockConfig (sockFd : Int) (dev : Option String) (o : RxOutcome) : Int :=
  if dev = none then SMART_FAIL
  else if sockFd ≤ 0 then SMART_FAIL
  else (o.config.find? (· ≠ SMART_SUCCESS)).getD SMART_SUCCESS

/-- `smartLinkRxDeInit` on the context of call `n`; `join` is what `pthread_join` returns. -/
def smartLinkRxDeInit (n : Nat) (ctx : Option SmartLinkRxT) (join : Int) : RxLog :=
  match ctx with
  | none => []
  | some receivers =>
    if ¬ receivers.threadExit then
      if join ≠ 0 then [.release ⟨.thread, n⟩]
      else
        .release ⟨.thread, n⟩ ::
          (closeSocket ⟨.socket, n⟩ receivers.sockFd ++ [.release ⟨.context, n⟩])
    else closeSocket ⟨.socket, n⟩ receivers.sockFd ++ [.release ⟨.context, n⟩]

/-- `createRawSocket`. -/
def createRawSocket (n : Nat) (o : RxOutcome) : RxLog :=
  createSocket ⟨.socket, n⟩ o.createRawSocket

/-- The body of the `do … while (0)` in `smartLinkRxInit`: what it takes, and the context at the
`break` or at the `return`. -/
def smartLinkRxInitBody (n : Nat) (dev : Option String) (u16Channel : UInt16) (o : RxOutcome) :
    RxLog × Except SmartLinkRxT SmartLinkRxT :=
  let receivers := { smartLinkRxCalloc with sockFd := o.createRawSocket }
  if receivers.sockFd ≤ 0 then (createRawSocket n o, .error receivers)
  else if SMART_SUCCESS ≠ smartLinkRxSockConfig receivers.sockFd dev o then
    (createRawSocket n o, .error receivers)
  else
    let receivers := { receivers with
      rx := { receivers.rx with
        buffer := Vector.replicate BUFFER_MAX 0x00, u32Index := 0x00, u32Sequence := 0x00 }
      u16Channel := u16Channel
      threadExit := false }
    if o.pthread_create ≠ SMART_SUCCESS then (createRawSocket n o, .error receivers)
    else (createRawSocket n o ++ [.acquire ⟨.thread, n⟩], .ok receivers)

/-- `smartLinkRxInit`, call number `n`; no context is `NULL`. -/
def smartLinkRxInit (n : Nat) (dev : Option String) (u16Channel : UInt16) (o : RxOutcome) :
    RxLog × Option SmartLinkRxT :=
  if dev = none then ([], none)
  else if ¬ o.calloc then ([], none)
  else
    match smartLinkRxInitBody n dev u16Channel o with
    | (log, .ok receivers) => (.acquire ⟨.context, n⟩ :: log, some receivers)
    | (log, .error receivers) =>
      (.acquire ⟨.context, n⟩ :: (log ++ smartLinkRxDeInit n (some receivers) o.pthread_join),
        none)

/-! ## One call -/

/-- Every step after the allocation succeeds. -/
def RxOutcome.Works (o : RxOutcome) : Prop :=
  0 < o.createRawSocket ∧ (∀ s ∈ o.config, s = SMART_SUCCESS) ∧ o.pthread_create = SMART_SUCCESS

instance (o : RxOutcome) : Decidable o.Works := inferInstanceAs (Decidable (_ ∧ _ ∧ _))

section Call

variable (n : Nat) (d : String) (u16Channel : UInt16) {o : RxOutcome}

theorem smartLinkRxSockConfig_eq_iff {d : String} {sockFd : Int} (hfd : 0 < sockFd) :
    smartLinkRxSockConfig sockFd (some d) o = SMART_SUCCESS ↔
      ∀ s ∈ o.config, s = SMART_SUCCESS := by
  rw [smartLinkRxSockConfig, if_neg (by simp), if_neg (by omega)]
  cases hfind : o.config.find? (· ≠ SMART_SUCCESS) with
  | none =>
      rw [List.find?_eq_none] at hfind
      exact iff_of_true rfl fun s hs => by simpa using hfind s hs
  | some s =>
      have hs : s ≠ SMART_SUCCESS := by simpa using List.find?_some hfind
      exact iff_of_false hs fun hall => hs (hall s (List.mem_of_find?_eq_some hfind))

/-- A receiver that runs: it has taken all three resources, and its decoder is at the start. -/
theorem smartLinkRxInit_works (hcalloc : o.calloc = true) (h : o.Works) :
    smartLinkRxInit n (some d) u16Channel o =
      ([.acquire ⟨.context, n⟩, .acquire ⟨.socket, n⟩, .acquire ⟨.thread, n⟩],
        some { rx := smartLinkRxStart, sockFd := o.createRawSocket, u16Channel := u16Channel,
               threadExit := false }) := by
  obtain ⟨hfd, hconfig, hcreate⟩ := h
  have hopen : createRawSocket n o = [.acquire ⟨.socket, n⟩] := by
    rw [createRawSocket, createSocket, if_neg]
    intro hinvalid
    rw [hinvalid] at hfd
    exact absurd hfd (by decide)
  have hsock : smartLinkRxSockConfig o.createRawSocket (some d) o = SMART_SUCCESS :=
    (smartLinkRxSockConfig_eq_iff hfd).mpr hconfig
  rw [smartLinkRxInit, if_neg (by simp), if_neg (by simp [hcalloc]), smartLinkRxInitBody,
    if_neg (by simpa using hfd), if_neg (by simpa using hsock.symm),
    if_neg (by simpa using hcreate), hopen]
  rfl

theorem smartLinkRxInit_unallocated {dev : Option String}
    (h : dev = none ∨ o.calloc = false) : smartLinkRxInit n dev u16Channel o = ([], none) := by
  rw [smartLinkRxInit]
  split
  · rfl
  · next hdev =>
    rw [if_pos]
    simpa using h.resolve_left hdev

theorem smartLinkRxInitBody_fails (h : ¬ o.Works) :
    ∃ receivers, smartLinkRxInitBody n (some d) u16Channel o =
        (createRawSocket n o, .error receivers) ∧ receivers.threadExit = false := by
  unfold smartLinkRxInitBody
  dsimp only
  split
  · exact ⟨_, rfl, rfl⟩
  · next hfd =>
    split
    · exact ⟨_, rfl, rfl⟩
    · next hconfig =>
      split
      · exact ⟨_, rfl, rfl⟩
      · next hcreate =>
        have hpos : 0 < o.createRawSocket := by
          change ¬ o.createRawSocket ≤ 0 at hfd
          omega
        have hall := (smartLinkRxSockConfig_eq_iff hpos).mp (not_not.mp hconfig).symm
        exact absurd ⟨hpos, hall, not_not.mp hcreate⟩ h

/-- With `threadExit` at 0, there is a join. -/
theorem uses_thread_deInit {receivers : SmartLinkRxT} (h : receivers.threadExit = false)
    (join : Int) :
    uses ⟨.thread, n⟩ (smartLinkRxDeInit n (some receivers) join) = [.release ⟨.thread, n⟩] := by
  rw [smartLinkRxDeInit, if_pos (by simp [h]), closeSocket]
  split_ifs <;> simp [uses, Use.resource]

/-- The teardown of a receiver that runs. -/
theorem smartLinkRxDeInit_running {receivers : SmartLinkRxT} (hfd : 0 < receivers.sockFd)
    (h : receivers.threadExit = false) :
    smartLinkRxDeInit n (some receivers) SMART_SUCCESS =
      [.release ⟨.thread, n⟩, .release ⟨.socket, n⟩, .release ⟨.context, n⟩] := by
  rw [smartLinkRxDeInit, if_pos (by simp [h]), if_neg (by decide), closeSocket, if_pos hfd]
  rfl

/-- A step after the allocation fails: no context is returned, and the thread of the call is joined
although there is none. -/
theorem smartLinkRxInit_fails (hcalloc : o.calloc = true) (h : ¬ o.Works) :
    (smartLinkRxInit n (some d) u16Channel o).2 = none ∧
      uses ⟨.thread, n⟩ (smartLinkRxInit n (some d) u16Channel o).1 =
        [.release ⟨.thread, n⟩] := by
  obtain ⟨receivers, hbody, hexit⟩ := smartLinkRxInitBody_fails n d u16Channel h
  have hinit : smartLinkRxInit n (some d) u16Channel o =
      ([.acquire ⟨.context, n⟩] ++ createRawSocket n o ++
        smartLinkRxDeInit n (some receivers) o.pthread_join, none) := by
    rw [smartLinkRxInit, if_neg (by simp), if_neg (by simp [hcalloc]), hbody]
    rfl
  have hopen : uses ⟨.thread, n⟩ ([.acquire ⟨.context, n⟩] ++ createRawSocket n o) = [] := by
    rw [createRawSocket, createSocket]
    split <;> simp [uses, Use.resource]
  rw [hinit, uses_append, hopen, uses_thread_deInit n hexit]
  exact ⟨rfl, rfl⟩

/-! ### Names -/

theorem rxCloseSocket_owner (sockFd : Int) :
    ∀ u ∈ closeSocket (⟨.socket, n⟩ : RxResource) sockFd, u.resource.owner = n :=
  fun u hu => congrArg RxResource.owner (closeSocket_resource _ _ u hu)

theorem smartLinkRxDeInit_owner (ctx : Option SmartLinkRxT) (join : Int) :
    ∀ u ∈ smartLinkRxDeInit n ctx join, u.resource.owner = n := by
  unfold smartLinkRxDeInit
  split
  · exact List.forall_mem_nil _
  · next receivers =>
    have hgone : ∀ u ∈ closeSocket (⟨.socket, n⟩ : RxResource) receivers.sockFd ++
        [.release ⟨.context, n⟩], u.resource.owner = n :=
      List.forall_mem_append.mpr ⟨rxCloseSocket_owner n _, List.forall_mem_singleton.mpr rfl⟩
    split
    · split
      · exact List.forall_mem_singleton.mpr rfl
      · exact List.forall_mem_cons.mpr ⟨rfl, hgone⟩
    · exact hgone

theorem createRawSocket_owner (o : RxOutcome) :
    ∀ u ∈ createRawSocket n o, u.resource.owner = n :=
  fun u hu => congrArg RxResource.owner (createSocket_resource _ _ u hu)

theorem smartLinkRxInitBody_owner (dev : Option String) (o : RxOutcome) :
    ∀ u ∈ (smartLinkRxInitBody n dev u16Channel o).1, u.resource.owner = n := by
  have hopen := createRawSocket_owner n o
  unfold smartLinkRxInitBody
  dsimp only
  split
  · exact hopen
  · split
    · exact hopen
    · split
      · exact hopen
      · exact List.forall_mem_append.mpr ⟨hopen, List.forall_mem_singleton.mpr rfl⟩

/-- A call takes and gives back resources of its own only. -/
theorem smartLinkRxInit_owner (dev : Option String) (o : RxOutcome) :
    ∀ u ∈ (smartLinkRxInit n dev u16Channel o).1, u.resource.owner = n := by
  have hbody := smartLinkRxInitBody_owner n u16Channel dev o
  unfold smartLinkRxInit
  split
  · exact List.forall_mem_nil _
  · split
    · exact List.forall_mem_nil _
    · split
      · next log receivers heq =>
        rw [heq] at hbody
        exact List.forall_mem_cons.mpr ⟨rfl, hbody⟩
      · next log receivers heq =>
        rw [heq] at hbody
        have hgone := smartLinkRxDeInit_owner n (some receivers) o.pthread_join
        exact List.forall_mem_cons.mpr ⟨rfl, List.forall_mem_append.mpr ⟨hbody, hgone⟩⟩

end Call

/-! ### The calls that work -/

/-- Where a call gets past the allocation, all the rest of it succeeds. -/
def InitWorks (dev : Option String) (o : RxOutcome) : Prop :=
  dev ≠ none → o.calloc = true → o.Works

/-- A call that gets past the allocation has its device and its memory. -/
theorem allocated {dev : Option String} {o : RxOutcome} (h : ¬ (dev = none ∨ o.calloc = false)) :
    ∃ d, dev = some d ∧ o.calloc = true := by
  rw [not_or, Bool.not_eq_false] at h
  obtain ⟨d, hd⟩ := Option.ne_none_iff_exists'.mp h.1
  exact ⟨d, hd, h.2⟩

end SmartConfig
