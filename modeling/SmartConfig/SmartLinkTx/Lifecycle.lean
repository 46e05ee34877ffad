import SmartConfig.Common
import SmartConfig.Lib.Factory

/-!
# `smartlinktx.c`: setting a transmitter up and tearing it down

`smartlinktTxInit` allocates a context with a mutex and opens and configures a socket;
`smartlinkTxDeInt` closes the socket and frees the context. The resources of the `n`-th call of
`smartlinktTxInit` are named after it. `txLifecycle` says what a program gets back, whatever the
calls underneath return:

* the context, always;
* the socket, unless `socket` has returned descriptor 0, which `createUdpSocket` lets pass and
  `CLOSE_SOCKET` does not close;
* the mutex, only from a call that fails: `smartlinkTxDeInt` does not destroy it.
-/

namespace SmartConfig

open Resource

inductive TxKind where
  | context
  | mutex
  | socket
  deriving DecidableEq

/-- What the `owner`-th call of `smartlinktTxInit` takes. -/
structure TxResource where
  kind : TxKind
  owner : Nat
  deriving DecidableEq

abbrev TxLog := List (Use TxResource)

/-- What the calls under `smartlinktTxInit` return. -/
structure TxOutcome where
  calloc : Bool
  pthread_mutex_init : Int
  createUdpSocket : Int
  socketSetBroadcast : Int
  socketBindIfcdev : Int
  deriving DecidableEq

/-! ## The functions -/

/-- `_smartlinkTxSockConfig`. -/
def smartlinkTxSockConfig (sockfd : Int) (dev : Option String) (o : TxOutcome) : Int :=
  if sockfd ≤ 0 then SMART_FAIL
  else if dev = none then SMART_FAIL
  else if o.socketSetBroadcast ≠ SMART_SUCCESS then o.socketSetBroadcast
  else if o.socketBindIfcdev ≠ SMART_SUCCESS then o.socketBindIfcdev
  else SMART_SUCCESS

/-- `MUTEX_INIT`, which goes on after a failure. -/
def txMutexInit (n : Nat) (o : TxOutcome) : TxLog :=
  if o.pthread_mutex_init ≠ 0 then [] else [.acquire ⟨.mutex, n⟩]

/-- `createUdpSocket`. -/
def createUdpSocket (n : Nat) (o : TxOutcome) : TxLog :=
  createSocket ⟨.socket, n⟩ o.createUdpSocket

/-- The `do … while (0)` in `smartlinktTxInit`: whether it returns. -/
def smartlinktTxInitBody (dev : Option String) (o : TxOutcome) : Bool :=
  if o.createUdpSocket = INVALID_SOCKET then false
  else if smartlinkTxSockConfig o.createUdpSocket dev o ≠ SMART_SUCCESS then false
  else true

/-- `smartlinktTxInit`, call number `n`; what it returns is the `sockfd` of the context. -/
def smartlinktTxInit (n : Nat) (dev : Option String) (o : TxOutcome) : TxLog × Option Int :=
  if dev = none then ([], none)
  else if ¬ o.calloc then ([], none)
  else
    let log := .acquire ⟨.context, n⟩ :: (txMutexInit n o ++ createUdpSocket n o)
    if smartlinktTxInitBody dev o then (log, some o.createUdpSocket)
    else
      (log ++ (closeSocket ⟨.socket, n⟩ o.createUdpSocket ++
        [.release ⟨.mutex, n⟩, .release ⟨.context, n⟩]), none)

/-- `smartlinkTxDeInt`, on the context of call `n`. -/
def smartlinkTxDeInt (n : Nat) (sockfd : Int) : TxLog :=
  closeSocket ⟨.socket, n⟩ sockfd ++ [.release ⟨.context, n⟩]

/-- A context that is returned has a socket that is open. -/
theorem sockfd_pos_of_init {n : Nat} {dev : Option String} {o : TxOutcome} {sockfd : Int}
    (h : (smartlinktTxInit n dev o).2 = some sockfd) : 0 < sockfd := by
  rw [smartlinktTxInit] at h
  split at h
  · cases h
  · split at h
    · cases h
    · dsimp only at h
      split at h
      · next hbody =>
        obtain rfl := Option.some.inj h
        by_contra hneg
        have hconfig : smartlinkTxSockConfig o.createUdpSocket dev o = SMART_FAIL := by
          rw [smartlinkTxSockConfig, if_pos (Int.not_lt.mp hneg)]
        rw [smartlinktTxInitBody, hconfig, if_pos (show SMART_FAIL ≠ SMART_SUCCESS by decide),
          ite_self] at hbody
        cases hbody
      · cases h

/-! ## Names -/

section Names

variable (n : Nat) (dev : Option String) (o : TxOutcome)

theorem txCloseSocket_owner (sockfd : Int) :
    ∀ u ∈ closeSocket (⟨.socket, n⟩ : TxResource) sockfd, u.resource.owner = n :=
  fun u hu => congrArg TxResource.owner (closeSocket_resource _ _ u hu)

theorem txMutexInit_owner : ∀ u ∈ txMutexInit n o, u.resource.owner = n := by
  unfold txMutexInit
  split
  · exact List.forall_mem_nil _
  · exact List.forall_mem_singleton.mpr rfl

theorem createUdpSocket_owner : ∀ u ∈ createUdpSocket n o, u.resource.owner = n :=
  fun u hu => congrArg TxResource.owner (createSocket_resource _ _ u hu)

theorem smartlinktTxInit_owner : ∀ u ∈ (smartlinktTxInit n dev o).1, u.resource.owner = n := by
  have hlog : ∀ u ∈ .acquire ⟨.context, n⟩ :: (txMutexInit n o ++ createUdpSocket n o),
      u.resource.owner = n :=
    List.forall_mem_cons.mpr
      ⟨rfl, List.forall_mem_append.mpr ⟨txMutexInit_owner n o, createUdpSocket_owner n o⟩⟩
  unfold smartlinktTxInit
  split
  · exact List.forall_mem_nil _
  · split
    · exact List.forall_mem_nil _
    · dsimp only
      split
      · exact hlog
      · have hgone : ∀ u ∈ [Use.release (⟨.mutex, n⟩ : TxResource), .release ⟨.context, n⟩],
            u.resource.owner = n := by simp [Use.resource]
        exact List.forall_mem_append.mpr
          ⟨hlog, List.forall_mem_append.mpr ⟨txCloseSocket_owner n _, hgone⟩⟩

theorem smartlinkTxDeInt_owner (sockfd : Int) :
    ∀ u ∈ smartlinkTxDeInt n sockfd, u.resource.owner = n :=
  List.forall_mem_append.mpr ⟨txCloseSocket_owner n sockfd, List.forall_mem_singleton.mpr rfl⟩

end Names

/-! ## Runs -/

/-- The arguments of a call of `smartlinktTxInit`, and what the calls underneath return. -/
structure TxInit where
  dev : Option String
  o : TxOutcome

/-- Transmitters, made by `smartlinktTxInit` and given back by `smartlinkTxDeInt`. -/
def transmitters : Factory TxResource Int TxInit where
  owner := (·.owner)
  make n i := smartlinktTxInit n i.dev i.o
  giveBack := smartlinkTxDeInt
  make_owner n i := smartlinktTxInit_owner n i.dev i.o
  giveBack_owner := smartlinkTxDeInt_owner

/-- The call gets past its allocation. -/
def TxInit.Allocated (i : TxInit) : Prop := i.dev ≠ none ∧ i.o.calloc = true

/-- All the rest of it succeeds. -/
def TxInit.Works (i : TxInit) : Prop := smartlinktTxInitBody i.dev i.o = true

instance TxInit.decidableAllocated (i : TxInit) : Decidable i.Allocated :=
  inferInstanceAs (Decidable (_ ∧ _))

instance TxInit.decidableWorks (i : TxInit) : Decidable i.Works :=
  inferInstanceAs (Decidable (_ = _))

/-! ### One resource of one call -/

section Uses

variable (n : Nat) (i : TxInit)

theorem history_unallocated (h : ¬ i.Allocated) : transmitters.history n i = [] := by
  have hmake : transmitters.make n i = ([], none) := by
    show smartlinktTxInit n i.dev i.o = _
    rw [smartlinktTxInit]
    split
    · rfl
    · next hdev =>
      rw [if_pos fun hcalloc => h ⟨hdev, hcalloc⟩]
  rw [Factory.history, hmake]
  rfl

theorem history_allocated (h : i.Allocated) :
    transmitters.history n i =
      .acquire ⟨.context, n⟩ :: (txMutexInit n i.o ++ createUdpSocket n i.o ++
        closeSocket ⟨.socket, n⟩ i.o.createUdpSocket ++
        (if smartlinktTxInitBody i.dev i.o then [] else [.release ⟨.mutex, n⟩]) ++
        [.release ⟨.context, n⟩]) := by
  have hmake : transmitters.make n i = smartlinktTxInit n i.dev i.o := rfl
  rw [smartlinktTxInit, if_neg h.1, if_neg (not_not.mpr h.2)] at hmake
  rw [Factory.history, hmake]
  -- set up and given back, or torn down at once
  cases smartlinktTxInitBody i.dev i.o with
  | true =>
      show _ ++ smartlinkTxDeInt n i.o.createUdpSocket = _
      simp [smartlinkTxDeInt]
  | false => simp

theorem uses_context (h : i.Allocated) : Returned ⟨.context, n⟩ (transmitters.history n i) := by
  rw [Returned, history_allocated n i h, txMutexInit, createUdpSocket, createSocket, closeSocket]
  split_ifs <;> simp [uses, Use.resource]

theorem uses_socket (h : i.Allocated) :
    uses ⟨.socket, n⟩ (transmitters.history n i) =
      (if i.o.createUdpSocket = INVALID_SOCKET then [] else [.acquire ⟨.socket, n⟩]) ++
        if i.o.createUdpSocket > 0 then [.release ⟨.socket, n⟩] else [] := by
  rw [history_allocated n i h, txMutexInit, createUdpSocket, createSocket, closeSocket]
  split_ifs <;> simp [uses, Use.resource]

theorem uses_mutex (h : i.Allocated) :
    uses ⟨.mutex, n⟩ (transmitters.history n i) =
      (if i.o.pthread_mutex_init ≠ 0 then [] else [.acquire ⟨.mutex, n⟩]) ++
        if i.Works then [] else [.release ⟨.mutex, n⟩] := by
  have hbody : (if i.Works then ([] : TxLog) else [.release ⟨.mutex, n⟩]) =
      if smartlinktTxInitBody i.dev i.o then [] else [.release ⟨.mutex, n⟩] := rfl
  rw [history_allocated n i h, txMutexInit, createUdpSocket, createSocket, closeSocket, hbody]
  split_ifs <;> simp [uses, Use.resource]

end Uses

/-! ## The life cycle -/

/-- What a program gets back that hands every context back: all of them; all sockets exactly if no
call has got a descriptor that is not positive; all mutexes exactly if every call that has set one
up fails, and none that was not set up exactly if every call that fails has set one up. -/
structure TxLifecycle (ops : List (Factory.Op TxInit)) (log : TxLog) : Prop where
  contexts : ∀ n, ReleasesHeld ⟨.context, n⟩ log ∧ ReleasedOnce ⟨.context, n⟩ log
  sockets : (∀ n, ReleasedOnce ⟨.socket, n⟩ log) ↔ ∀ i, .make i ∈ ops → i.Allocated →
    i.o.createUdpSocket = INVALID_SOCKET ∨ 0 < i.o.createUdpSocket
  mutexes : (∀ n, ReleasedOnce ⟨.mutex, n⟩ log) ↔ ∀ i, .make i ∈ ops → i.Allocated →
    i.o.pthread_mutex_init = 0 → ¬ i.Works
  destroys : (∀ n, ReleasesHeld ⟨.mutex, n⟩ log) ↔ ∀ i, .make i ∈ ops → i.Allocated →
    ¬ i.Works → i.o.pthread_mutex_init = 0

section Run

variable {ops : List (Factory.Op TxInit)} {w : Factory.State TxResource Int TxInit}

/-- A resource is unused if its call was not made or not allocated; else its history is that of its
call. -/
theorem uses_of_allocated (hrun : transmitters.run Factory.start ops = some w)
    (hdone : ∀ n, w.live n = none) (r : TxResource) :
    Unused r w.log ∨ ∃ i, .make i ∈ ops ∧ i.Allocated ∧
      uses r w.log = uses r (transmitters.history r.owner i) := by
  rcases Factory.uses_of_run hrun hdone r with hunused | ⟨i, hi, huses⟩
  · exact .inl hunused
  · by_cases halloc : i.Allocated
    · exact .inr ⟨i, hi, halloc, huses⟩
    · refine .inl (huses.trans ?_)
      have hnone : transmitters.history (transmitters.owner r) i = [] :=
        history_unallocated _ i halloc
      rw [hnone]
      rfl

/-- **The life cycle of transmitters**, over every run and all that can fail in it. -/
theorem txLifecycle (ops : List (Factory.Op TxInit)) (w : Factory.State TxResource Int TxInit)
    (hrun : transmitters.run Factory.start ops = some w) (hdone : ∀ n, w.live n = none) :
    TxLifecycle ops w.log := by
  refine ⟨fun n => ?_, ⟨fun hall i hi halloc => ?_, fun hall n => ?_⟩,
    ⟨fun hall i hi halloc hinit hworks => ?_, fun hall n => ?_⟩,
    ⟨fun hall i hi halloc hworks => ?_, fun hall n => ?_⟩⟩
  · rcases uses_of_allocated hrun hdone ⟨.context, n⟩ with hunused | ⟨i, -, halloc, huses⟩
    · exact ⟨hunused.releasesHeld, hunused.releasedOnce⟩
    · have hreturned : Returned ⟨.context, n⟩ w.log := huses.trans (uses_context n i halloc)
      exact ⟨hreturned.releasesHeld, hreturned.releasedOnce⟩
  · -- a socket that is neither refused nor closed
    by_contra hopen
    rw [not_or] at hopen
    obtain ⟨n, huses⟩ := Factory.uses_of_made hrun hdone hi
    have htaken : Taken ⟨.socket, n⟩ w.log := by
      rw [Taken, huses _ rfl, uses_socket n i halloc, if_neg hopen.1, if_neg hopen.2]
      rfl
    exact htaken.not_releasedOnce (hall n)
  · rcases uses_of_allocated hrun hdone ⟨.socket, n⟩ with hunused | ⟨i, hi, halloc, huses⟩
    · exact hunused.releasedOnce
    · rw [uses_socket n i halloc] at huses
      rcases hall i hi halloc with hinvalid | hpos
      · rw [if_pos hinvalid, hinvalid, if_neg (by decide)] at huses
        exact Unused.releasedOnce huses
      · have hvalid : i.o.createUdpSocket ≠ INVALID_SOCKET := by
          rintro h
          rw [h] at hpos
          exact absurd hpos (by decide)
        rw [if_neg hvalid, if_pos hpos] at huses
        exact Returned.releasedOnce huses
  · -- a mutex that is never destroyed
    obtain ⟨n, huses⟩ := Factory.uses_of_made hrun hdone hi
    have htaken : Taken ⟨.mutex, n⟩ w.log := by
      rw [Taken, huses _ rfl, uses_mutex n i halloc, if_neg (not_not.mpr hinit), if_pos hworks]
      rfl
    exact htaken.not_releasedOnce (hall n)
  · rcases uses_of_allocated hrun hdone ⟨.mutex, n⟩ with hunused | ⟨i, hi, halloc, huses⟩
    · exact hunused.releasedOnce
    · rw [uses_mutex n i halloc] at huses
      by_cases hinit : i.o.pthread_mutex_init = 0
      · rw [if_neg (not_not.mpr hinit), if_neg (hall i hi halloc hinit)] at huses
        exact Returned.releasedOnce huses
      · rw [if_pos hinit] at huses
        by_cases hworks : i.Works
        · rw [if_pos hworks] at huses
          exact Unused.releasedOnce huses
        · rw [if_neg hworks] at huses
          exact releasedOnce_of_uses huses
  · -- a mutex that is destroyed and was never there
    by_contra hinit
    obtain ⟨n, huses⟩ := Factory.uses_of_made hrun hdone hi
    have hreleased : uses ⟨.mutex, n⟩ w.log = [.release ⟨.mutex, n⟩] := by
      rw [huses _ rfl, uses_mutex n i halloc, if_pos hinit, if_neg hworks]
      rfl
    exact not_releasesHeld_of_uses hreleased (hall n)
  · rcases uses_of_allocated hrun hdone ⟨.mutex, n⟩ with hunused | ⟨i, hi, halloc, huses⟩
    · exact hunused.releasesHeld
    · rw [uses_mutex n i halloc] at huses
      by_cases hworks : i.Works
      · rw [if_pos hworks] at huses
        by_cases hinit : i.o.pthread_mutex_init = 0
        · rw [if_neg (not_not.mpr hinit)] at huses
          exact Taken.releasesHeld huses
        · rw [if_pos hinit] at huses
          exact Unused.releasesHeld huses
      · rw [if_neg (not_not.mpr (hall i hi halloc hworks)), if_neg hworks] at huses
        exact Returned.releasesHeld huses

/-- All goes well, and the descriptor is 3. -/
def txUpOutcome : TxOutcome where
  calloc := true
  pthread_mutex_init := 0
  createUdpSocket := 3
  socketSetBroadcast := 0
  socketBindIfcdev := 0

/-- One transmitter, set up and torn down again. -/
def txUpAndDown : List (Factory.Op TxInit) :=
  [.make { dev := some "wlan0", o := txUpOutcome }, .giveBack 0]

theorem txLifecycle_upAndDown :
    ∃ w, transmitters.run Factory.start txUpAndDown = some w ∧ TxLifecycle txUpAndDown w.log := by
  obtain ⟨w, hrun, hdone⟩ :
      ∃ w, transmitters.run Factory.start txUpAndDown = some w ∧ ∀ n, w.live n = none := by
    refine ⟨_, rfl, fun (n : Nat) => ?_⟩
    cases n with
    | zero => rfl
    | succ n => rfl
  exact ⟨w, hrun, txLifecycle txUpAndDown w hrun hdone⟩

end Run

end SmartConfig
