import Mathlib.Algebra.Ring.Int.Defs
import SmartConfig.Iface
import SmartConfig.Iface.Monitor
import SmartConfig.Lib.Steps
import SmartConfig.SmartLinkRx.Init

/-!
# `smartlinkrx.c`: the radio of a receiver

`_smartLinkRxSockConfig` binds the socket to the interface, switches that to monitor mode and to a
channel, makes the socket non-blocking and sets the size of its buffer. Here are its five steps with
what they ask of the system, where `Init` has only their results (`sockConfig_eq`). What the system
does then is its own affair: `init_asks` says which requests are made, in which order and with which
data, whatever the answers are, and that `smartLinkRxInit` returns a receiver exactly if nothing
fails that it looks at.

A channel that is not in the table is left out: for that `_ifaceGetfreq` reads on behind the table.
-/

namespace SmartConfig

open Traced Steps

/-- `struct iw_freq`: the frequency is `m * 10 ^ e` Hz. -/
structure IwFreq where
  m : Int
  e : Nat
  flags : Nat
  deriving DecidableEq

/-- The requests, with what they are given. -/
inductive RxRequest where
  /-- `setsockopt` with `SO_BINDTODEVICE`. -/
  | bindToDevice (ifr_name : List UInt8)
  /-- `ioctl` with `SIOCGIFFLAGS`. -/
  | getFlags (ifr_name : List UInt8)
  /-- `ioctl` with `SIOCSIFFLAGS`. -/
  | setFlags (ifr_name : List UInt8) (ifr_flags : Int16)
  /-- `ioctl` with `SIOCSIWMODE`. -/
  | setMode (ifrn_name : List UInt8) (mode : Int)
  /-- `ioctl` with `SIOCSIWFREQ`. -/
  | setFreq (ifr_name : List UInt8) (freq : IwFreq)
  /-- `fcntl` with `F_GETFL`. -/
  | getFl
  /-- `fcntl` with `F_SETFL`. -/
  | setFl (fl : Int32)
  /-- `setsockopt` with `SO_RCVBUF`. -/
  | setRcvbuf (opt : Int)
  deriving DecidableEq

/-- The places in the code whose requests can fail; each of them is passed once at most. -/
inductive RxSite where
  | bindToDevice
  | iface (site : IfaceIoctl)
  | setFreq
  | setFl
  | setRcvbuf

/-- The answers of the system: which requests succeed, the flags of the interface at each reading,
and the flags of the socket, or -1 when they cannot be read. -/
structure RxAnswers where
  ok : RxSite → Bool
  ifr_flags : IfaceIoctl → Int16
  fl : Int32

/-- What the call returns. -/
def RxAnswers.ret (a : RxAnswers) (site : RxSite) : Int := if a.ok site then 0 else -1

/-- A function that makes requests. -/
abbrev RadioCall := Traced Unit RxRequest

/-- One request, and the answer. -/
def ask {α : Type} (r : RxRequest) (answer : α) : RadioCall α := fun s => (answer, s, [r])

def IW_FREQ_FIXED : Nat := 0x01

def O_NONBLOCK : Int32 := 0x800

/-- A channel of the table. -/
abbrev Channel := { e : Ieee80211Channel // e ∈ gchannels }

/-- The channel as the `uint16_t` that is passed. -/
abbrev Channel.u16Channel (c : Channel) : UInt16 := c.1.u16HwValue

/-- What `_ifaceGetfreq` returns for it. -/
def Channel.getfreq (c : Channel) :
    { freq : UInt16 // ifaceGetfreq c.u16Channel = .returned freq } :=
  ⟨c.1.u16CenterFreq, ifaceGetfreq_of_mem c.2⟩

/-! ## The functions -/

section Functions

variable (a : RxAnswers)

/-- The requests for the interface. -/
def rxSystem : IfaceSystem RadioCall where
  getFlags site name := ask (.getFlags name) (a.ret (.iface site), a.ifr_flags site)
  setFlags site name ifr_flags := ask (.setFlags name ifr_flags) (a.ret (.iface site))
  setMode site name mode := ask (.setMode name mode) (a.ret (.iface site))

/-- `socketBindIfcdev`. -/
def socketBindIfcdev (sockfd : Int) (dev_name : Option String) : RadioCall Int :=
  if sockfd ≤ 0 then pure SMART_FAIL
  else
    match dev_name with
    | none => pure SMART_FAIL
    | some name => do
      let ret ← ask (.bindToDevice (ifrName name)) (a.ret .bindToDevice)
      stCheckResults ret (pure SMART_SUCCESS)

/-- `ifaceSetFreq`; the macro gets the result of the comparison. -/
def ifaceSetFreq (sock_fd : Int) (device : Option String) (u16Channel : Channel) : RadioCall Int :=
  stCheckArgs sock_fd device fun name => do
    let freq := { m := u16Channel.getfreq.1.toNat * 100000, e := 1, flags := IW_FREQ_FIXED }
    let ret ← ask (.setFreq name freq) (a.ret .setFreq)
    stCheckResults (if ret < 0 then 1 else 0) (pure SMART_SUCCESS)

/-- `socketSetNoblocking`; nobody looks whether the flags could be read. -/
def socketSetNoblocking (sockfd : Int) : RadioCall Int :=
  if sockfd ≤ 0 then pure SMART_FAIL
  else do
    let fl ← ask .getFl a.fl
    let ret ← ask (.setFl (fl ||| O_NONBLOCK)) (a.ret .setFl)
    stCheckResults (if ret < 0 then 1 else 0) (pure SMART_SUCCESS)

/-- `socketSetRevcbuffer`. -/
def socketSetRevcbuffer (sockfd : Int) (size : Int) : RadioCall Int :=
  if sockfd ≤ 0 then pure SMART_FAIL
  else do
    let ret ← ask (.setRcvbuf size) (a.ret .setRcvbuf)
    stCheckResults ret (pure SMART_SUCCESS)

/-- `_smartLinkRxSockConfig`. -/
def sockConfig (sockFd : Int) (dev : Option String) (u16Channel : Channel) : RadioCall Int :=
  stCheckArgs sockFd dev fun _ => do
    let ret ← socketBindIfcdev a sockFd dev
    stCheckResults ret do
      let ret ← ifaceSeMonitorMode (rxSystem a) sockFd dev
      stCheckResults ret do
        let ret ← ifaceSetFreq a sockFd dev u16Channel
        stCheckResults ret do
          let ret ← socketSetNoblocking a sockFd
          stCheckResults ret do
            let ret ← socketSetRevcbuffer a sockFd (25 * 1024)
            stCheckResults ret (pure SMART_SUCCESS)

end Functions

/-! ## What they ask -/

section Plan

variable (a : RxAnswers) (d : String) (u16Channel : Channel)

/-- The requests that take the interface down: it is left alone when it is not up. -/
def downPlan : List (RxRequest × Bool) :=
  let ifr_flags := a.ifr_flags .downGetFlags
  (.getFlags (ifrName d), a.ok (.iface .downGetFlags)) ::
    if ifr_flags &&& IFF_UP ≠ 0 then
      [(.setFlags (ifrName d) (ifr_flags &&& ~~~IFF_UP), a.ok (.iface .downSetFlags))]
    else []

/-- Those that bring it up, with the flags that it has and those from before. -/
def upPlan (oldflags : Int16) : List (RxRequest × Bool) :=
  [(.getFlags (ifrName d), a.ok (.iface .upGetFlags)),
   (.setFlags (ifrName d) (a.ifr_flags .upGetFlags ||| oldflags ||| IFF_UP),
    a.ok (.iface .upSetFlags))]

/-- Those of the switch to monitor mode, which takes flags that are negative for an error. -/
def monitorPlan : List (RxRequest × Bool) :=
  let oldflags := a.ifr_flags .getFlags
  [(.getFlags (ifrName d), a.ok (.iface .getFlags) && decide (0 ≤ oldflags.toInt))] ++
    (downPlan a d ++ ([(.setMode (ifrName d) IW_MODE_MONITOR, a.ok (.iface .setMode))] ++
      upPlan a d oldflags))

/-- The frequency of the channel: the table has it in MHz. -/
def Channel.freq : IwFreq where
  m := u16Channel.1.u16CenterFreq.toNat * 100000
  e := 1
  flags := IW_FREQ_FIXED

/-- All requests of `_smartLinkRxSockConfig`. -/
def rxPlan : List (RxRequest × Bool) :=
  [(.bindToDevice (ifrName d), a.ok .bindToDevice)] ++ (monitorPlan a d ++
    ([(.setFreq (ifrName d) u16Channel.freq, a.ok .setFreq)] ++
      ([(.getFl, true), (.setFl (a.fl ||| O_NONBLOCK), a.ok .setFl)] ++
        [(.setRcvbuf (25 * 1024), a.ok .setRcvbuf)])))

end Plan

/-! ## The functions follow the plan -/

/-- What `STCHECKRESULT` goes on with. -/
abbrev Succeeded (s32Ret : Int) : Prop := s32Ret = SMART_SUCCESS

section Follows

variable {a : RxAnswers} {p q : List (RxRequest × Bool)}

theorem ret_of_ok {site : RxSite} (h : a.ok site = true) : a.ret site = 0 := if_pos h

theorem ret_of_failed {site : RxSite} (h : a.ok site = false) : a.ret site = -1 := by
  rw [RxAnswers.ret, h]
  rfl

theorem stCheckResults_success (rest : RadioCall Int) : stCheckResults 0 rest = rest := rfl

theorem stCheckResults_failed {r : Int} (hr : r ≠ 0) (rest : RadioCall Int) :
    stCheckResults r rest = pure r := if_pos hr

/-- One step of a function before the others. -/
theorem follows_checked {x rest : RadioCall Int} (hx : Follows Succeeded x p)
    (hrest : Follows Succeeded rest q) :
    Follows Succeeded (x >>= fun ret => stCheckResults ret rest) (p ++ q) := by
  refine hx.bind (fun s hdone => ?_) fun s hfailed => ?_
  · have hvalue : x.value s = 0 := hdone
    rw [hvalue, stCheckResults_success]
    exact hrest
  · exact ⟨_, stCheckResults_failed hfailed rest, hfailed⟩

/-- The last step of a function. -/
theorem follows_last {x : RadioCall Int} (hx : Follows Succeeded x p) :
    Follows Succeeded (x >>= fun ret => stCheckResults ret (pure SMART_SUCCESS)) p := by
  have hchecked := follows_checked hx (Follows.pure (Eq.refl SMART_SUCCESS))
  rwa [List.append_nil] at hchecked

/-- A request before the others, where `done` is how the result of the function is looked at. -/
theorem follows_request {done : Int → Prop} (r : RxRequest) (site : RxSite) {rest : RadioCall Int}
    (hrest : Follows done rest q) (hneg : ¬ done (-1)) :
    Follows done (ask r (a.ret site) >>= fun ret => stCheckResults ret rest)
      ((r, a.ok site) :: q) := by
  refine Follows.ask (fun _ => rfl) (fun hok => ?_) fun hfailed => ?_
  · rw [ret_of_ok hok]
    exact hrest
  · rw [ret_of_failed hfailed]
    exact ⟨-1, stCheckResults_failed (by decide) rest, hneg⟩

/-- A reading of the flags before the others. -/
theorem follows_getFlags {done : Int → Prop} (name : List UInt8) (site : IfaceIoctl)
    {f : Int × Int16 → RadioCall Int} (hrest : Follows done (f (0, a.ifr_flags site)) q)
    (hfailed : ∃ r, f (-1, a.ifr_flags site) = pure r ∧ ¬ done r) :
    Follows done ((rxSystem a).getFlags site name >>= f)
      ((.getFlags name, a.ok (.iface site)) :: q) := by
  refine Follows.ask (fun _ => rfl) (fun hok => ?_) fun hfalse => ?_
  · rw [ret_of_ok hok]
    exact hrest
  · rw [ret_of_failed hfalse]
    exact hfailed

/-- A request whose result is compared with 0, at the end of a function. -/
theorem follows_requestNeg (r : RxRequest) (site : RxSite) :
    Follows Succeeded
      (do
        let ret ← ask r (a.ret site)
        stCheckResults (if ret < 0 then 1 else 0) (pure SMART_SUCCESS))
      [(r, a.ok site)] := by
  refine Follows.ask (fun _ => rfl) (fun hok => ?_) fun hfailed => ?_
  · rw [ret_of_ok hok]
    exact Follows.pure rfl
  · rw [ret_of_failed hfailed]
    exact ⟨1, rfl, by decide⟩

end Follows

section Functions

variable {a : RxAnswers} {sockFd : Int} (hfd : 0 < sockFd) (d : String)

include hfd

theorem follows_socketBindIfcdev :
    Follows Succeeded (socketBindIfcdev a sockFd (some d))
      [(.bindToDevice (ifrName d), a.ok .bindToDevice)] := by
  rw [socketBindIfcdev, if_neg (by omega)]
  exact follows_request _ _ (Follows.pure rfl) (by decide)

theorem value_ifaceGetFlags (s : Unit) :
    (ifaceGetFlags (rxSystem a) sockFd (some d)).value s =
      if a.ok (.iface .getFlags) then (a.ifr_flags .getFlags).toInt else -1 := by
  rw [ifaceGetFlags, stCheckArgs_eq d hfd]
  show (stCheckResults (a.ret _) (pure _) : RadioCall Int).value s = _
  cases hok : a.ok (.iface .getFlags) with
  | true =>
      rw [ret_of_ok hok]
      rfl
  | false =>
      rw [ret_of_failed hok]
      rfl

/-- The flags are read, and taken for an error when they are negative. -/
theorem follows_ifaceGetFlags :
    Follows (0 ≤ ·) (ifaceGetFlags (rxSystem a) sockFd (some d))
      [(.getFlags (ifrName d),
        a.ok (.iface .getFlags) && decide (0 ≤ (a.ifr_flags .getFlags).toInt))] := by
  rw [ifaceGetFlags, stCheckArgs_eq d hfd]
  refine Follows.ask (fun _ => rfl) (fun hfine => ?_) fun hfailed => ?_
  · obtain ⟨hok, hflags⟩ := Bool.and_eq_true_iff.mp hfine
    rw [ret_of_ok hok]
    exact Follows.pure (of_decide_eq_true hflags)
  · rcases Bool.and_eq_false_iff.mp hfailed with hfailed | hflags
    · rw [ret_of_failed hfailed]
      exact ⟨-1, rfl, by decide⟩
    · cases hok : a.ok (.iface .getFlags) with
      | true =>
          rw [ret_of_ok hok]
          exact ⟨_, rfl, of_decide_eq_false hflags⟩
      | false =>
          rw [ret_of_failed hok]
          exact ⟨-1, rfl, by decide⟩

theorem follows_ifaceSetDown :
    Follows Succeeded (ifaceSetDown (rxSystem a) sockFd (some d)) (downPlan a d) := by
  have hneg : ¬ Succeeded (toBOOL (-1)) := by decide
  rw [ifaceSetDown, stCheckArgs_eq d hfd]
  refine Follows.map (follows_getFlags _ _ ?_ ⟨-1, rfl, hneg⟩)
  dsimp only
  rw [stCheckResults_success]
  split
  · exact follows_request _ _ (Follows.pure rfl) hneg
  · exact Follows.pure rfl

theorem follows_ifaceSetMode (mode : Int) :
    Follows Succeeded (ifaceSetMode (rxSystem a) sockFd (some d) mode)
      [(.setMode (ifrName d) mode, a.ok (.iface .setMode))] := by
  rw [ifaceSetMode, stCheckArgs_eq d hfd]
  exact follows_request _ _ (Follows.pure rfl) (by decide)

theorem follows_ifaceSetUp (oldflags : Int16) :
    Follows Succeeded (ifaceSetUp (rxSystem a) sockFd (some d) oldflags.toInt)
      (upPlan a d oldflags) := by
  have hneg : ¬ Succeeded (toBOOL (-1)) := by decide
  rw [ifaceSetUp, stCheckArgs_eq d hfd]
  refine Follows.map (follows_getFlags _ _ ?_ ⟨-1, rfl, hneg⟩)
  dsimp only
  rw [Int16.ofInt_toInt, stCheckResults_success]
  exact follows_request _ _ (Follows.pure rfl) hneg

/-- The switch: it goes on with the flags that it has read only where they are no error. -/
theorem follows_ifaceSeMonitorMode :
    Follows Succeeded (ifaceSeMonitorMode (rxSystem a) sockFd (some d)) (monitorPlan a d) := by
  rw [ifaceSeMonitorMode, stCheckArgs_eq d hfd]
  refine (follows_ifaceGetFlags hfd d).bind (fun s hdone => ?_) fun s hneg => ?_
  · have hflags : (ifaceGetFlags (rxSystem a) sockFd (some d)).value s =
        (a.ifr_flags .getFlags).toInt := by
      rw [value_ifaceGetFlags hfd d s] at hdone ⊢
      split at hdone
      · next hok => rw [if_pos hok]
      · exact absurd hdone (by decide)
    rw [if_neg (by omega), hflags]
    exact follows_checked (follows_ifaceSetDown hfd d) <|
      follows_checked (follows_ifaceSetMode hfd d IW_MODE_MONITOR) <|
        follows_last (follows_ifaceSetUp hfd d (a.ifr_flags .getFlags))
  · exact ⟨SMART_FAIL, if_pos (by omega), by decide⟩

theorem follows_ifaceSetFreq (u16Channel : Channel) :
    Follows Succeeded (ifaceSetFreq a sockFd (some d) u16Channel)
      [(.setFreq (ifrName d) u16Channel.freq, a.ok .setFreq)] := by
  rw [ifaceSetFreq, stCheckArgs_eq d hfd]
  exact follows_requestNeg _ _

/-- Reading the flags cannot fail, as far as the function is concerned. -/
theorem follows_socketSetNoblocking :
    Follows Succeeded (socketSetNoblocking a sockFd)
      [(.getFl, true), (.setFl (a.fl ||| O_NONBLOCK), a.ok .setFl)] := by
  rw [socketSetNoblocking, if_neg (by omega)]
  exact Follows.ask (fun _ => rfl) (fun _ => follows_requestNeg _ _) fun h => nomatch h

theorem follows_socketSetRevcbuffer (size : Int) :
    Follows Succeeded (socketSetRevcbuffer a sockFd size)
      [(.setRcvbuf size, a.ok .setRcvbuf)] := by
  rw [socketSetRevcbuffer, if_neg (by omega)]
  exact follows_request _ _ (Follows.pure rfl) (by decide)

theorem follows_sockConfig (u16Channel : Channel) :
    Follows Succeeded (sockConfig a sockFd (some d) u16Channel) (rxPlan a d u16Channel) := by
  rw [sockConfig, stCheckArgs_eq d hfd]
  exact follows_checked (follows_socketBindIfcdev hfd d) <|
    follows_checked (follows_ifaceSeMonitorMode hfd d) <|
      follows_checked (follows_ifaceSetFreq hfd d u16Channel) <|
        follows_checked (follows_socketSetNoblocking hfd) <|
          follows_last (follows_socketSetRevcbuffer hfd (25 * 1024))

end Functions

/-! ## A receiver that comes up -/

section Init

variable (a : RxAnswers) (d : String) (u16Channel : Channel)

/-- What the calls under `smartLinkRxInit` return, when these are the answers to the requests. -/
def RxAnswers.outcome (o : RxOutcome) : RxOutcome :=
  { o with
    socketBindIfcdev := (socketBindIfcdev a o.createRawSocket (some d)).value ()
    ifaceSeMonitorMode :=
      (ifaceSeMonitorMode (rxSystem a) o.createRawSocket (some d)).value ()
    ifaceSetFreq := (ifaceSetFreq a o.createRawSocket (some d) u16Channel).value ()
    socketSetNoblocking := (socketSetNoblocking a o.createRawSocket).value ()
    socketSetRevcbuffer := (socketSetRevcbuffer a o.createRawSocket (25 * 1024)).value () }

theorem value_checked (x rest : RadioCall Int) :
    (x >>= fun ret => stCheckResults ret rest).value () =
      if x.value () ≠ SMART_SUCCESS then x.value () else rest.value () := by
  show (stCheckResults (x.value ()) rest).value () = _
  rw [stCheckResults]
  split <;> rfl

/-- The first result that is no success, read step by step. -/
theorem getD_find?_cons (r : Int) (results : List Int) :
    ((r :: results).find? (· ≠ SMART_SUCCESS)).getD SMART_SUCCESS =
      if r ≠ SMART_SUCCESS then r
      else (results.find? (· ≠ SMART_SUCCESS)).getD SMART_SUCCESS := by
  by_cases h : r ≠ SMART_SUCCESS
  · rw [if_pos h, List.find?_cons_of_pos (by simpa using h)]
    rfl
  · rw [if_neg h, List.find?_cons_of_neg (by simpa using h)]

/-- **`_smartLinkRxSockConfig` on the results of its steps is `_smartLinkRxSockConfig`.** -/
theorem sockConfig_eq (o : RxOutcome) :
    (sockConfig a o.createRawSocket (some d) u16Channel).value () =
      smartLinkRxSockConfig o.createRawSocket (some d) (a.outcome d u16Channel o) := by
  rw [sockConfig, stCheckArgs, smartLinkRxSockConfig, if_neg (Option.some_ne_none d)]
  split
  · rfl
  · rw [RxOutcome.config]
    simp only [value_checked, getD_find?_cons]
    rfl

/-- Every call behind the requests works exactly when all of the plan is fine. -/
theorem works_outcome_iff (o : RxOutcome) :
    (a.outcome d u16Channel o).Works ↔
      0 < o.createRawSocket ∧ AllFine (rxPlan a d u16Channel) ∧
        o.pthread_create = SMART_SUCCESS := by
  refine and_congr_right fun hfd => and_congr_left fun _ => ?_
  rw [← (follows_sockConfig hfd d u16Channel).done_iff (), Succeeded, sockConfig_eq]
  exact (smartLinkRxSockConfig_eq_iff hfd).symm

theorem isSome_smartLinkRxInit_iff (n : Nat) (o : RxOutcome) :
    (smartLinkRxInit n (some d) u16Channel.u16Channel o).2.isSome ↔ o.calloc ∧ o.Works := by
  cases hcalloc : o.calloc with
  | false =>
      rw [smartLinkRxInit_unallocated n u16Channel.u16Channel (Or.inr hcalloc)]
      exact iff_of_false Bool.false_ne_true fun h => Bool.false_ne_true h.1
  | true =>
      by_cases hworks : o.Works
      · rw [smartLinkRxInit_works n d u16Channel.u16Channel hcalloc hworks]
        exact iff_of_true rfl ⟨rfl, hworks⟩
      · rw [(smartLinkRxInit_fails n d u16Channel.u16Channel hcalloc hworks).1]
        exact iff_of_false Bool.false_ne_true fun h => hworks h.2

/-- The one frequency of the plan is the one of the channel. -/
theorem freq_of_mem_rxPlan {name : List UInt8} {freq : IwFreq} {fine : Bool}
    (h : (.setFreq name freq, fine) ∈ rxPlan a d u16Channel) : freq = u16Channel.freq := by
  rw [rxPlan, monitorPlan, downPlan] at h
  have hmem : (name = ifrName d ∧ freq = u16Channel.freq) ∧ fine = a.ok .setFreq := by
    split at h <;> simpa [upPlan] using h
  exact hmem.1.2

/-- **What a receiver asks for when it is set up**: the plan, up to its first failure, and a
receiver comes up if there is none; the frequency, in Hz, is the one of the channel. -/
theorem init_asks (n : Nat) (o : RxOutcome) :
    (sockConfig a o.createRawSocket (some d) u16Channel).events () =
        (if 0 < o.createRawSocket then tried (rxPlan a d u16Channel) else []) ∧
      ((smartLinkRxInit n (some d) u16Channel.u16Channel (a.outcome d u16Channel o)).2.isSome ↔
        o.calloc ∧ 0 < o.createRawSocket ∧ AllFine (rxPlan a d u16Channel) ∧
          o.pthread_create = SMART_SUCCESS) ∧
      ((smartLinkRxInit n (some d) u16Channel.u16Channel (a.outcome d u16Channel o)).2.isSome →
        (sockConfig a o.createRawSocket (some d) u16Channel).events () =
          (rxPlan a d u16Channel).map (·.1)) ∧
      ∀ name freq,
        .setFreq name freq ∈ (sockConfig a o.createRawSocket (some d) u16Channel).events () →
          freq.m * 10 ^ freq.e = (u16Channel.1.u16CenterFreq.toNat : Int) * 10 ^ 6 := by
  have hasked : (sockConfig a o.createRawSocket (some d) u16Channel).events () =
      if 0 < o.createRawSocket then tried (rxPlan a d u16Channel) else [] := by
    by_cases hfd : 0 < o.createRawSocket
    · rw [if_pos hfd]
      exact (follows_sockConfig hfd d u16Channel).events_eq ()
    · rw [if_neg hfd, sockConfig, stCheckArgs, if_pos (by omega)]
      rfl
  have hsome : (smartLinkRxInit n (some d) u16Channel.u16Channel
      (a.outcome d u16Channel o)).2.isSome ↔
        o.calloc ∧ 0 < o.createRawSocket ∧ AllFine (rxPlan a d u16Channel) ∧
          o.pthread_create = SMART_SUCCESS := by
    rw [isSome_smartLinkRxInit_iff, works_outcome_iff]
    exact Iff.rfl
  refine ⟨hasked, hsome, fun h => ?_, fun name freq hfreq => ?_⟩
  · obtain ⟨-, hfd, hfine, -⟩ := hsome.mp h
    rw [hasked, if_pos hfd, tried_of_allFine hfine]
  · rw [hasked] at hfreq
    split at hfreq
    · obtain ⟨fine, hmem⟩ := mem_of_mem_tried hfreq
      rw [freq_of_mem_rxPlan a d u16Channel hmem]
      show (u16Channel.1.u16CenterFreq.toNat : Int) * 100000 * 10 ^ 1 = _
      omega
    · exact absurd hfreq List.not_mem_nil

end Init

/-- A driver that cannot switch to monitor mode. -/
def managedOnly : RxAnswers where
  ok
    | .iface .setMode => false
    | _ => true
  ifr_flags _ := 0x1043
  fl := 2

example : (sockConfig managedOnly 3 (some "wlan0") ⟨CHAN2G 6 2437, by decide⟩).events () =
    [.bindToDevice (ifrName "wlan0"), .getFlags (ifrName "wlan0"), .getFlags (ifrName "wlan0"),
     .setFlags (ifrName "wlan0") 0x1042, .setMode (ifrName "wlan0") IW_MODE_MONITOR] := by
  decide +kernel

end SmartConfig
