import SmartConfig.Lib.PartialRun
import SmartConfig.SmartLinkRx.Init
import SmartConfig.SmartLinkRx.Process

/-!
# `smartlinkrx.c`: the receiving thread and the one that stops it

`_smartlinkRxProcess` runs in a thread of its own, which shares the context with whoever calls
`smartLinkRxDeInit`: the program that has set the receiver up, or the callback, which the receiving
thread itself makes. Both functions are cut here into the steps that touch the context, and a
schedule says who moves next. The socket does not block (`socketSetNoblocking`), so that a thread
waits nowhere but in `pthread_join`.

A step notes what it does (`RxAct`), and nothing keeps it from using a context that has been freed;
the runs of C are those in which that does not happen (`definedRun`). A callback calls
`smartLinkRxDeInit` once, or not at all.
-/

namespace SmartConfig

/-- Who moves: the program, or the receiving thread. -/
inductive Party where
  | main
  | thread
  deriving DecidableEq

/-- Where a call of `smartLinkRxDeInit` is. -/
inductive DeInitPoint where
  | check
  | setExit
  | join
  | close
  | free
  deriving DecidableEq

inductive MainPoint where
  | running
  | deInit (point : DeInitPoint)
  | returned
  deriving DecidableEq

/-- Where the receiving thread is; from `callback` to `tail` it is inside `_smartlinkRxDecode`. -/
inductive ThreadPoint where
  | head
  | recv
  | decode (sendlen : Int)
  | callback (c : RxCall)
  | deInit (point : DeInitPoint)
  | tail
  | exited
  deriving DecidableEq

/-- What happens to the context, the socket and the thread; `touch` reads or writes a field. -/
inductive RxAct where
  | touch (p : Party)
  | recvfrom
  | callback (c : RxCall)
  | join
  | close
  | free
  deriving DecidableEq

/-- Both threads, what they share, the packets taken from the socket, and what has happened. -/
structure RxWorld where
  ctx : SmartLinkRxT
  radiotap : Ieee80211Radiotap
  main : MainPoint
  thread : ThreadPoint
  received : Nat
  acts : List RxAct

namespace RxWorld

/-- A receiver that `smartLinkRxInit` has just returned. -/
def start (sockFd : Int) (u16Channel : UInt16) : RxWorld where
  ctx := { rx := smartLinkRxStart, sockFd := sockFd, u16Channel := u16Channel, threadExit := false }
  radiotap := ieee80211RadiotapZero
  main := .running
  thread := .head
  received := 0
  acts := []

def act (w : RxWorld) (acts : List RxAct) : RxWorld := { w with acts := w.acts ++ acts }

def setThreadExit (w : RxWorld) : RxWorld := { w with ctx := { w.ctx with threadExit := true } }

def closeSockFd (w : RxWorld) : RxWorld := { w with ctx := { w.ctx with sockFd := INVALID_SOCKET } }

def setRx (w : RxWorld) (rx : SmartLinkRx) : RxWorld := { w with ctx := { w.ctx with rx := rx } }

/-! ## The steps -/

/-- A step of `smartLinkRxDeInit` in a call by `p`: what it leaves, and where the call goes on, if
it does not return. There is no step as long as `pthread_join` waits; a thread that joins itself is
told so (`EDEADLK`), and the function returns. -/
def deInit (w : RxWorld) (p : Party) : DeInitPoint → Option (RxWorld × Option DeInitPoint)
  | .check => some (w.act [.touch p], some (if w.ctx.threadExit then .close else .setExit))
  | .setExit => some ((w.act [.touch p]).setThreadExit, some .join)
  | .join =>
    match p with
    | .thread => some (w.act [.touch .thread], none)
    | .main => if w.thread = .exited then some (w.act [.touch .main, .join], some .close) else none
  | .close =>
    if w.ctx.sockFd > 0 then some ((w.act [.touch p, .close]).closeSockFd, some .free)
    else some (w.act [.touch p], some .free)
  | .free => some (w.act [.free], none)

/-- The program: it hands the context to `smartLinkRxDeInit` once. -/
def stepMain (w : RxWorld) : Option RxWorld :=
  match w.main with
  | .running => some { w with main := .deInit .check }
  | .deInit q => (w.deInit .main q).map fun next =>
      { next.1 with main := next.2.elim .returned .deInit }
  | .returned => none

section Thread

variable (packets : Nat → Option (List UInt8)) (tearsDown : RxCall → Bool)

/-- `_smartlinkRxProcess`; `packets` is what the calls of `recvfrom` find, and `tearsDown` says
whether the callback calls `smartLinkRxDeInit`. The decoder has done all but its last
`u32Sequence++` when it calls back. -/
def stepThread (w : RxWorld) : Option RxWorld :=
  match w.thread with
  | .head =>
    some { w.act [.touch .thread] with thread := if w.ctx.threadExit then .exited else .recv }
  | .recv =>
    if w.ctx.sockFd ≤ 0 then some { w.act [.touch .thread] with thread := .head }
    else
      let result := socketRevcRawpacket (packets w.received) w.radiotap
      some { w.act [.touch .thread, .recvfrom] with
        radiotap := result.2
        received := w.received + 1
        thread := if result.1 ≤ 0 then .head else .decode result.1 }
  | .decode sendlen =>
    let step := smartlinkRxDecode w.ctx.rx sendlen w.radiotap.saddr
    match step.call with
    | none => some { (w.act [.touch .thread]).setRx step.ctx with thread := .head }
    | some c =>
      some { (w.act [.touch .thread, .callback c]).setRx
          { step.ctx with u32Sequence := w.ctx.rx.u32Sequence } with
        thread := .callback c }
  | .callback c => some { w with thread := if tearsDown c then .deInit .check else .tail }
  | .deInit q => (w.deInit .thread q).map fun next =>
      { next.1 with thread := next.2.elim .tail .deInit }
  | .tail =>
    some { (w.act [.touch .thread]).setRx
        { w.ctx.rx with u32Sequence := w.ctx.rx.u32Sequence + 1 } with thread := .head }
  | .exited => none

def step (w : RxWorld) : Party → Option RxWorld
  | .main => w.stepMain
  | .thread => w.stepThread packets tearsDown

/-- The world after a schedule, if everybody who is to move can. -/
def run (w : RxWorld) (schedule : List Party) : Option RxWorld :=
  PartialRun.run (step packets tearsDown) w schedule

/-- Nothing follows the `free`: no use of the context, and no second `free`. -/
def Defined (w : RxWorld) : Prop := w.acts.Pairwise fun a _ => a ≠ .free

instance : DecidablePred Defined := fun _ => inferInstanceAs (Decidable (List.Pairwise _ _))

/-- The same schedule, without a step that uses what has been freed: of these C says nothing. -/
def definedRun (w : RxWorld) (schedule : List Party) : Option RxWorld :=
  PartialRun.run (PartialRun.guarded (step packets tearsDown) Defined) w schedule

end Thread

end RxWorld

end SmartConfig
