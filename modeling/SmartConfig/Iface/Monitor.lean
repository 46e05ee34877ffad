import SmartConfig.Common
import SmartConfig.Lib.Traced

/-!
# `iface.c`: switching to monitor mode

`ifaceSeMonitorMode` reads the flags of the interface, takes it down, sets the mode, and brings it
up again with the flags it had. Every helper leaves at the first `ioctl` that fails, and nothing
undoes what the earlier ones have done. The flags are a signed 16-bit word that is returned as an
`int`, next to an error that is a negative `int`: a word with its highest bit set is taken for an
error. `ifaceSeMonitorMode_iff` says when the switch is all or nothing in spite of both.
-/

namespace SmartConfig

open Traced

/-- The interface, as far as the requests see it: `ifr_flags`, which is a `short`, and the mode. -/
structure Netif where
  ifr_flags : Int16
  mode : Int
  deriving DecidableEq

def IFF_UP : Int16 := 0x1

def IW_MODE_MONITOR : Int := 6

/-- The `ioctl` calls, by the place in the code; each of them is made once at most. -/
inductive IfaceIoctl where
  | getFlags
  | downGetFlags
  | downSetFlags
  | setMode
  | upGetFlags
  | upSetFlags
  deriving DecidableEq

/-- The interface is up. -/
def Netif.Up (s : Netif) : Prop := s.ifr_flags &&& IFF_UP ≠ 0

instance (s : Netif) : Decidable s.Up := inferInstanceAs (Decidable (_ ≠ _))

/-! ## The functions -/

def IFNAMSIZ : Nat := 16

/-- `snprintf(ifr.ifr_name, sizeof(ifr.ifr_name), "%s", device)`. -/
def ifrName (device : String) : List UInt8 := device.toUTF8.toList.take (IFNAMSIZ - 1)

/-- What answers the requests, which bear the name of an interface and their place in the code. -/
structure IfaceSystem (m : Type → Type) where
  /-- `ioctl(sock_fd, SIOCGIFFLAGS, &ifr)`, with what is in `ifr.ifr_flags` after it. -/
  getFlags : IfaceIoctl → List UInt8 → m (Int × Int16)
  /-- `ioctl(sock_fd, SIOCSIFFLAGS, &ifr)`. -/
  setFlags : IfaceIoctl → List UInt8 → Int16 → m Int
  /-- `ioctl(sock_fd, SIOCSIWMODE, &ireq)`. -/
  setMode : IfaceIoctl → List UInt8 → Int → m Int

section Functions

variable {m : Type → Type} [Monad m]

/-- `STCHECKRESULT` and `STCHECKRESULTS`: leave with the result, if it is not a success. -/
def stCheckResults (s32Ret : Int) (rest : m Int) : m Int :=
  if s32Ret ≠ SMART_SUCCESS then pure s32Ret else rest

/-- `ST_CHECK_POINTER` and `ST_CHECK_SOCKET`, at the head of every function, and the name that goes
into its requests. -/
def stCheckArgs (sock_fd : Int) (device : Option String) (rest : List UInt8 → m Int) : m Int :=
  match device with
  | none => pure SMART_FAIL
  | some d => if sock_fd ≤ 0 then pure SMART_FAIL else rest (ifrName d)

/-- A result as the `BOOL` that it is returned as, which is an `unsigned char`. -/
def toBOOL (x : Int) : Int := x % 256

variable (sys : IfaceSystem m) (sock_fd : Int) (device : Option String)

/-- `_ifaceGetFlags`. -/
def ifaceGetFlags : m Int :=
  stCheckArgs sock_fd device fun name => do
    let (ret, ifr_flags) ← sys.getFlags .getFlags name
    stCheckResults ret (pure ifr_flags.toInt)

/-- `_ifaceSetDown`. -/
def ifaceSetDown : m Int := do
  let ret ← stCheckArgs sock_fd device fun name => do
    let (ret, ifr_flags) ← sys.getFlags .downGetFlags name
    stCheckResults ret
      (if ifr_flags &&& IFF_UP ≠ 0 then do
        let ret ← sys.setFlags .downSetFlags name (ifr_flags &&& ~~~IFF_UP)
        stCheckResults ret (pure SMART_SUCCESS)
      else pure SMART_SUCCESS)
  pure (toBOOL ret)

/-- `_ifaceSetUp`. -/
def ifaceSetUp (oldflags : Int) : m Int := do
  let ret ← stCheckArgs sock_fd device fun name => do
    let (ret, ifr_flags) ← sys.getFlags .upGetFlags name
    stCheckResults ret do
      let ret ← sys.setFlags .upSetFlags name (ifr_flags ||| Int16.ofInt oldflags ||| IFF_UP)
      stCheckResults ret (pure SMART_SUCCESS)
  pure (toBOOL ret)

/-- `_ifaceSetMode`. -/
def ifaceSetMode (mode : Int) : m Int :=
  stCheckArgs sock_fd device fun name => do
    let ret ← sys.setMode .setMode name mode
    stCheckResults ret (pure SMART_SUCCESS)

/-- `ifaceSeMonitorMode`. -/
def ifaceSeMonitorMode : m Int :=
  stCheckArgs sock_fd device fun _ => do
    let oldflags ← ifaceGetFlags sys sock_fd device
    if oldflags < 0 then pure SMART_FAIL
    else do
      let ret ← ifaceSetDown sys sock_fd device
      stCheckResults ret do
        let ret ← ifaceSetMode sys sock_fd device IW_MODE_MONITOR
        stCheckResults ret do
          let ret ← ifaceSetUp sys sock_fd device oldflags
          stCheckResults ret (pure SMART_SUCCESS)

theorem stCheckArgs_eq {sock_fd : Int} (d : String) (hfd : 0 < sock_fd)
    (rest : List UInt8 → m Int) : stCheckArgs sock_fd (some d) rest = rest (ifrName d) := by
  rw [stCheckArgs, if_neg (by omega)]

end Functions

/-! ## On one interface -/

/-- A function that talks to the interface, with the requests it makes. -/
abbrev IfaceCall := Traced Netif IfaceIoctl

section Netif

variable (ok : IfaceIoctl → Bool)

def ioctlGetFlags (site : IfaceIoctl) : IfaceCall (Int × Int16) := fun s =>
  if ok site then ((0, s.ifr_flags), s, [site]) else ((-1, 0), s, [site])

def ioctlSetFlags (site : IfaceIoctl) (ifr_flags : Int16) : IfaceCall Int := fun s =>
  if ok site then (0, { s with ifr_flags := ifr_flags }, [site]) else (-1, s, [site])

def ioctlSetMode (site : IfaceIoctl) (mode : Int) : IfaceCall Int := fun s =>
  if ok site then (0, { s with mode := mode }, [site]) else (-1, s, [site])

/-- The interface of the name, whose flags and mode the requests read and change; one that fails
changes nothing. -/
def netif : IfaceSystem IfaceCall where
  getFlags site _ := ioctlGetFlags ok site
  setFlags site _ ifr_flags := ioctlSetFlags ok site ifr_flags
  setMode site _ mode := ioctlSetMode ok site mode

end Netif

/-! ## What each function does -/

section Spec

variable (ok : IfaceIoctl → Bool) {sock_fd : Int} (d : String)

/-- After a success, the rest runs. -/
theorem checked_success {x rest : IfaceCall Int} {s s' : Netif} {sites : List IfaceIoctl}
    (h : x s = (0, s', sites)) :
    (x >>= fun ret => stCheckResults ret rest) s =
      ((rest s').1, (rest s').2.1, sites ++ (rest s').2.2) := by
  rw [run_bind, h]
  rfl

/-- After a failure, nothing does. -/
theorem checked_failure {x rest : IfaceCall Int} {s s' : Netif} {r : Int}
    {sites : List IfaceIoctl} (h : x s = (r, s', sites)) (hr : r ≠ 0) :
    (x >>= fun ret => stCheckResults ret rest) s = (r, s', sites) := by
  have hcheck : stCheckResults r rest = pure r := if_pos hr
  rw [run_bind, h]
  dsimp only
  rw [hcheck, run_pure, List.append_nil]

/-- Without a device or a socket, nothing is asked of the interface. -/
theorem ifaceSeMonitorMode_invalid {device : Option String} (h : device = none ∨ sock_fd ≤ 0)
    (s : Netif) : ifaceSeMonitorMode (netif ok) sock_fd device s = (SMART_FAIL, s, []) := by
  cases device with
  | none => rfl
  | some d =>
      have hfd : sock_fd ≤ 0 := h.resolve_left (Option.some_ne_none d)
      rw [ifaceSeMonitorMode, stCheckArgs.eq_def]
      dsimp only
      rw [if_pos hfd]
      rfl

theorem ifaceGetFlags_eq (hfd : 0 < sock_fd) (s : Netif) :
    ifaceGetFlags (netif ok) sock_fd (some d) s =
      (if ok .getFlags then s.ifr_flags.toInt else -1, s, [.getFlags]) := by
  rw [ifaceGetFlags, stCheckArgs_eq d hfd]
  cases hok : ok .getFlags <;>
    simp [run_bind, netif, ioctlGetFlags, hok, stCheckResults, run_pure, SMART_SUCCESS]

/-- The interface taken down. -/
def Netif.down (s : Netif) : Netif := { s with ifr_flags := s.ifr_flags &&& ~~~IFF_UP }

theorem ifaceSetDown_eq (hfd : 0 < sock_fd) (s : Netif) :
    ifaceSetDown (netif ok) sock_fd (some d) s =
      if ok .downGetFlags then
        if s.Up then
          if ok .downSetFlags then (0, s.down, [.downGetFlags, .downSetFlags])
          else (255, s, [.downGetFlags, .downSetFlags])
        else (0, s, [.downGetFlags])
      else (255, s, [.downGetFlags]) := by
  rw [ifaceSetDown, stCheckArgs_eq d hfd]
  cases hget : ok .downGetFlags
  · simp [run_bind, netif, ioctlGetFlags, hget, stCheckResults, run_pure, SMART_SUCCESS, toBOOL]
  · by_cases hup : s.Up
    · have hup' := hup
      rw [Netif.Up] at hup'
      cases hset : ok .downSetFlags <;>
        simp [run_bind, netif, ioctlGetFlags, ioctlSetFlags, hget, hset, stCheckResults, run_pure,
          SMART_SUCCESS, toBOOL, hup, hup', Netif.down]
    · have hup' : s.ifr_flags &&& IFF_UP = 0 := Decidable.not_not.mp hup
      simp [run_bind, netif, ioctlGetFlags, hget, stCheckResults, run_pure, SMART_SUCCESS, toBOOL,
        hup, hup']

theorem ifaceSetMode_eq (hfd : 0 < sock_fd) (mode : Int) (s : Netif) :
    ifaceSetMode (netif ok) sock_fd (some d) mode s =
      if ok .setMode then (0, { s with mode := mode }, [.setMode]) else (-1, s, [.setMode]) := by
  rw [ifaceSetMode, stCheckArgs_eq d hfd]
  cases hok : ok .setMode <;>
    simp [run_bind, netif, ioctlSetMode, hok, stCheckResults, run_pure, SMART_SUCCESS]

/-- The interface brought up, with the flags that it has and those of the given word. -/
def Netif.up (s : Netif) (oldflags : Int16) : Netif :=
  { s with ifr_flags := s.ifr_flags ||| oldflags ||| IFF_UP }

theorem ifaceSetUp_eq (hfd : 0 < sock_fd) (oldflags : Int16) (s : Netif) :
    ifaceSetUp (netif ok) sock_fd (some d) oldflags.toInt s =
      if ok .upGetFlags then
        if ok .upSetFlags then (0, s.up oldflags, [.upGetFlags, .upSetFlags])
        else (255, s, [.upGetFlags, .upSetFlags])
      else (255, s, [.upGetFlags]) := by
  rw [ifaceSetUp, stCheckArgs_eq d hfd]
  cases hget : ok .upGetFlags
  · simp [run_bind, netif, ioctlGetFlags, hget, stCheckResults, run_pure, SMART_SUCCESS, toBOOL]
  · cases hset : ok .upSetFlags <;>
      simp [run_bind, netif, ioctlGetFlags, ioctlSetFlags, hget, hset, stCheckResults, run_pure,
        SMART_SUCCESS, toBOOL, Netif.up]

/-- The interface as `_ifaceSetDown` leaves it, when it succeeds. -/
def Netif.lowered (s : Netif) : Netif := if s.Up then s.down else s

/-- The requests up to there. -/
def loweringSites (s : Netif) : List IfaceIoctl :=
  [.getFlags, .downGetFlags] ++ if s.Up then [.downSetFlags] else []

/-- What the second half comes to, from the mode on: with the flags from before, where it may leave
and how the interface is then. -/
def raised (oldflags : Int16) : IfaceCall Int := fun s =>
  let s' := { s with mode := IW_MODE_MONITOR }
  if ok .setMode then
    if ok .upGetFlags then
      if ok .upSetFlags then (0, s'.up oldflags, [.setMode, .upGetFlags, .upSetFlags])
      else (255, s', [.setMode, .upGetFlags, .upSetFlags])
    else (255, s', [.setMode, .upGetFlags])
  else (-1, s, [.setMode])

theorem ifaceRaise_eq (hfd : 0 < sock_fd) (oldflags : Int16) (s : Netif) :
    (do
      let ret ← ifaceSetMode (netif ok) sock_fd (some d) IW_MODE_MONITOR
      stCheckResults ret do
        let ret ← ifaceSetUp (netif ok) sock_fd (some d) oldflags.toInt
        stCheckResults ret (pure SMART_SUCCESS) : IfaceCall Int) s = raised ok oldflags s := by
  have hset := ifaceSetMode_eq ok d hfd IW_MODE_MONITOR s
  rw [raised]
  cases hmode : ok .setMode
  · rw [hmode] at hset
    exact checked_failure hset (by decide)
  · rw [hmode] at hset
    rw [checked_success hset]
    have hup := ifaceSetUp_eq ok d hfd oldflags { s with mode := IW_MODE_MONITOR }
    cases hget : ok .upGetFlags
    · rw [hget] at hup
      rw [checked_failure hup (by decide)]
      rfl
    · cases hlast : ok .upSetFlags <;> rw [hget, hlast] at hup
      · rw [checked_failure hup (by decide)]
        rfl
      · rw [checked_success hup]
        rfl

/-- The whole switch: where it may leave, with what, and how the interface is then. -/
theorem ifaceSeMonitorMode_eq (hfd : 0 < sock_fd) (s : Netif) :
    ifaceSeMonitorMode (netif ok) sock_fd (some d) s =
      if ok .getFlags then
        if s.ifr_flags.toInt < 0 then (-1, s, [.getFlags])
        else if ok .downGetFlags then
          if s.Up ∧ ok .downSetFlags = false then
            (255, s, [.getFlags, .downGetFlags, .downSetFlags])
          else
            ((raised ok s.ifr_flags s.lowered).1, (raised ok s.ifr_flags s.lowered).2.1,
              loweringSites s ++ (raised ok s.ifr_flags s.lowered).2.2)
        else (255, s, [.getFlags, .downGetFlags])
      else (-1, s, [.getFlags]) := by
  rw [ifaceSeMonitorMode, stCheckArgs_eq d hfd, run_bind, ifaceGetFlags_eq ok d hfd]
  cases hget : ok .getFlags
  · simp [run_pure, SMART_FAIL]
  · by_cases hneg : s.ifr_flags.toInt < 0
    · simp [hneg, run_pure, SMART_FAIL]
    · simp only [if_true, hneg, if_false]
      have hdown := ifaceSetDown_eq ok d hfd s
      cases hread : ok .downGetFlags
      · rw [hread] at hdown
        rw [checked_failure hdown (by decide)]
        rfl
      · by_cases hfail : s.Up ∧ ok .downSetFlags = false
        · rw [hread, hfail.2, if_pos hfail.1] at hdown
          rw [checked_failure hdown (by decide), if_pos hfail]
          rfl
        · have hlowered : ifaceSetDown (netif ok) sock_fd (some d) s =
              (0, s.lowered, [.downGetFlags] ++ if s.Up then [.downSetFlags] else []) := by
            rw [hdown, hread, Netif.lowered]
            by_cases hup : s.Up
            · have hset : ok .downSetFlags = true := by simpa [hup] using hfail
              rw [if_pos rfl, if_pos hup, if_pos hset, if_pos hup, if_pos hup]
              rfl
            · rw [if_pos rfl, if_neg hup, if_neg hup, if_neg hup]
              rfl
          rw [checked_success hlowered, ifaceRaise_eq ok d hfd, if_neg hfail]
          rfl

end Spec

/-! ## All or nothing -/

/-- What a switch does that is all or nothing: it succeeds exactly when all its requests do, the
interface is then up and in monitor mode and has kept its other flags, and otherwise it is up or
down and in the mode that it was. -/
structure AllOrNothing (ok : IfaceIoctl → Bool) (x : IfaceCall Int) (s : Netif) : Prop where
  success : x.value s = SMART_SUCCESS ↔ ∀ site ∈ x.events s, ok site
  switched : x.value s = SMART_SUCCESS →
    x.final s = { ifr_flags := s.ifr_flags ||| IFF_UP, mode := IW_MODE_MONITOR }
  kept : x.value s ≠ SMART_SUCCESS → ((x.final s).Up ↔ s.Up) ∧ (x.final s).mode = s.mode

/-- No request fails after one that has changed something, and the flags are not taken for an
error: the first reading fails; or the highest bit of the flags is clear, and the second reading
fails, or an interface that is up cannot be taken down, or one that is down cannot be switched or
is in monitor mode anyway, or all that is left succeeds. -/
def Recoverable (ok : IfaceIoctl → Bool) (s : Netif) : Prop :=
  ok .getFlags = false ∨
    0 ≤ s.ifr_flags.toInt ∧
      (ok .downGetFlags = false ∨ (s.Up ∧ ok .downSetFlags = false) ∨
        (¬ s.Up ∧ (ok .setMode = false ∨ s.mode = IW_MODE_MONITOR)) ∨
        (ok .setMode = true ∧ ok .upGetFlags = true ∧ ok .upSetFlags = true))

section Switch

variable {ok : IfaceIoctl → Bool} {x : IfaceCall Int} {s s' : Netif} {r : Int}
  {sites : List IfaceIoctl}

/-- A run that fails at a request is all or nothing when it leaves the interface as it was. -/
theorem allOrNothing_failed (h : x s = (r, s', sites)) (hr : r ≠ 0)
    (hfail : ∃ site ∈ sites, ok site = false) :
    AllOrNothing ok x s ↔ (s'.Up ↔ s.Up) ∧ s'.mode = s.mode := by
  have hval : x.value s = r := congrArg Prod.fst h
  have hfinal : x.final s = s' := congrArg (·.2.1) h
  have hevents : x.events s = sites := congrArg (·.2.2) h
  constructor
  · intro hall
    rw [← hfinal]
    exact hall.kept (hval ▸ hr)
  · intro hkept
    refine ⟨?_, fun h0 => absurd (hval.symm.trans h0) hr, fun _ => by rw [hfinal]; exact hkept⟩
    obtain ⟨site, hmem, hfalse⟩ := hfail
    refine iff_of_false (fun h0 => hr (hval.symm.trans h0)) fun hok => ?_
    rw [hevents] at hok
    exact absurd (hok site hmem) (by simp [hfalse])

theorem not_up_lowered (s : Netif) : ¬ s.lowered.Up := by
  rw [Netif.lowered]
  split
  · intro h
    apply h
    show s.ifr_flags &&& ~~~IFF_UP &&& IFF_UP = 0
    rw [Int16.and_assoc]
    have hmask : ~~~IFF_UP &&& IFF_UP = 0 := by decide
    rw [hmask, Int16.and_zero]
  · next h => exact h

theorem lowered_mode (s : Netif) : s.lowered.mode = s.mode := by
  rw [Netif.lowered]
  split <;> rfl

/-- Taking the interface down and bringing it up again loses none of its flags. -/
theorem up_lowered (s : Netif) (mode : Int) :
    { s.lowered with mode := mode }.up s.ifr_flags =
      { ifr_flags := s.ifr_flags ||| IFF_UP, mode := mode } := by
  have hflags : s.lowered.ifr_flags ||| s.ifr_flags = s.ifr_flags := by
    rw [Netif.lowered]
    split
    · show s.ifr_flags &&& ~~~IFF_UP ||| s.ifr_flags = s.ifr_flags
      apply Int16.toBitVec_inj.mp
      ext i
      rw [Int16.toBitVec_or, Int16.toBitVec_and, BitVec.getElem_or, BitVec.getElem_and]
      cases s.ifr_flags.toBitVec[i] <;> simp
    · exact Int16.or_self
  rw [Netif.up]
  dsimp only
  rw [hflags]

/-- Once the interface is down, what fails cannot be undone any more. -/
theorem switch_second_half
    (hrun : x s =
      ((raised ok s.ifr_flags s.lowered).1, (raised ok s.ifr_flags s.lowered).2.1,
        loweringSites s ++ (raised ok s.ifr_flags s.lowered).2.2))
    (hlower : ∀ site ∈ loweringSites s, ok site = true) :
    AllOrNothing ok x s ↔
      (¬ s.Up ∧ (ok .setMode = false ∨ s.mode = IW_MODE_MONITOR)) ∨
        (ok .setMode = true ∧ ok .upGetFlags = true ∧ ok .upSetFlags = true) := by
  have hdown := not_up_lowered s
  have hmode := lowered_mode s
  rw [raised] at hrun
  cases hset : ok .setMode
  · rw [hset, if_neg Bool.false_ne_true] at hrun
    rw [allOrNothing_failed (r := -1) hrun (by decide) ⟨.setMode, by simp, hset⟩]
    simp [hdown, hmode]
  rw [hset, if_pos rfl] at hrun
  have hdown' : ¬ ({ s.lowered with mode := IW_MODE_MONITOR } : Netif).Up := hdown
  have hcomm : IW_MODE_MONITOR = s.mode ↔ s.mode = IW_MODE_MONITOR := eq_comm
  cases hread : ok .upGetFlags
  · rw [hread, if_neg Bool.false_ne_true] at hrun
    rw [allOrNothing_failed (r := 255) hrun (by decide) ⟨.upGetFlags, by simp, hread⟩]
    simp [hdown', hcomm]
  rw [hread, if_pos rfl] at hrun
  cases hlast : ok .upSetFlags
  · rw [hlast, if_neg Bool.false_ne_true] at hrun
    rw [allOrNothing_failed (r := 255) hrun (by decide) ⟨.upSetFlags, by simp, hlast⟩]
    simp [hdown', hcomm]
  · rw [hlast, if_pos rfl, up_lowered] at hrun
    refine iff_of_true ⟨?_, fun _ => ?_, fun hne => ?_⟩ (Or.inr ⟨rfl, rfl, rfl⟩)
    · refine iff_of_true ?_ fun site hsite => ?_
      · rw [value, hrun]
        rfl
      · rw [events, hrun] at hsite
        rcases List.mem_append.mp hsite with hsite | hsite
        · exact hlower site hsite
        · simp only [List.mem_cons, List.not_mem_nil, or_false] at hsite
          rcases hsite with rfl | rfl | rfl
          · exact hset
          · exact hread
          · exact hlast
    · rw [final, hrun]
    · rw [value, hrun] at hne
      exact absurd rfl hne

/-- **When switching to monitor mode is all or nothing.** -/
theorem ifaceSeMonitorMode_iff (ok : IfaceIoctl → Bool) (sock_fd : Int) (hfd : 0 < sock_fd)
    (device : String) (s : Netif) :
    AllOrNothing ok (ifaceSeMonitorMode (netif ok) sock_fd (some device)) s ↔ Recoverable ok s := by
  have hrun := ifaceSeMonitorMode_eq ok device hfd s
  rw [Recoverable]
  cases hget : ok .getFlags
  · rw [hget, if_neg Bool.false_ne_true] at hrun
    rw [allOrNothing_failed hrun (by decide) ⟨_, List.mem_cons_self, hget⟩]
    exact iff_of_true ⟨Iff.rfl, rfl⟩ (Or.inl rfl)
  rw [hget, if_pos rfl] at hrun
  by_cases hneg : s.ifr_flags.toInt < 0
  · -- the one request succeeds, and the flags are taken for an error
    rw [if_pos hneg] at hrun
    refine iff_of_false (fun hall => ?_) fun h => ?_
    · have hval := hall.success.mpr fun site hsite => by
        rw [events, hrun, List.mem_singleton] at hsite
        rw [hsite, hget]
      rw [value, hrun] at hval
      exact absurd hval (show (-1 : Int) ≠ 0 by decide)
    · rcases h with h | h
      · exact absurd h (by decide)
      · omega
  rw [if_neg hneg] at hrun
  cases hread : ok .downGetFlags
  · rw [hread, if_neg Bool.false_ne_true] at hrun
    rw [allOrNothing_failed hrun (by decide) ⟨.downGetFlags, by simp, hread⟩]
    exact iff_of_true ⟨Iff.rfl, rfl⟩ (Or.inr ⟨by omega, Or.inl rfl⟩)
  rw [hread, if_pos rfl] at hrun
  by_cases hset : s.Up ∧ ok .downSetFlags = false
  · rw [if_pos hset] at hrun
    rw [allOrNothing_failed hrun (by decide) ⟨.downSetFlags, by simp, hset.2⟩]
    exact iff_of_true ⟨Iff.rfl, rfl⟩ (Or.inr ⟨by omega, Or.inr (Or.inl hset)⟩)
  rw [if_neg hset] at hrun
  have hlower : ∀ site ∈ loweringSites s, ok site = true := by
    intro site hsite
    rw [loweringSites] at hsite
    by_cases hup : s.Up
    · have hdownset : ok .downSetFlags = true := by simpa [hup] using hset
      simp only [hup, if_true, List.cons_append, List.nil_append, List.mem_cons, List.not_mem_nil,
        or_false] at hsite
      rcases hsite with rfl | rfl | rfl <;> assumption
    · simp only [hup, if_false, List.append_nil, List.mem_cons, List.not_mem_nil, or_false] at hsite
      rcases hsite with rfl | rfl <;> assumption
  rw [switch_second_half hrun hlower]
  constructor
  · exact fun h => Or.inr ⟨by omega, Or.inr (Or.inr h)⟩
  · rintro (h | ⟨-, h | h | h⟩)
    · cases h
    · cases h
    · exact absurd h hset
    · exact h

/-- An interface that is up and running, and managed. -/
def wlan0 : Netif := { ifr_flags := 0x1043, mode := 2 }

theorem ifaceSeMonitorMode_iff_wlan0 :
    AllOrNothing (fun _ => true) (ifaceSeMonitorMode (netif fun _ => true) 3 (some "wlan0"))
      wlan0 :=
  (ifaceSeMonitorMode_iff (fun _ => true) 3 (by decide) "wlan0" wlan0).mpr
    (Or.inr ⟨by decide, Or.inr (Or.inr (Or.inr ⟨rfl, rfl, rfl⟩))⟩)

/-- A driver that cannot switch to monitor mode loses the interface: it stays down. -/
theorem not_allOrNothing_wlan0 :
    ¬ ∀ (ok : IfaceIoctl → Bool) (sock_fd : Int) (device : String) (s : Netif), 0 < sock_fd →
      AllOrNothing ok (ifaceSeMonitorMode (netif ok) sock_fd (some device)) s := by
  intro h
  have hall := h (fun site => decide (site ≠ .setMode)) 3 "wlan0" wlan0 (by decide)
  have hdown := (hall.kept (by decide)).1
  exact absurd (hdown.mpr (by decide)) (by decide)

end Switch

end SmartConfig
