import Mathlib.Logic.Function.Basic
import Mathlib.Logic.Relation
import SmartConfig.Lib.PartialRun

/-!
# Calls that hold one lock

Any number of calls, each of which takes the same lock once, runs a program of small steps on a
shared state, and gives the lock back. The program may emit something at each step. Nothing but the
lock keeps a call from moving.

* `owner_of_inside` — mutual exclusion, from the lock alone.
* `move` — the steps of one call as a function, so that a schedule can be run
  (`reachable_of_run`).
-/

/-- The programs between lock and unlock: where call `i` enters, and one step of it; `none` when
there is nothing left to do but to unlock. -/
structure CriticalSection (ι σ κ ω : Type*) where
  enter : ι → κ
  step : ι → κ → σ → Option (κ × σ × Option ω)

namespace CriticalSection

variable {ι σ κ ω : Type*}

/-- Where a call is. -/
inductive Phase (κ : Type*) where
  | waiting : Phase κ
  | inside (l : κ) : Phase κ
  | done : Phase κ
  deriving DecidableEq

/-- All calls, the lock, the shared state, and what has been emitted. -/
structure State (ι σ κ ω : Type*) where
  phase : ι → Phase κ
  owner : Option ι
  shared : σ
  out : List ω

/-- Nobody has started. -/
def State.init (s : σ) : State ι σ κ ω where
  phase _ := .waiting
  owner := none
  shared := s
  out := []

variable {s : State ι σ κ ω}

/-- The lock belongs to the call that is inside. -/
def Exclusive (s : State ι σ κ ω) : Prop := ∀ i l, s.phase i = .inside l → s.owner = some i

theorem Exclusive.unique (h : Exclusive s) {i j : ι} {l m : κ} (hi : s.phase i = .inside l)
    (hj : s.phase j = .inside m) : j = i :=
  Option.some.inj ((h j m hj).symm.trans (h i l hi))

variable [DecidableEq ι] (C : CriticalSection ι σ κ ω)

/-- One step of one call. -/
inductive Step : State ι σ κ ω → State ι σ κ ω → Prop where
  | lock {s : State ι σ κ ω} (i : ι) (hphase : s.phase i = .waiting) (howner : s.owner = none) :
      Step s { s with phase := Function.update s.phase i (.inside (C.enter i)), owner := some i }
  | body {s : State ι σ κ ω} (i : ι) (l l' : κ) (t : σ) (o : Option ω)
      (hphase : s.phase i = .inside l) (hstep : C.step i l s.shared = some (l', t, o)) :
      Step s { s with
        phase := Function.update s.phase i (.inside l'), shared := t, out := s.out ++ o.toList }
  | unlock {s : State ι σ κ ω} (i : ι) (l : κ) (hphase : s.phase i = .inside l)
      (hstep : C.step i l s.shared = none) :
      Step s { s with phase := Function.update s.phase i .done, owner := none }

/-- The states that some interleaving of the calls leads to. -/
def Reachable (s₀ : σ) (s : State ι σ κ ω) : Prop := Relation.ReflTransGen C.Step (.init s₀) s

/-- The step that call `i` has from a state, if it has one. -/
def move (s : State ι σ κ ω) (i : ι) : Option (State ι σ κ ω) :=
  match s.phase i with
  | .waiting =>
    if s.owner = none then
      some { s with phase := Function.update s.phase i (.inside (C.enter i)), owner := some i }
    else none
  | .inside l =>
    match C.step i l s.shared with
    | some (l', t, o) =>
      some { s with
        phase := Function.update s.phase i (.inside l'), shared := t, out := s.out ++ o.toList }
    | none => some { s with phase := Function.update s.phase i .done, owner := none }
  | .done => none

variable {C} {s₀ : σ}

theorem step_of_move {t : State ι σ κ ω} {i : ι} (h : C.move s i = some t) : C.Step s t := by
  rw [move] at h
  split at h
  · next hphase =>
    split at h
    · next howner =>
      cases h
      exact .lock i hphase howner
    · cases h
  · next l hphase =>
    split at h
    · next l' u o hstep =>
      cases h
      exact .body i l l' u o hphase hstep
    · next hstep =>
      cases h
      exact .unlock i l hphase hstep
  · cases h

/-- A schedule says whose move is next. -/
theorem reachable_of_run {schedule : List ι}
    (h : PartialRun.run C.move (State.init s₀) schedule = some s) : C.Reachable s₀ s :=
  PartialRun.run_inv (I := C.Reachable s₀) (P := fun _ => True)
    (fun _ _ _ hs _ hmove => hs.tail (step_of_move hmove)) .refl (fun _ _ => trivial) h

/-! ## Mutual exclusion -/

theorem Exclusive.step {t : State ι σ κ ω} (h : Exclusive s) (hstep : C.Step s t) :
    Exclusive t := by
  intro j m hj
  cases hstep with
  | lock i hphase howner =>
      rcases eq_or_ne j i with rfl | hji
      · rfl
      · simp only [Function.update_of_ne hji] at hj
        rw [h j m hj] at howner
        cases howner
  | body i l l' u o hphase hbody =>
      rcases eq_or_ne j i with rfl | hji
      · exact h j l hphase
      · simp only [Function.update_of_ne hji] at hj
        exact h j m hj
  | unlock i l hphase hbody =>
      rcases eq_or_ne j i with rfl | hji
      · simp only [Function.update_self] at hj
        cases hj
      · simp only [Function.update_of_ne hji] at hj
        exact absurd (h.unique hphase hj) hji

theorem owner_of_inside (h : C.Reachable s₀ s) : Exclusive s := by
  induction h with
  | refl => intro i l hi; cases hi
  | tail _ hstep ih => exact ih.step hstep

theorem inside_of_owner (h : C.Reachable s₀ s) :
    ∀ i, s.owner = some i → ∃ l, s.phase i = .inside l := by
  induction h with
  | refl => intro i hi; cases hi
  | tail _ hstep ih =>
      intro j hj
      cases hstep with
      | lock i hphase howner =>
          cases hj
          exact ⟨_, Function.update_self ..⟩
      | body i l l' u o hphase hbody =>
          obtain ⟨m, hm⟩ := ih j hj
          rcases eq_or_ne j i with rfl | hji
          · exact ⟨l', Function.update_self ..⟩
          · exact ⟨m, (Function.update_of_ne hji ..).trans hm⟩
      | unlock i l hphase hbody => cases hj

end CriticalSection
