import Mathlib.Data.List.Basic
import SmartConfig.Lib.Traced

/-!
# Steps that are checked

A program in steps leaves at the first step that fails, and undoes nothing. Its plan is the steps in
order, each with whether it succeeds.

* `tried` — the steps of a plan up to the first that fails, which is one of them.
* `Follows` — a program that tries the steps of a plan, and succeeds if all of them do;
  `Follows.ask` puts a step before a program, and `Follows.bind` one program before another.
-/

namespace Steps

open Traced

variable {σ ε α ρ : Type}

/-- The steps that are tried. -/
def tried : List (ε × Bool) → List ε
  | [] => []
  | (e, true) :: plan => e :: tried plan
  | (e, false) :: _ => [e]

/-- All steps succeed. -/
def AllFine (plan : List (ε × Bool)) : Prop := ∀ step ∈ plan, step.2 = true

section Plans

variable {plan plan' : List (ε × Bool)} {e : ε} {fine : Bool}

theorem allFine_nil : AllFine (ε := ε) [] := fun _ h => absurd h List.not_mem_nil

theorem allFine_cons : AllFine ((e, fine) :: plan) ↔ fine = true ∧ AllFine plan :=
  List.forall_mem_cons

theorem allFine_append : AllFine (plan ++ plan') ↔ AllFine plan ∧ AllFine plan' :=
  List.forall_mem_append

/-- A plan without a failure is tried to its end. -/
theorem tried_append (h : AllFine plan) :
    tried (plan ++ plan') = plan.map (·.1) ++ tried plan' := by
  induction plan with
  | nil => rfl
  | cons step plan ih =>
      obtain ⟨e, fine⟩ := step
      obtain ⟨rfl, hplan⟩ := allFine_cons.mp h
      rw [List.cons_append, tried, ih hplan]
      rfl

theorem tried_of_allFine (h : AllFine plan) : tried plan = plan.map (·.1) := by
  have happend : tried (plan ++ []) = plan.map (·.1) ++ tried [] := tried_append h
  rw [List.append_nil, tried, List.append_nil] at happend
  exact happend

/-- Nothing is tried behind a failure. -/
theorem tried_append_of_not (h : ¬ AllFine plan) : tried (plan ++ plan') = tried plan := by
  induction plan with
  | nil => exact absurd allFine_nil h
  | cons step plan ih =>
      obtain ⟨e, fine⟩ := step
      cases fine with
      | false => rfl
      | true =>
          rw [List.cons_append, tried, tried, ih fun hplan => h (allFine_cons.mpr ⟨rfl, hplan⟩)]

theorem mem_of_mem_tried (h : e ∈ tried plan) : ∃ fine, (e, fine) ∈ plan := by
  induction plan using tried.induct with
  | case1 => exact absurd h List.not_mem_nil
  | case2 e' plan ih =>
      rcases List.mem_cons.mp h with rfl | hmem
      · exact ⟨true, List.mem_cons_self⟩
      · obtain ⟨fine, hfine⟩ := ih hmem
        exact ⟨fine, List.mem_cons_of_mem _ hfine⟩
  | case3 e' plan =>
      obtain rfl := List.mem_singleton.mp h
      exact ⟨false, List.mem_cons_self⟩

end Plans

/-! ## Programs -/

/-- The program tries the steps of the plan, and its result is a success, in the sense of `done`, if
and only if all of them are fine. -/
structure Follows (done : ρ → Prop) (x : Traced σ ε ρ) (plan : List (ε × Bool)) : Prop where
  done_iff : ∀ s, done (x.value s) ↔ AllFine plan
  events_eq : ∀ s, x.events s = tried plan

section Follows

variable {done : α → Prop} {done' : ρ → Prop} {x : Traced σ ε α} {f : α → Traced σ ε ρ}
  {p q : List (ε × Bool)}

theorem Follows.pure {a : α} (h : done a) : Follows done (pure a : Traced σ ε α) [] :=
  ⟨fun _ => iff_of_true h allFine_nil, fun _ => rfl⟩

/-- One program before another, where that leaves at once after a failure. -/
theorem Follows.bind (hx : Follows done x p)
    (hdone : ∀ s, done (x.value s) → Follows done' (f (x.value s)) q)
    (hfailed : ∀ s, ¬ done (x.value s) → ∃ r, f (x.value s) = Pure.pure r ∧ ¬ done' r) :
    Follows done' (x >>= f) (p ++ q) := by
  refine ⟨fun s => ?_, fun s => ?_⟩
  · rw [allFine_append, ← hx.done_iff s]
    by_cases h : done (x.value s)
    · rw [and_iff_right h]
      exact (hdone s h).done_iff _
    · obtain ⟨r, hf, hr⟩ := hfailed s h
      refine iff_of_false (fun hvalue => hr ?_) fun hall => h hall.1
      have hrun : (x >>= f).value s = r := by
        show (f (x.value s)).value (x.final s) = r
        rw [hf]
        rfl
      rwa [hrun] at hvalue
  · rw [events_bind, hx.events_eq]
    by_cases h : done (x.value s)
    · have hp := (hx.done_iff s).mp h
      rw [(hdone s h).events_eq, tried_append hp, tried_of_allFine hp]
    · obtain ⟨r, hf, -⟩ := hfailed s h
      rw [hf, tried_append_of_not fun hp => h ((hx.done_iff s).mpr hp)]
      exact List.append_nil _

/-- A step, which gives `a` and is noted, before a program. -/
theorem Follows.ask {a : α} {e : ε} {fine : Bool} (hx : ∀ s, x s = (a, s, [e]))
    (hdone : fine = true → Follows done' (f a) q)
    (hfailed : fine = false → ∃ r, f a = Pure.pure r ∧ ¬ done' r) :
    Follows done' (x >>= f) ((e, fine) :: q) := by
  have hvalue : ∀ s, x.value s = a := fun s => congrArg Prod.fst (hx s)
  have hstep : Follows (fun _ => fine = true) x [(e, fine)] := by
    refine ⟨fun s => ?_, fun s => ?_⟩
    · rw [allFine_cons, and_iff_left allFine_nil]
    · rw [events, hx]
      cases fine <;> rfl
  refine hstep.bind (fun s h => ?_) fun s h => ?_
  · rw [hvalue s]
    exact hdone h
  · rw [hvalue s]
    exact hfailed (eq_false_of_ne_true h)

/-- The result in another form. -/
theorem Follows.map {g : α → ρ} (hx : Follows (fun a => done' (g a)) x p) :
    Follows done' (x >>= fun a => Pure.pure (g a)) p := by
  refine ⟨fun s => hx.done_iff s, fun s => ?_⟩
  rw [events_bind, hx.events_eq]
  exact List.append_nil _

end Follows

end Steps
