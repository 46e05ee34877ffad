import Mathlib.Data.List.Forall2

/-!
# Runs of a Mealy machine

A step function `σ → ι → σ × Option ω` read as a program that takes one input at a time, keeps a
state and sometimes calls out. `run` feeds it a list of inputs and collects the calls in order.

* `run_append`, `run_concat` — composing runs.
* `run_inv` — an invariant of one step is an invariant of every run.
* `run_rel` — a relation between two machines that one step preserves lifts to their runs.
* `run_silent` — a block of inputs that keeps an invariant and calls nothing can be repeated.
* `run_fixed` — a state that no input moves.
* `exists_first` — the input at which a run calls for the first time.
* `run_filterMap` — a machine that hands some of its inputs to another one, and ignores the rest,
  runs as that one does.
-/

namespace Mealy

variable {σ τ ι κ ω ω' : Type*}

/-- The state after the inputs, and the calls made on the way. -/
def run (step : σ → ι → σ × Option ω) : σ → List ι → σ × List ω
  | s, [] => (s, [])
  | s, i :: is =>
    ((run step (step s i).1 is).1, (step s i).2.toList ++ (run step (step s i).1 is).2)

variable {step : σ → ι → σ × Option ω}

@[simp] theorem run_nil (s : σ) : run step s [] = (s, []) := rfl

@[simp] theorem run_cons (s : σ) (i : ι) (is : List ι) :
    run step s (i :: is) =
      ((run step (step s i).1 is).1, (step s i).2.toList ++ (run step (step s i).1 is).2) := rfl

theorem run_append (s : σ) (is js : List ι) :
    run step s (is ++ js) =
      ((run step (run step s is).1 js).1,
        (run step s is).2 ++ (run step (run step s is).1 js).2) := by
  induction is generalizing s with
  | nil => rfl
  | cons i is ih => simp [ih, List.append_assoc]

theorem run_concat (s : σ) (is : List ι) (i : ι) :
    run step s (is ++ [i]) =
      ((step (run step s is).1 i).1, (run step s is).2 ++ (step (run step s is).1 i).2.toList) := by
  simp [run_append]

/-- An invariant of one step on the inputs in `P` holds after every run on such inputs. -/
theorem run_inv {I : σ → Prop} {P : ι → Prop}
    (hstep : ∀ s i, I s → P i → I (step s i).1) :
    ∀ (is : List ι) (s : σ), I s → (∀ i ∈ is, P i) → I (run step s is).1
  | [], _, hs, _ => hs
  | i :: is, s, hs, hP =>
    run_inv hstep is _ (hstep s i hs (hP i (by simp))) fun j hj => hP j (by simp [hj])

/-- Related calls, as lists of at most one call. -/
theorem rel_toList {O : ω → ω' → Prop} {o : Option ω} {o' : Option ω'} (h : Option.Rel O o o') :
    List.Forall₂ O o.toList o'.toList := by
  cases h with
  | none => exact .nil
  | some h => exact .cons h .nil

/-- Two machines that stay related on related inputs, with related calls. -/
theorem run_rel {step' : τ → κ → τ × Option ω'} {R : σ → τ → Prop} {I : ι → κ → Prop}
    {O : ω → ω' → Prop}
    (hstep : ∀ s t i j, R s t → I i j →
      R (step s i).1 (step' t j).1 ∧ Option.Rel O (step s i).2 (step' t j).2)
    {is : List ι} {js : List κ} (hin : List.Forall₂ I is js) :
    ∀ {s : σ} {t : τ}, R s t →
      R (run step s is).1 (run step' t js).1 ∧
        List.Forall₂ O (run step s is).2 (run step' t js).2 := by
  induction hin with
  | nil =>
      intro s t h
      exact ⟨h, .nil⟩
  | @cons i j is js hij _ ih =>
      intro s t h
      obtain ⟨hR, ho⟩ := hstep s t i j h hij
      obtain ⟨hR', hos⟩ := ih hR
      exact ⟨hR', List.rel_append (rel_toList ho) hos⟩

/-- A block of inputs that calls nothing on the states in `I`, and stays there, calls nothing
however often it is repeated. -/
theorem run_silent {I : σ → Prop} {block : List ι}
    (hblock : ∀ s, I s → I (run step s block).1 ∧ (run step s block).2 = []) (k : Nat) (s : σ)
    (hs : I s) : (run step s (List.replicate k block).flatten).2 = [] := by
  induction k generalizing s with
  | zero => rfl
  | succ k ih =>
      obtain ⟨hinv, hnone⟩ := hblock s hs
      rw [List.replicate_succ, List.flatten_cons, run_append, hnone, ih _ hinv]
      rfl

/-- A state that none of the inputs moves. -/
theorem run_fixed {s : σ} {is : List ι} (h : ∀ i ∈ is, step s i = (s, none)) :
    run step s is = (s, []) := by
  induction is with
  | nil => rfl
  | cons i is ih =>
      obtain ⟨hi, his⟩ := List.forall_mem_cons.mp h
      rw [run_cons, hi, ih his]
      rfl

/-- The input at which a run calls for the first time. -/
theorem exists_first {s : σ} {is : List ι} {o : ω} {os : List ω}
    (h : (run step s is).2 = o :: os) :
    ∃ js i ks, is = js ++ i :: ks ∧ (run step s js).2 = [] ∧
      (step (run step s js).1 i).2 = some o := by
  induction is generalizing s with
  | nil => cases h
  | cons i is ih =>
      rw [run_cons] at h
      cases hstep : (step s i).2 with
      | none =>
          rw [hstep] at h
          obtain ⟨js, j, ks, rfl, hquiet, hcall⟩ := ih h
          refine ⟨i :: js, j, ks, rfl, ?_, hcall⟩
          rw [run_cons, hstep, hquiet]
          rfl
      | some o' =>
          rw [hstep] at h
          obtain ⟨rfl, -⟩ := List.cons.inj h
          exact ⟨[], i, is, rfl, rfl, hstep⟩

/-- A machine behind a filter: if an input either stands for an input of the second machine, and
both do the same, or stands for none, and nothing happens, then a run is the run of the second
machine on the inputs that are stood for. -/
theorem run_filterMap {step' : τ → κ → τ × Option ω} {R : τ → σ → Prop} {g : κ → Option ι}
    (hkeep : ∀ t s k i, R t s → g k = some i →
      R (step' t k).1 (step s i).1 ∧ (step' t k).2 = (step s i).2)
    (hdrop : ∀ t s k, R t s → g k = none → R (step' t k).1 s ∧ (step' t k).2 = none) :
    ∀ (ks : List κ) {t : τ} {s : σ}, R t s →
      R (run step' t ks).1 (run step s (ks.filterMap g)).1 ∧
        (run step' t ks).2 = (run step s (ks.filterMap g)).2
  | [], _, _, h => ⟨h, rfl⟩
  | k :: ks, t, s, h => by
    cases hk : g k with
    | some i =>
        obtain ⟨hR, ho⟩ := hkeep t s k i h hk
        obtain ⟨hR', ho'⟩ := run_filterMap hkeep hdrop ks hR
        rw [List.filterMap_cons_some hk]
        exact ⟨hR', by rw [run_cons, run_cons, ho, ho']⟩
    | none =>
        obtain ⟨hR, ho⟩ := hdrop t s k h hk
        obtain ⟨hR', ho'⟩ := run_filterMap hkeep hdrop ks hR
        rw [List.filterMap_cons_none hk]
        exact ⟨hR', by rw [run_cons, ho, ho']; rfl⟩

end Mealy
