/-!
# Runs of a machine that may refuse an input

A step function `σ → ι → Option σ` says where an input leads, or that it is not allowed there. A run
is allowed when every step of it is.

* `run_cons`, `run_append` — a run is its steps, in order.
* `run_inv` — an invariant of one step is an invariant of every run.
* `run_inv_count` — the same with a counter of one of the inputs.
* `run_length_le` — a rank that every step lowers bounds the length of a run.
* `guarded` — the same machine without the steps out of a property; `run_of_guarded`,
  `guarded_of_run`.
-/

namespace PartialRun

universe u v

variable {σ : Type u} {ι : Type v}

/-- The state after the inputs, if all of them are allowed. -/
def run (step : σ → ι → Option σ) (s : σ) (is : List ι) : Option σ := is.foldlM step s

variable {step : σ → ι → Option σ} {s t : σ}

theorem run_cons {i : ι} {is : List ι} :
    run step s (i :: is) = some t ↔ ∃ u, step s i = some u ∧ run step u is = some t := by
  rw [run, List.foldlM_cons]
  exact Option.bind_eq_some_iff

theorem run_append {is js : List ι} :
    run step s (is ++ js) = some t ↔ ∃ u, run step s is = some u ∧ run step u js = some t := by
  rw [run, List.foldlM_append]
  exact Option.bind_eq_some_iff

/-- What one step on an input in `P` preserves holds after every run on such inputs. -/
theorem run_inv {I : σ → Prop} {P : ι → Prop}
    (hstep : ∀ s i t, I s → P i → step s i = some t → I t) {is : List ι} (hs : I s)
    (hP : ∀ i ∈ is, P i) (hrun : run step s is = some t) : I t := by
  induction is generalizing s with
  | nil => exact Option.some.inj hrun ▸ hs
  | cons i is ih =>
      obtain ⟨u, hu, hrest⟩ := run_cons.mp hrun
      have hnext := hstep s i u hs (hP i List.mem_cons_self) hu
      exact ih hnext (fun j hj => hP j (List.mem_cons_of_mem i hj)) hrest

/-- An invariant may speak of how often the input `i` has come so far. -/
theorem run_inv_count [DecidableEq ι] {I : Nat → σ → Prop} {i : ι}
    (hstep : ∀ n s j t, I n s → step s j = some t → I (if j = i then n + 1 else n) t)
    {is : List ι} (n : Nat) (hs : I n s) (hrun : run step s is = some t) :
    I (n + is.count i) t := by
  induction is generalizing s n with
  | nil => exact Option.some.inj hrun ▸ hs
  | cons j is ih =>
      obtain ⟨u, hu, hrest⟩ := run_cons.mp hrun
      have hnext := hstep n s j u hs hu
      by_cases hj : j = i
      · rw [if_pos hj] at hnext
        have hcount : n + (j :: is).count i = n + 1 + is.count i := by
          rw [hj, List.count_cons_self]
          omega
        rw [hcount]
        exact ih (n + 1) hnext hrest
      · rw [if_neg hj] at hnext
        rw [List.count_cons_of_ne hj]
        exact ih n hnext hrest

/-- Where every step out of `I` stays in `I` and lowers the rank, a run is no longer than the rank
it uses up. -/
theorem run_length_le {I : σ → Prop} {rank : σ → Nat}
    (hstep : ∀ s i t, I s → step s i = some t → I t ∧ rank t < rank s) {is : List ι} (hs : I s)
    (hrun : run step s is = some t) : I t ∧ is.length + rank t ≤ rank s := by
  induction is generalizing s with
  | nil =>
      obtain rfl := Option.some.inj hrun
      exact ⟨hs, by rw [List.length_nil]; omega⟩
  | cons i is ih =>
      obtain ⟨u, hu, hrest⟩ := run_cons.mp hrun
      obtain ⟨hnext, hlower⟩ := hstep s i u hs hu
      obtain ⟨hend, hlength⟩ := ih hnext hrest
      exact ⟨hend, by rw [List.length_cons]; omega⟩

/-- The machine that also refuses what leads out of `P`. -/
def guarded (step : σ → ι → Option σ) (P : σ → Prop) [DecidablePred P] (s : σ) (i : ι) :
    Option σ :=
  (step s i).filter fun t => P t

section Guarded

variable {P : σ → Prop} [DecidablePred P]

theorem guarded_eq_some {i : ι} : guarded step P s i = some t ↔ step s i = some t ∧ P t := by
  rw [guarded, Option.filter_eq_some_iff, decide_eq_true_iff]

theorem run_of_guarded {is : List ι} (hrun : run (guarded step P) s is = some t) :
    run step s is = some t := by
  induction is generalizing s with
  | nil => exact hrun
  | cons i is ih =>
      obtain ⟨u, hu, hrest⟩ := run_cons.mp hrun
      exact run_cons.mpr ⟨u, (guarded_eq_some.mp hu).1, ih hrest⟩

/-- Where no run leads out of `P`, nothing more is refused. -/
theorem guarded_of_run (hP : ∀ js t, run step s js = some t → P t) {is : List ι}
    (hrun : run step s is = some t) : run (guarded step P) s is = some t := by
  induction is generalizing s with
  | nil => exact hrun
  | cons i is ih =>
      obtain ⟨u, hu, hrest⟩ := run_cons.mp hrun
      have hPu : P u := hP [i] u (run_cons.mpr ⟨u, hu, rfl⟩)
      refine run_cons.mpr ⟨u, guarded_eq_some.mpr ⟨hu, hPu⟩, ih (fun js v hv => ?_) hrest⟩
      exact hP (i :: js) v (run_cons.mpr ⟨u, hu, hv⟩)

end Guarded

end PartialRun
