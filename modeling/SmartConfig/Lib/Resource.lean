import Mathlib.Data.List.Count

/-!
# Taking resources and giving them back

A program that takes resources and gives them back leaves a log. Resources are named afresh each
time one is taken: memory that is allocated, freed and allocated again has two names.

* `ReleasesHeld` — nothing is given back that is not held at that moment.
* `ReleasedOnce` — what was taken is given back exactly once.

Both depend on the part of the log that is about the resource, `uses`; whoever else takes and gives
back other resources in between does not matter.
-/

namespace Resource

variable {ρ : Type*}

/-- One line of the log. -/
inductive Use (ρ : Type*) where
  | acquire (r : ρ)
  | release (r : ρ)
  deriving DecidableEq

/-- What the line is about. -/
def Use.resource : Use ρ → ρ
  | .acquire r => r
  | .release r => r

/-- Taken and not given back yet. -/
def Held (r : ρ) (log : List (Use ρ)) : Prop := .acquire r ∈ log ∧ .release r ∉ log

/-- Whenever `r` is given back, it is held. -/
def ReleasesHeld (r : ρ) (log : List (Use ρ)) : Prop :=
  ∀ before after, log = before ++ .release r :: after → Held r before

/-- Giving back what was never taken. -/
theorem not_releasesHeld {r : ρ} {before after : List (Use ρ)} (h : .acquire r ∉ before) :
    ¬ ReleasesHeld r (before ++ .release r :: after) :=
  fun hheld => h (hheld before after rfl).1

variable [DecidableEq ρ]

/-- If `r` was taken, it is given back exactly once. -/
def ReleasedOnce (r : ρ) (log : List (Use ρ)) : Prop :=
  .acquire r ∈ log → log.count (.release r) = 1

/-- The part of the log that is about `r`. -/
def uses (r : ρ) (log : List (Use ρ)) : List (Use ρ) := log.filter (·.resource = r)

theorem uses_append (r : ρ) (log log' : List (Use ρ)) :
    uses r (log ++ log') = uses r log ++ uses r log' := List.filter_append ..

theorem acquire_mem_uses {r : ρ} {log : List (Use ρ)} :
    .acquire r ∈ uses r log ↔ .acquire r ∈ log := by
  rw [uses, List.mem_filter]
  exact and_iff_left (decide_eq_true rfl)

theorem release_mem_uses {r : ρ} {log : List (Use ρ)} :
    .release r ∈ uses r log ↔ .release r ∈ log := by
  rw [uses, List.mem_filter]
  exact and_iff_left (decide_eq_true rfl)

theorem count_release_uses (r : ρ) (log : List (Use ρ)) :
    (uses r log).count (.release r) = log.count (.release r) :=
  List.count_filter (decide_eq_true rfl)

/-! ## The life of one resource -/

def Unused (r : ρ) (log : List (Use ρ)) : Prop := uses r log = []

def Taken (r : ρ) (log : List (Use ρ)) : Prop := uses r log = [.acquire r]

def Returned (r : ρ) (log : List (Use ρ)) : Prop := uses r log = [.acquire r, .release r]

variable {r : ρ} {log log' : List (Use ρ)}

theorem Unused.take (h : Unused r log) (h' : uses r log' = [.acquire r]) :
    Taken r (log ++ log') := by
  rw [Taken, uses_append, h, h']
  rfl

theorem Taken.return (h : Taken r log) (h' : uses r log' = [.release r]) :
    Returned r (log ++ log') := by
  rw [Returned, uses_append, h, h']
  rfl

theorem Unused.releasesHeld (h : Unused r log) : ReleasesHeld r log := by
  rintro before after rfl
  have hmem : Use.release r ∈ uses r (before ++ .release r :: after) :=
    release_mem_uses.mpr (List.mem_append_right _ List.mem_cons_self)
  rw [h] at hmem
  exact absurd hmem List.not_mem_nil

theorem Unused.releasedOnce (h : Unused r log) : ReleasedOnce r log := by
  intro hmem
  rw [← acquire_mem_uses, h] at hmem
  exact absurd hmem List.not_mem_nil

/-- Before it is given back, a returned resource has only been taken. -/
theorem Returned.releasesHeld (h : Returned r log) : ReleasesHeld r log := by
  rintro before after rfl
  have hsplit : uses r before ++ .release r :: uses r after = [.acquire r, .release r] := by
    have hrest : uses r (.release r :: after) = .release r :: uses r after :=
      List.filter_cons_of_pos (decide_eq_true rfl)
    rw [← hrest, ← uses_append]
    exact h
  -- what has happened to it before is nothing, the taking, or too much
  match hbefore : uses r before with
  | [] =>
    rw [hbefore] at hsplit
    cases hsplit
  | [u] =>
    rw [hbefore] at hsplit
    obtain ⟨rfl, -⟩ := List.cons.inj hsplit
    constructor
    · rw [← acquire_mem_uses, hbefore]
      exact List.mem_singleton_self _
    · rw [← release_mem_uses, hbefore]
      simp
  | u :: v :: rest =>
    rw [hbefore] at hsplit
    have hlen := congrArg List.length hsplit
    simp at hlen

theorem Returned.releasedOnce (h : Returned r log) : ReleasedOnce r log := by
  intro _
  rw [← count_release_uses, h]
  simp

/-! ## Lives that go wrong -/

theorem Taken.not_releasedOnce (h : Taken r log) : ¬ ReleasedOnce r log := by
  intro honce
  have hmem : .acquire r ∈ log := by
    rw [← acquire_mem_uses, h]
    exact List.mem_singleton_self _
  have hcount := honce hmem
  rw [← count_release_uses, h] at hcount
  simp at hcount

/-- What is never given back is never given back too early. -/
theorem Taken.releasesHeld (h : Taken r log) : ReleasesHeld r log := by
  rintro before after rfl
  have hmem : .release r ∈ uses r (before ++ .release r :: after) :=
    release_mem_uses.mpr (List.mem_append_right _ List.mem_cons_self)
  rw [h] at hmem
  simp at hmem

/-- What is given back only was not held. -/
theorem not_releasesHeld_of_uses (h : uses r log = [.release r]) : ¬ ReleasesHeld r log := by
  have hmem : .release r ∈ log := by
    rw [← release_mem_uses, h]
    exact List.mem_singleton_self _
  obtain ⟨before, after, rfl⟩ := List.append_of_mem hmem
  refine not_releasesHeld fun hacquire => ?_
  have hacquire : .acquire r ∈ uses r (before ++ .release r :: after) :=
    acquire_mem_uses.mpr (List.mem_append_left _ hacquire)
  rw [h] at hacquire
  simp at hacquire

theorem releasedOnce_of_uses (h : uses r log = [.release r]) : ReleasedOnce r log := by
  intro hmem
  rw [← acquire_mem_uses, h] at hmem
  simp at hmem

end Resource
