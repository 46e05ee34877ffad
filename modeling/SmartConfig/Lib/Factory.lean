import Mathlib.Logic.Function.Basic
import SmartConfig.Lib.PartialRun
import SmartConfig.Lib.Resource

/-!
# Objects that are made and given back

A program makes objects and gives them back, any number of them and in any order. Both take and
release resources that bear the number of the object, and making one can fail. `life_of_run`: what
the log of a whole run says about one number is the life of one object, and nothing of the others.
When the program has given everything back, that is the `history` of the object (`uses_of_run`,
`uses_of_made`).
-/

namespace Resource

/-- How objects are made from their arguments and given back, and the log of both; every line of it
bears the number of the object. -/
structure Factory (ρ γ ι : Type) where
  owner : ρ → Nat
  make : Nat → ι → List (Use ρ) × Option γ
  giveBack : Nat → γ → List (Use ρ)
  make_owner : ∀ n i, ∀ u ∈ (make n i).1, owner u.resource = n
  giveBack_owner : ∀ n c, ∀ u ∈ giveBack n c, owner u.resource = n

namespace Factory

variable {ρ γ ι : Type}

inductive Op (ι : Type) where
  | make (i : ι)
  | giveBack (n : Nat)

/-- The arguments of an object that is made. -/
def Op.made : Op ι → Option ι
  | .make i => some i
  | .giveBack _ => none

/-- The log, the arguments of the objects made so far, and the objects that the program has. -/
structure State (ρ γ ι : Type) where
  log : List (Use ρ)
  made : List ι
  live : Nat → Option γ

def start : State ρ γ ι where
  log := []
  made := []
  live _ := none

variable (F : Factory ρ γ ι)

/-- One operation. Only an object that the program has can be given back. -/
def step (w : State ρ γ ι) : Op ι → Option (State ρ γ ι)
  | .make i => some {
      log := w.log ++ (F.make w.made.length i).1
      made := w.made ++ [i]
      live := Function.update w.live w.made.length (F.make w.made.length i).2 }
  | .giveBack n => (w.live n).map fun c => { w with
      log := w.log ++ F.giveBack n c
      live := Function.update w.live n none }

def run (w : State ρ γ ι) (ops : List (Op ι)) : Option (State ρ γ ι) :=
  PartialRun.run F.step w ops

/-- The part of the log that is about object `n`. -/
def about (n : Nat) (log : List (Use ρ)) : List (Use ρ) :=
  log.filter fun u => F.owner u.resource = n

/-- What the log says about object `n`, made from the arguments if it is made, and had by the
program or not. -/
inductive Life (n : Nat) : Option ι → Option γ → List (Use ρ) → Prop where
  | unborn : Life n none none []
  | failed (i : ι) (h : (F.make n i).2 = none) : Life n (some i) none (F.make n i).1
  | live (i : ι) (c : γ) (h : (F.make n i).2 = some c) : Life n (some i) (some c) (F.make n i).1
  | returned (i : ι) (c : γ) (h : (F.make n i).2 = some c) :
      Life n (some i) none ((F.make n i).1 ++ F.giveBack n c)

/-- All that is ever logged about an object that is made from `i`, and given back if that
succeeds. -/
def history (n : Nat) (i : ι) : List (Use ρ) :=
  (F.make n i).1 ++ ((F.make n i).2.elim [] (F.giveBack n))

variable {F} {v w : State ρ γ ι}

theorem Life.of_unmade {n : Nat} {ctx : Option γ} {log : List (Use ρ)}
    (h : F.Life n none ctx log) : ctx = none ∧ log = [] := by
  cases h
  exact ⟨rfl, rfl⟩

theorem Life.of_live {n : Nat} {arg : Option ι} {c : γ} {log : List (Use ρ)}
    (h : F.Life n arg (some c) log) :
    ∃ i, arg = some i ∧ (F.make n i).2 = some c ∧ log = (F.make n i).1 := by
  cases h with
  | live i _ hmake => exact ⟨i, rfl, hmake, rfl⟩

/-- The log of an object that was made from `i` and is gone is its history. -/
theorem Life.of_gone {n : Nat} {i : ι} {log : List (Use ρ)} (h : F.Life n (some i) none log) :
    log = F.history n i := by
  cases h with
  | failed _ hmake =>
      rw [history, hmake]
      exact (List.append_nil _).symm
  | returned _ c hmake =>
      rw [history, hmake]
      rfl

theorem about_append (n : Nat) (log log' : List (Use ρ)) :
    F.about n (log ++ log') = F.about n log ++ F.about n log' := List.filter_append ..

theorem about_own {n : Nat} {log : List (Use ρ)} (h : ∀ u ∈ log, F.owner u.resource = n) :
    F.about n log = log := List.filter_eq_self.mpr fun u hu => decide_eq_true (h u hu)

theorem about_other {m n : Nat} {log : List (Use ρ)} (h : ∀ u ∈ log, F.owner u.resource = n)
    (hmn : m ≠ n) : F.about m log = [] :=
  List.filter_eq_nil_iff.mpr fun u hu hm => hmn ((of_decide_eq_true hm).symm.trans (h u hu))

/-- What happens to a resource is what happens to it in the life of its object. -/
theorem uses_about [DecidableEq ρ] (r : ρ) (log : List (Use ρ)) :
    uses r (F.about (F.owner r) log) = uses r log := by
  rw [uses, about, List.filter_filter, uses]
  refine List.filter_congr fun u _ => ?_
  by_cases hr : u.resource = r
  · simp [hr]
  · simp [hr]

/-- Every number has lived as the program has it. -/
def Alive (F : Factory ρ γ ι) (w : State ρ γ ι) : Prop :=
  ∀ n, F.Life n w.made[n]? (w.live n) (F.about n w.log)

theorem Alive.step (h : F.Alive v) {op : Op ι} (hstep : F.step v op = some w) : F.Alive w := by
  intro n
  cases op with
  | make i =>
      obtain rfl := Option.some.inj hstep
      have hown := F.make_owner v.made.length i
      rcases eq_or_ne n v.made.length with rfl | hn
      · -- the number is new
        have hlife := h v.made.length
        rw [List.getElem?_eq_none (Nat.le_refl _)] at hlife
        obtain ⟨-, hlog⟩ := hlife.of_unmade
        simp only [about_append, hlog, about_own hown, List.nil_append, List.getElem?_concat_length,
          Function.update_self]
        cases hmake : (F.make v.made.length i).2 with
        | none => exact .failed i hmake
        | some c => exact .live i c hmake
      · have hmade : (v.made ++ [i])[n]? = v.made[n]? := by
          rcases Nat.lt_or_gt_of_ne hn with hlt | hgt
          · rw [List.getElem?_append_left hlt]
          · rw [List.getElem?_eq_none (by simp; omega), List.getElem?_eq_none (by omega)]
        simp only [about_append, about_other hown hn, List.append_nil, hmade,
          Function.update_of_ne hn]
        exact h n
  | giveBack m =>
      obtain ⟨c, hc, rfl⟩ := Option.map_eq_some_iff.mp hstep
      have hown := F.giveBack_owner m c
      rcases eq_or_ne n m with rfl | hn
      · have hlife := h n
        rw [hc] at hlife
        obtain ⟨i, hmade, hmake, hlog⟩ := hlife.of_live
        simp only [about_append, about_own hown, Function.update_self, hmade, hlog]
        exact .returned i c hmake
      · simp only [about_append, about_other hown hn, List.append_nil, Function.update_of_ne hn]
        exact h n

theorem step_made {op : Op ι} (h : F.step v op = some w) :
    w.made = v.made ++ op.made.toList := by
  cases op with
  | make i =>
      obtain rfl := Option.some.inj h
      rfl
  | giveBack n =>
      obtain ⟨c, -, rfl⟩ := Option.map_eq_some_iff.mp h
      exact (List.append_nil _).symm

theorem run_made {ops : List (Op ι)} (h : F.run v ops = some w) :
    w.made = v.made ++ ops.filterMap Op.made := by
  induction ops generalizing v with
  | nil =>
      obtain rfl := Option.some.inj h
      exact (List.append_nil _).symm
  | cons op ops ih =>
      obtain ⟨u, hu, hrest⟩ := PartialRun.run_cons.mp h
      rw [ih hrest, step_made hu, List.append_assoc]
      cases op <;> rfl

/-- **The life of every object**, in any run. -/
theorem life_of_run {ops : List (Op ι)} (h : F.run start ops = some w) (n : Nat) :
    F.Life n (ops.filterMap Op.made)[n]? (w.live n) (F.about n w.log) := by
  have hmade : w.made = ops.filterMap Op.made := run_made h
  have halive : F.Alive w := PartialRun.run_inv (P := fun _ => True)
    (fun _ _ _ hv _ hstep => hv.step hstep) (fun _ => .unborn) (fun _ _ => trivial) h
  rw [← hmade]
  exact halive n

/-! ## When everything has been given back -/

section Gone

variable [DecidableEq ρ] {ops : List (Op ι)}

theorem mem_made {i : ι} : i ∈ ops.filterMap Op.made ↔ .make i ∈ ops := by
  rw [List.mem_filterMap]
  constructor
  · rintro ⟨op, hop, hmade⟩
    cases op with
    | make j =>
        obtain rfl := Option.some.inj hmade
        exact hop
    | giveBack n => cases hmade
  · exact fun h => ⟨.make i, h, rfl⟩

/-- A resource is unused, or its history is that of an object that was made. -/
theorem uses_of_run (hrun : F.run start ops = some w) (hdone : ∀ n, w.live n = none) (r : ρ) :
    Unused r w.log ∨ ∃ i, .make i ∈ ops ∧
      uses r w.log = uses r (F.history (F.owner r) i) := by
  have hlife := life_of_run hrun (F.owner r)
  rw [hdone] at hlife
  rw [Unused, ← uses_about (F := F) r w.log]
  cases hmade : (ops.filterMap Op.made)[F.owner r]? with
  | none =>
      rw [hmade] at hlife
      rw [hlife.of_unmade.2]
      exact .inl rfl
  | some i =>
      rw [hmade] at hlife
      exact .inr ⟨i, mem_made.mp (List.mem_of_getElem? hmade), by rw [hlife.of_gone]⟩

/-- The history of every object shows. -/
theorem uses_of_made (hrun : F.run start ops = some w) (hdone : ∀ n, w.live n = none) {i : ι}
    (hi : .make i ∈ ops) :
    ∃ n, ∀ r, F.owner r = n → uses r w.log = uses r (F.history n i) := by
  obtain ⟨n, hn⟩ := List.mem_iff_getElem?.mp (mem_made.mpr hi)
  have hlife := life_of_run hrun n
  rw [hdone, hn] at hlife
  refine ⟨n, fun r hr => ?_⟩
  rw [← hlife.of_gone, ← hr]
  exact (uses_about r w.log).symm

end Gone

end Factory

end Resource
