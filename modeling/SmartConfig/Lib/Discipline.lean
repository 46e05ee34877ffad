import SmartConfig.Lib.Traced

/-!
# Disciplines

A discipline says what a traced program may do: the states it keeps to, where it may go from a
state, and what it may note on the way. Programs that keep to a discipline compose, so that a
program of any length keeps to it when its parts do.

* `Discipline.Keeps` — a program keeps to the discipline, from every state in it.
* `Keeps.bind`, `Keeps.note_bind`, `keeps_runAll` — composing them.
-/

/-- The states to keep to, the moves between them, and the events allowed from a state on. -/
structure Discipline (σ ε : Type) where
  inv : σ → Prop
  move : σ → σ → Prop
  allows : σ → ε → Prop
  refl : ∀ s, move s s
  trans : ∀ {s t u}, move s t → move t u → move s u
  /-- What is allowed later is allowed from the start. -/
  mono : ∀ {s t e}, move s t → allows t e → allows s e

namespace Discipline

open Traced

variable {σ ε α β : Type} (D : Discipline σ ε)

/-- From every state of the discipline, `x` stays in it, makes an allowed move and notes allowed
events. -/
structure Keeps (x : Traced σ ε α) : Prop where
  inv : ∀ {s}, D.inv s → D.inv (x.final s)
  move : ∀ {s}, D.inv s → D.move s (x.final s)
  emits : ∀ {s}, D.inv s → Emits (D.allows s) x s

variable {D}

theorem keeps_pure (a : α) : D.Keeps (pure a : Traced σ ε α) where
  inv h := h
  move _ := D.refl _
  emits _ := emits_pure a _

theorem keeps_note {f : σ → List ε} (h : ∀ s, D.inv s → ∀ e ∈ f s, D.allows s e) :
    D.Keeps (note f) where
  inv h := h
  move _ := D.refl _
  emits hs := emits_note (h _ hs)

/-- A note that depends on the state. -/
theorem keeps_note_ite {c : σ → Prop} [DecidablePred c] {f g : σ → List ε}
    (hf : ∀ s, D.inv s → c s → ∀ e ∈ f s, D.allows s e)
    (hg : ∀ s, D.inv s → ¬ c s → ∀ e ∈ g s, D.allows s e) :
    D.Keeps (note fun s => if c s then f s else g s) := by
  refine keeps_note fun s hs e he => ?_
  split at he
  · next hc => exact hf s hs hc e he
  · next hc => exact hg s hs hc e he

/-- A plain program notes nothing. -/
theorem keeps_lift {y : StateM σ α}
    (h : ∀ s, D.inv s → D.inv (y s).2 ∧ D.move s (y s).2) :
    D.Keeps (lift y : Traced σ ε α) where
  inv hs := (h _ hs).1
  move hs := (h _ hs).2
  emits _ := emits_lift y _

theorem Keeps.bind {x : Traced σ ε α} (hx : D.Keeps x) {f : α → Traced σ ε β}
    (hf : ∀ a, D.Keeps (f a)) : D.Keeps (x >>= f) where
  inv h := (hf _).inv (hx.inv h)
  move h := D.trans (hx.move h) ((hf _).move (hx.inv h))
  emits h := (hx.emits h).bind (((hf _).emits (hx.inv h)).mono fun _ => D.mono (hx.move h))

/-- A program that does, from each state, what some program of the discipline does from there. -/
theorem keeps_of_agree {x : Traced σ ε α}
    (h : ∀ s, D.inv s → ∃ y : Traced σ ε α, D.Keeps y ∧ x s = y s) : D.Keeps x := by
  refine ⟨fun {s} hs => ?_, fun {s} hs => ?_, fun {s} hs => ?_⟩ <;> obtain ⟨y, hy, heq⟩ := h s hs
  · rw [Traced.final, heq]
    exact hy.inv hs
  · rw [Traced.final, heq]
    exact hy.move hs
  · rw [Emits, Traced.events, heq]
    exact hy.emits hs

/-- One program after the other. -/
def runAll : List (Traced σ ε Unit) → Traced σ ε Unit
  | [] => pure ()
  | x :: xs => do
    x
    runAll xs

theorem final_runAll_append (xs ys : List (Traced σ ε Unit)) (s : σ) :
    (runAll (xs ++ ys)).final s = (runAll ys).final ((runAll xs).final s) := by
  induction xs generalizing s with
  | nil => rfl
  | cons x xs ih => exact ih (x.final s)

/-- A run of any length keeps to the discipline when each of its programs does. -/
theorem keeps_runAll {xs : List (Traced σ ε Unit)} (h : ∀ x ∈ xs, D.Keeps x) :
    D.Keeps (runAll xs) := by
  induction xs with
  | nil => exact keeps_pure ()
  | cons x xs ih =>
      exact (h x List.mem_cons_self).bind fun _ => ih fun y hy => h y (List.mem_cons_of_mem _ hy)

end Discipline
