/-!
# Programs that leave a trace

A state transformer says what a program computes, but not what it does on the way: which cells it
reads, which operations it performs. A `Traced` program computes the same and also notes events.

* `Traces` — a traced program does what a plain one does, whatever it notes.
* `Emits` — every event of one run has a property; composing programs composes such facts.
-/

/-- A state transformer that also notes a list of events. -/
def Traced (σ ε α : Type) : Type := σ → α × σ × List ε

namespace Traced

variable {σ ε α β : Type}

/-- What the program returns, from a state. -/
def value (x : Traced σ ε α) (s : σ) : α := (x s).1

/-- The state it ends in. -/
def final (x : Traced σ ε α) (s : σ) : σ := (x s).2.1

/-- What it notes, in order. -/
def events (x : Traced σ ε α) (s : σ) : List ε := (x s).2.2

instance : Monad (Traced σ ε) where
  pure a := fun s => (a, s, [])
  bind x f := fun s =>
    (value (f (value x s)) (final x s), final (f (value x s)) (final x s),
      events x s ++ events (f (value x s)) (final x s))

/-- Note some events and do nothing else. -/
def note (f : σ → List ε) : Traced σ ε Unit := fun s => ((), s, f s)

/-- Run a plain program, noting nothing. -/
def lift (x : StateM σ α) : Traced σ ε α := fun s => ((x s).1, (x s).2, [])

theorem final_note (f : σ → List ε) (s : σ) : (note f).final s = s := rfl

theorem run_pure (a : α) (s : σ) : (pure a : Traced σ ε α) s = (a, s, []) := rfl

theorem run_bind (x : Traced σ ε α) (f : α → Traced σ ε β) (s : σ) :
    (x >>= f) s =
      ((f (x s).1 (x s).2.1).1, (f (x s).1 (x s).2.1).2.1,
        (x s).2.2 ++ (f (x s).1 (x s).2.1).2.2) := rfl

theorem events_bind (x : Traced σ ε α) (f : α → Traced σ ε β) (s : σ) :
    (x >>= f).events s = x.events s ++ (f (x.value s)).events (x.final s) := rfl

theorem mem_events_bind {x : Traced σ ε α} {f : α → Traced σ ε β} {s : σ} {e : ε} :
    e ∈ (x >>= f).events s ↔ e ∈ x.events s ∨ e ∈ (f (x.value s)).events (x.final s) := by
  rw [events_bind, List.mem_append]

/-! ## Forgetting the trace -/

/-- `x` returns what `y` returns, and ends in the same state. -/
def Traces (x : Traced σ ε α) (y : StateM σ α) : Prop :=
  ∀ s, (x.value s, x.final s) = y s

section Traces

variable {x : Traced σ ε α} {y : StateM σ α}

theorem Traces.value_eq (h : Traces x y) (s : σ) : x.value s = (y s).1 := congrArg Prod.fst (h s)

theorem Traces.final_eq (h : Traces x y) (s : σ) : x.final s = (y s).2 := congrArg Prod.snd (h s)

theorem traces_pure (a : α) : Traces (pure a : Traced σ ε α) (pure a) := fun _ => rfl

theorem traces_lift (y : StateM σ α) : Traces (lift y : Traced σ ε α) y := fun _ => rfl

theorem Traces.bind (hx : Traces x y) {f : α → Traced σ ε β} {g : α → StateM σ β}
    (hf : ∀ a, Traces (f a) (g a)) : Traces (x >>= f) (y >>= g) := by
  intro s
  have hfinal := hf (x.value s) (x.final s)
  rw [hx.value_eq, hx.final_eq] at hfinal
  show ((f (x.value s)).value (x.final s), (f (x.value s)).final (x.final s)) =
    g (y s).1 (y s).2
  rw [hx.value_eq, hx.final_eq]
  exact hfinal

/-- Taking notes first changes nothing. -/
theorem Traces.note_bind (hx : Traces x y) (f : σ → List ε) : Traces (note f >>= fun _ => x) y :=
  fun s => hx s

/-- A shortcut that is taken from some of the states, with its notes made by hand. -/
theorem Traces.shortcut {w : Traced σ ε α} {z : StateM σ α} (hx : Traces x z) {c : σ → Prop}
    [DecidablePred c] {f : σ → List ε}
    (hw : ∀ s, w s = if c s then ((y s).1, (y s).2, f s) else x s)
    (hy : ∀ s, ¬ c s → y s = z s) : Traces w y := by
  intro s
  rw [value, final, hw]
  by_cases h : c s
  · rw [if_pos h]
    rfl
  · rw [if_neg h, hy s h]
    exact hx s

end Traces

/-! ## Properties of every event -/

/-- Every event that `x` notes from the state `s` is in `P`. -/
def Emits (P : ε → Prop) (x : Traced σ ε α) (s : σ) : Prop := ∀ e ∈ x.events s, P e

section Emits

variable {P Q : ε → Prop} {x : Traced σ ε α} {s : σ}

theorem Emits.mono (h : Emits P x s) (himp : ∀ e, P e → Q e) : Emits Q x s :=
  fun e he => himp e (h e he)

theorem emits_pure (a : α) (s : σ) : Emits P (pure a : Traced σ ε α) s :=
  fun _ he => absurd he List.not_mem_nil

theorem emits_lift (y : StateM σ α) (s : σ) : Emits P (lift y : Traced σ ε α) s :=
  fun _ he => absurd he List.not_mem_nil

theorem emits_note {f : σ → List ε} (h : ∀ e ∈ f s, P e) : Emits P (note f) s := h

theorem Emits.bind (hx : Emits P x s) {f : α → Traced σ ε β}
    (hf : Emits P (f (x.value s)) (x.final s)) : Emits P (x >>= f) s := by
  intro e he
  rcases mem_events_bind.mp he with he | he
  · exact hx e he
  · exact hf e he

/-- The second program starts where the plain version of the first one ends. -/
theorem Traces.emits_bind {y : StateM σ α} (h : Traces x y) (hx : Emits P x s)
    {f : α → Traced σ ε β} (hf : Emits P (f (y s).1) (y s).2) : Emits P (x >>= f) s := by
  apply hx.bind
  rw [h.value_eq, h.final_eq]
  exact hf

/-- What the first program notes is noted, and so is what the second one notes after it. -/
theorem Traces.mem_bind {y : StateM σ α} (h : Traces x y) {f : α → Traced σ ε β} {e : ε} :
    e ∈ (x >>= f).events s ↔ e ∈ x.events s ∨ e ∈ (f (y s).1).events (y s).2 := by
  rw [mem_events_bind, h.value_eq, h.final_eq]

end Emits

end Traced
