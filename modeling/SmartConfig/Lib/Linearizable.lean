import Mathlib.Data.List.Nodup
import SmartConfig.Lib.CriticalSection

/-!
# Critical sections are linearizable

What the lock gives is that any interleaving is one whole call after the other, each from the state
that the one before it has left (`OneByOne`), and a beginning of the call that holds the lock.

* `linearizable` — so it is after every interleaving.
* `serial` — if what a call is still going to emit depends on nothing but its own position and the
  shared state, and a fresh call emits its `block` whatever it finds, then everything emitted is the
  blocks of the finished calls, in some order, and a beginning of the block of the call that holds
  the lock.
-/

namespace CriticalSection

variable {ι σ κ ω : Type*} (C : CriticalSection ι σ κ ω)

/-- Steps of call `i` with nobody else there: from where to where, and what they emit. -/
inductive Solo (i : ι) (l : κ) (s : σ) : List ω → κ → σ → Prop where
  | refl : Solo i l s [] l s
  | tail {out : List ω} {l' l'' : κ} {s' s'' : σ} {o : Option ω} (h : Solo i l s out l' s')
      (hstep : C.step i l' s' = some (l'', s'', o)) : Solo i l s (out ++ o.toList) l'' s''

/-- The whole of call `i`. -/
def Whole (i : ι) (s : σ) (out : List ω) (t : σ) : Prop :=
  ∃ l, C.Solo i (C.enter i) s out l t ∧ C.step i l t = none

/-- Whole calls, one after the other. -/
inductive OneByOne (s : σ) : List ι → List ω → σ → Prop where
  | nil : OneByOne s [] [] s
  | snoc {order : List ι} {out own : List ω} {t u : σ} {i : ι} (h : OneByOne s order out t)
      (hwhole : C.Whole i t own u) : OneByOne s (order ++ [i]) (out ++ own) u

/-- An interleaving that is the calls in `order`, and a beginning of the one that has the lock. -/
structure Linear (s₀ : σ) (s : State ι σ κ ω) (order : List ι) (out : List ω) (t : σ) : Prop where
  nodup : order.Nodup
  finished : ∀ i, i ∈ order ↔ s.phase i = .done
  whole : C.OneByOne s₀ order out t
  free : s.owner = none → s.shared = t ∧ s.out = out
  held : ∀ i l, s.phase i = .inside l →
    ∃ begun, C.Solo i (C.enter i) t begun l s.shared ∧ s.out = out ++ begun

variable {C} {s₀ t : σ} {s s' : State ι σ κ ω} {order : List ι} {out : List ω}

/-- A call that moves without finishing leaves the finished ones as they are. -/
theorem Linear.finished_update [DecidableEq ι] (h : C.Linear s₀ s order out t) {i : ι} {p : Phase κ}
    (hi : s.phase i ≠ .done) (hp : p ≠ .done) (j : ι) :
    j ∈ order ↔ Function.update s.phase i p j = .done := by
  rw [h.finished]
  rcases eq_or_ne j i with rfl | hji
  · rw [Function.update_self]
    exact iff_of_false hi hp
  · rw [Function.update_of_ne hji]

theorem Linear.step [DecidableEq ι] (hex : Exclusive s) (h : C.Linear s₀ s order out t)
    (hst : C.Step s s') :
    ∃ order' out' t', C.Linear s₀ s' order' out' t' := by
  cases hst with
  | lock i hphase howner =>
      -- a call begins, and has done nothing yet
      obtain ⟨hshared, hout⟩ := h.free howner
      refine ⟨order, out, t, h.nodup, h.finished_update (by simp [hphase]) (by simp), h.whole,
        fun hfree => absurd hfree (Option.some_ne_none i), fun j m hj => ?_⟩
      rcases eq_or_ne j i with rfl | hji
      · simp only [Function.update_self] at hj
        cases hj
        exact ⟨[], hshared ▸ .refl, hout.trans (List.append_nil _).symm⟩
      · simp only [Function.update_of_ne hji] at hj
        exact absurd ((hex j m hj).symm.trans howner) (Option.some_ne_none j)
  | body i l l' u o hphase hbody =>
      refine ⟨order, out, t, h.nodup, h.finished_update (by simp [hphase]) (by simp), h.whole,
        fun hfree => ?_, fun j m hj => ?_⟩
      · exact absurd ((hex i l hphase).symm.trans hfree) (Option.some_ne_none i)
      · rcases eq_or_ne j i with rfl | hji
        · simp only [Function.update_self] at hj
          cases hj
          obtain ⟨begun, hsolo, hout⟩ := h.held j l hphase
          exact ⟨begun ++ o.toList, hsolo.tail hbody, by rw [hout, List.append_assoc]⟩
        · simp only [Function.update_of_ne hji] at hj
          exact absurd (hex.unique hphase hj) hji
  | unlock i l hphase hbody =>
      -- what has been a beginning is a whole call now, and the last one
      obtain ⟨begun, hsolo, hout⟩ := h.held i l hphase
      refine ⟨order ++ [i], out ++ begun, s.shared, ?_, fun j => ?_,
        h.whole.snoc ⟨l, hsolo, hbody⟩, fun _ => ⟨rfl, hout⟩, fun j m hj => ?_⟩
      · refine List.nodup_append.mpr ⟨h.nodup, List.nodup_singleton i, ?_⟩
        rintro j hj k hk rfl
        rw [List.mem_singleton.mp hk, h.finished, hphase] at hj
        cases hj
      · rw [List.mem_append, h.finished, List.mem_singleton]
        rcases eq_or_ne j i with rfl | hji
        · simp
        · simp [hji]
      · rcases eq_or_ne j i with rfl | hji
        · simp only [Function.update_self] at hj
          cases hj
        · simp only [Function.update_of_ne hji] at hj
          exact absurd (hex.unique hphase hj) hji

/-- **Linearizability**: whatever the interleaving, the finished calls have run one after the other,
each as a whole. -/
theorem linearizable [DecidableEq ι] (h : C.Reachable s₀ s) :
    ∃ order out t, C.Linear s₀ s order out t := by
  induction h with
  | refl =>
      exact ⟨[], [], s₀, List.nodup_nil, fun i => by simp [State.init], .nil,
        fun _ => ⟨rfl, rfl⟩, fun i l hi => nomatch hi⟩
  | tail hreach hst ih =>
      obtain ⟨order, out, t, hlinear⟩ := ih
      exact hlinear.step (owner_of_inside hreach) hst

/-! ## Calls that do not depend on each other -/

section Serial

variable {rest : ι → κ → σ → List ω} {block : ι → List ω} {i : ι} {l l' : κ} {t' : σ}

/-- A call alone emits the difference between what is left before and after. -/
theorem Solo.rest_eq
    (hstep : ∀ i l t l' t' o, C.step i l t = some (l', t', o) →
      rest i l t = o.toList ++ rest i l' t')
    (h : C.Solo i l t out l' t') : rest i l t = out ++ rest i l' t' := by
  induction h with
  | refl => rfl
  | tail _ hlast ih => rw [ih, hstep _ _ _ _ _ _ hlast, List.append_assoc]

/-- One whole call after the other emits one block after the other. -/
theorem OneByOne.out_eq (hwhole : ∀ i t out t', C.Whole i t out t' → out = block i)
    (h : C.OneByOne s₀ order out t) : out = order.flatMap block := by
  induction h with
  | nil => rfl
  | snoc _ hlast ih =>
      rw [ih, hwhole _ _ _ _ hlast, List.flatMap_append, List.flatMap_singleton]

/-- **Serialization**: the calls come one after the other, each as a whole. -/
theorem serial [DecidableEq ι] (rest : ι → κ → σ → List ω)
    (henter : ∀ i t, rest i (C.enter i) t = block i)
    (hstep : ∀ i l t l' t' o, C.step i l t = some (l', t', o) →
      rest i l t = o.toList ++ rest i l' t')
    (hstop : ∀ i l t, C.step i l t = none → rest i l t = [])
    (h : C.Reachable s₀ s) :
    ∃ (order : List ι) (begun : List ω), order.Nodup ∧ (∀ i, i ∈ order ↔ s.phase i = .done) ∧
      s.out = order.flatMap block ++ begun ∧ (s.owner = none → begun = []) ∧
      ∀ i, s.owner = some i → begun <+: block i := by
  obtain ⟨order, out, t, hlinear⟩ := linearizable h
  have hblocks : out = order.flatMap block := by
    refine hlinear.whole.out_eq fun i t out t' ⟨l, hsolo, hnone⟩ => ?_
    rw [← henter i t, hsolo.rest_eq hstep, hstop _ _ _ hnone, List.append_nil]
  cases howner : s.owner with
  | none =>
      obtain ⟨-, hout⟩ := hlinear.free howner
      refine ⟨order, [], hlinear.nodup, hlinear.finished, ?_, fun _ => rfl, fun i hi => nomatch hi⟩
      rw [hout, hblocks, List.append_nil]
  | some j =>
      obtain ⟨l, hl⟩ := inside_of_owner h j howner
      obtain ⟨begun, hsolo, hout⟩ := hlinear.held j l hl
      refine ⟨order, begun, hlinear.nodup, hlinear.finished, hblocks ▸ hout,
        fun hfree => absurd hfree (Option.some_ne_none j), fun i hi => ?_⟩
      -- what the call inside has emitted, and what is left of its block
      obtain rfl := Option.some.inj hi
      exact ⟨_, (hsolo.rest_eq hstep).symm.trans (henter j t)⟩

end Serial

end CriticalSection
