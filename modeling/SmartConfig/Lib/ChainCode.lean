import Mathlib.Data.List.Basic

/-!
# Chained check codes

A sender puts a stream of symbols on a channel one frame at a time. A frame carries one symbol and
a *check value*, computed from the symbol sent before it and from the number of symbols sent so
far. A receiver accepts a frame exactly when its check value is the one that the last accepted
symbol and the number of accepted symbols predict; every other frame is noise to it.

Nothing is assumed of the check function, and in particular check values may repeat. What the
receiver can tolerate is decided by one property of the stream: `Separates`, that two of its frames
with the same check value carry the same symbol.

* `encode`, `expected` — sender and prediction; `getElem?_encode` ties the two together.
* `accept_prefix` — on a separating stream, an accepted frame of the stream extends a received
  prefix to a longer prefix, wherever in the stream the frame comes from.
* `exists_collision` — on a stream that does not separate, some frame of the stream is accepted
  after a correctly received prefix and carries the wrong symbol.
* `InTurn` — what a receiver that waits for frames one after the other has to hear, to take all of
  them and no others.
-/

/-- The check function, and the symbol taken to precede the stream. -/
structure ChainCode (α κ : Type*) where
  seed : α
  check : α → Nat → κ

namespace ChainCode

variable {α κ : Type*} (C : ChainCode α κ)

/-- The check value of the frame that follows the symbols `xs`. -/
def expected (xs : List α) : κ := C.check (xs.getLastD C.seed) xs.length

/-- The frames of `xs`, sent after the symbols `sent`. -/
def encodeFrom (sent : List α) : List α → List (κ × α)
  | [] => []
  | x :: xs => (C.expected sent, x) :: encodeFrom (sent ++ [x]) xs

/-- The frames of the stream `xs`. -/
def encode (xs : List α) : List (κ × α) := C.encodeFrom [] xs

/-! ## The frames of a stream -/

@[simp] theorem length_encodeFrom (sent xs : List α) :
    (C.encodeFrom sent xs).length = xs.length := by
  induction xs generalizing sent with
  | nil => rfl
  | cons x xs ih => simp [encodeFrom, ih]

@[simp] theorem length_encode (xs : List α) : (C.encode xs).length = xs.length :=
  C.length_encodeFrom [] xs

theorem getElem?_encodeFrom (sent xs : List α) (t : Nat) :
    (C.encodeFrom sent xs)[t]? = xs[t]?.map fun x => (C.expected (sent ++ xs.take t), x) := by
  induction xs generalizing sent t with
  | nil => simp [encodeFrom]
  | cons x xs ih =>
      cases t with
      | zero => simp [encodeFrom]
      | succ t => simp [encodeFrom, ih]

/-- Frame `t` carries the check value that the first `t` symbols predict. -/
theorem getElem?_encode (xs : List α) (t : Nat) :
    (C.encode xs)[t]? = xs[t]?.map fun x => (C.expected (xs.take t), x) := by
  simp [encode, getElem?_encodeFrom]

theorem mem_encode_iff {xs : List α} {f : κ × α} :
    f ∈ C.encode xs ↔ ∃ t x, xs[t]? = some x ∧ f = (C.expected (xs.take t), x) := by
  rw [List.mem_iff_getElem?]
  constructor
  · rintro ⟨t, ht⟩
    rw [getElem?_encode, Option.map_eq_some_iff] at ht
    obtain ⟨x, hx, rfl⟩ := ht
    exact ⟨t, x, hx, rfl⟩
  · rintro ⟨t, x, hx, rfl⟩
    exact ⟨t, by rw [getElem?_encode, hx]; rfl⟩

/-! ## Loss, repetition and reordering -/

/-- Two frames of the stream with the same check value carry the same symbol. -/
def Separates (xs : List α) : Prop :=
  ∀ f ∈ C.encode xs, ∀ g ∈ C.encode xs, f.1 = g.1 → f.2 = g.2

variable {C}

theorem concat_prefix_iff {st xs : List α} {x : α} :
    st ++ [x] <+: xs ↔ st <+: xs ∧ xs[st.length]? = some x := by
  constructor
  · rintro ⟨ys, rfl⟩
    exact ⟨⟨x :: ys, by simp⟩, by simp⟩
  · rintro ⟨⟨ys, rfl⟩, hx⟩
    cases ys with
    | nil => simp at hx
    | cons y ys => exact ⟨ys, by simp at hx; simp [hx]⟩

/-- On a separating stream, whichever frame of the stream the receiver accepts after a correctly
received prefix, it carries the right symbol. -/
theorem accept_prefix {xs st : List α} (hsep : C.Separates xs) (hp : st <+: xs)
    (hlt : st.length < xs.length) {f : κ × α} (hf : f ∈ C.encode xs)
    (hacc : f.1 = C.expected st) : st ++ [f.2] <+: xs := by
  have hx : xs[st.length]? = some xs[st.length] := List.getElem?_eq_getElem hlt
  -- the frame that was due has the same check value, so it carries the same symbol
  have hmem : (C.expected st, xs[st.length]) ∈ C.encode xs :=
    C.mem_encode_iff.mpr ⟨st.length, _, hx, by rw [← List.prefix_iff_eq_take.mp hp]⟩
  rw [hsep f hf _ hmem hacc]
  exact concat_prefix_iff.mpr ⟨hp, hx⟩

/-- On a stream that does not separate, some frame of the stream passes for another one after a
correctly received prefix, and its symbol is wrong there. -/
theorem exists_collision {xs : List α} (hsep : ¬ C.Separates xs) :
    ∃ t x, xs[t]? = some x ∧ ∃ g ∈ C.encode xs, g.1 = C.expected (xs.take t) ∧ g.2 ≠ x := by
  simp only [Separates, not_forall] at hsep
  obtain ⟨f, hf, g, hg, hfg, hne⟩ := hsep
  obtain ⟨t, x, hx, rfl⟩ := C.mem_encode_iff.mp hf
  exact ⟨t, x, hx, g, hg, hfg.symm, fun h => hne h.symm⟩

/-! ## Waiting for one frame after the other -/

/-- The frames `ws` come in turn in `fs`: each of them is the first one with its check value behind
the one before it. -/
def InTurn : List (κ × α) → List (κ × α) → Prop
  | _, [] => True
  | fs, w :: ws =>
    ∃ skipped rest, fs = skipped ++ w :: rest ∧ (∀ f ∈ skipped, f.1 ≠ w.1) ∧ InTurn rest ws

theorem not_inTurn_nil {w : κ × α} {ws : List (κ × α)} : ¬ InTurn [] (w :: ws) := by
  rintro ⟨skipped, rest, hnil, -⟩
  simp at hnil

/-- A frame with the check value that is awaited has to be the awaited one; any other is skipped. -/
theorem inTurn_cons_iff [DecidableEq κ] {f w : κ × α} {fs ws : List (κ × α)} :
    InTurn (f :: fs) (w :: ws) ↔
      if f.1 = w.1 then f.2 = w.2 ∧ InTurn fs ws else InTurn fs (w :: ws) := by
  split
  · next heq =>
    constructor
    · rintro ⟨skipped, rest, hsplit, hskipped, hrest⟩
      cases skipped with
      | nil =>
          obtain ⟨rfl, rfl⟩ := List.cons.inj hsplit
          exact ⟨rfl, hrest⟩
      | cons g skipped =>
          obtain ⟨rfl, -⟩ := List.cons.inj hsplit
          exact absurd heq (hskipped f List.mem_cons_self)
    · rintro ⟨hsymbol, hrest⟩
      exact ⟨[], fs, by rw [Prod.ext heq hsymbol]; rfl, by simp, hrest⟩
  · next hne =>
    constructor
    · rintro ⟨skipped, rest, hsplit, hskipped, hrest⟩
      cases skipped with
      | nil => exact absurd (congrArg Prod.fst (List.cons.inj hsplit).1) hne
      | cons g skipped =>
          obtain ⟨rfl, rfl⟩ := List.cons.inj hsplit
          exact ⟨skipped, rest, rfl, (List.forall_mem_cons.mp hskipped).2, hrest⟩
    · rintro ⟨skipped, rest, rfl, hskipped, hrest⟩
      exact ⟨f :: skipped, rest, rfl, List.forall_mem_cons.mpr ⟨hne, hskipped⟩, hrest⟩

instance InTurn.decide [DecidableEq κ] [DecidableEq α] :
    ∀ fs ws : List (κ × α), Decidable (InTurn fs ws)
  | _, [] => isTrue trivial
  | [], _ :: _ => isFalse not_inTurn_nil
  | _ :: fs, w :: ws =>
    have := InTurn.decide fs ws
    have := InTurn.decide fs (w :: ws)
    decidable_of_iff' _ inTurn_cons_iff

end ChainCode
