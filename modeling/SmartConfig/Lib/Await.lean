import Mathlib.Data.List.Basic
import Mathlib.Logic.Function.Basic

/-!
# Waiting for a word, symbol by symbol

A listener waits for the symbols of a word in order. It ignores a symbol that is not the next one,
except when it has heard the first symbol only: there, a symbol that is not kept sends it back to
the start.

* `await_iff` — the inputs on which it hears the whole word: somewhere the first symbol comes, then
  the second one with only kept symbols between them, and the rest of the word comes after that as a
  subsequence.
* `found_of_speakers` — several speakers of the word at once, each of them in order, are such an
  input if one of them comes to the end.
-/

namespace Await

variable {α : Type} (keep : α → Bool)

/-! ## The inputs -/

/-- The inputs that finish the word `a :: b :: rest` when its first symbol has been heard. -/
def Continued (b : α) (rest xs : List α) : Prop :=
  ∃ s v, xs = s ++ b :: v ∧ (∀ x ∈ s, keep x = true) ∧ rest.Sublist v

/-- The inputs that hold all of it. -/
def Found (a b : α) (rest xs : List α) : Prop :=
  ∃ u s v, xs = u ++ a :: s ++ b :: v ∧ (∀ x ∈ s, keep x = true) ∧ rest.Sublist v

variable {keep} {a b x : α} {rest xs : List α}

theorem continued_cons : Continued keep b rest (x :: xs) ↔
    (x = b ∧ rest.Sublist xs) ∨ (keep x = true ∧ Continued keep b rest xs) := by
  constructor
  · rintro ⟨s, v, heq, hs, hv⟩
    cases s with
    | nil =>
        obtain ⟨rfl, rfl⟩ := List.cons.inj heq
        exact .inl ⟨rfl, hv⟩
    | cons y s =>
        obtain ⟨rfl, rfl⟩ := List.cons.inj heq
        have hlater : ∀ z ∈ s, keep z = true := fun z hz => hs z (List.mem_cons_of_mem _ hz)
        exact .inr ⟨hs _ List.mem_cons_self, s, v, rfl, hlater, hv⟩
  · rintro (⟨rfl, hrest⟩ | ⟨hx, s, v, rfl, hs, hv⟩)
    · exact ⟨[], xs, rfl, fun y hy => absurd hy List.not_mem_nil, hrest⟩
    · exact ⟨x :: s, v, rfl, List.forall_mem_cons.mpr ⟨hx, hs⟩, hv⟩

theorem found_cons : Found keep a b rest (x :: xs) ↔
    (x = a ∧ Continued keep b rest xs) ∨ Found keep a b rest xs := by
  constructor
  · rintro ⟨u, s, v, heq, hs, hv⟩
    cases u with
    | nil =>
        obtain ⟨rfl, rfl⟩ := List.cons.inj heq
        exact .inl ⟨rfl, s, v, rfl, hs, hv⟩
    | cons y u =>
        obtain ⟨rfl, rfl⟩ := List.cons.inj heq
        exact .inr ⟨u, s, v, rfl, hs, hv⟩
  · rintro (⟨rfl, s, v, rfl, hs, hv⟩ | ⟨u, s, v, rfl, hs, hv⟩)
    · exact ⟨[], s, v, rfl, hs, hv⟩
    · exact ⟨x :: u, s, v, rfl, hs, hv⟩

theorem Continued.sublist (h : Continued keep b rest xs) : rest.Sublist xs := by
  obtain ⟨s, v, rfl, -, hv⟩ := h
  exact hv.trans ((List.sublist_cons_self b v).trans (List.sublist_append_right s _))

theorem Found.sublist (h : Found keep a b rest xs) : rest.Sublist xs := by
  obtain ⟨u, s, v, rfl, -, hv⟩ := h
  exact hv.trans ((List.sublist_cons_self b v).trans (List.sublist_append_right _ _))

/-! ## Several speakers -/

section Speakers

variable {κ : Type*} [DecidableEq κ]

/-- What one speaker says, in what all of them say. -/
def saidBy (k : κ) (xs : List (κ × α)) : List α := (xs.filter fun x => x.1 = k).map Prod.snd

theorem saidBy_cons_self (k : κ) (x : α) (xs : List (κ × α)) :
    saidBy k ((k, x) :: xs) = x :: saidBy k xs := by
  rw [saidBy, List.filter_cons_of_pos (by simp)]
  rfl

theorem saidBy_cons_of_ne {j k : κ} (h : k ≠ j) (x : α) (xs : List (κ × α)) :
    saidBy j ((k, x) :: xs) = saidBy j xs := by
  rw [saidBy, List.filter_cons_of_neg (by simpa using h)]
  rfl

theorem saidBy_sublist (k : κ) (xs : List (κ × α)) : (saidBy k xs).Sublist (xs.map Prod.snd) :=
  List.filter_sublist.map Prod.snd

theorem mem_saidBy {x : κ × α} {xs : List (κ × α)} (h : x ∈ xs) : x.2 ∈ saidBy x.1 xs :=
  List.mem_map_of_mem (List.mem_filter.mpr ⟨h, by simp⟩)

theorem saidBy_map {β : Type} (g : α → β) (k : κ) (xs : List (κ × α)) :
    saidBy k (xs.map fun x => (x.1, g x.2)) = (saidBy k xs).map g := by
  induction xs with
  | nil => rfl
  | cons x xs ih =>
      obtain ⟨j, x⟩ := x
      rw [List.map_cons]
      by_cases hj : j = k
      · rw [hj, saidBy_cons_self, saidBy_cons_self, ih, List.map_cons]
      · rw [saidBy_cons_of_ne hj, saidBy_cons_of_ne hj, ih]

/-- The word from its second symbol on, or the whole of it. -/
def leftOver (a b : α) (rest : List α) (begun : Bool) : List α :=
  if begun then b :: rest else a :: b :: rest

/-- The second symbol comes from the first speaker that gets there, and nobody has said more than
the first one before. -/
theorem continued_of_speakers (ha : keep a = true) {xs : List (κ × α)} (begun : κ → Bool)
    (hall : ∀ k, saidBy k xs <+: leftOver a b rest (begun k)) (k₀ : κ)
    (hwhole : saidBy k₀ xs = leftOver a b rest (begun k₀)) :
    Continued keep b rest (xs.map Prod.snd) := by
  induction xs generalizing begun with
  | nil =>
      rw [leftOver] at hwhole
      split at hwhole
      · cases hwhole
      · cases hwhole
  | cons x xs ih =>
      obtain ⟨k, x⟩ := x
      have hk := hall k
      rw [saidBy_cons_self] at hk
      rw [List.map_cons, continued_cons]
      cases hbegun : begun k with
      | true =>
          -- the second symbol
          rw [hbegun, leftOver, if_pos rfl, List.cons_prefix_cons] at hk
          refine .inl ⟨hk.1, ?_⟩
          refine List.Sublist.trans ?_ (saidBy_sublist k₀ xs)
          by_cases hk₀ : k = k₀
          · rw [← hk₀, saidBy_cons_self, hbegun, leftOver, if_pos rfl] at hwhole
            rw [← hk₀, (List.cons.inj hwhole).2]
          · rw [saidBy_cons_of_ne hk₀] at hwhole
            rw [hwhole, leftOver]
            split
            · exact List.sublist_cons_self _ _
            · exact (List.sublist_cons_self _ _).trans (List.sublist_cons_self _ _)
      | false =>
          -- the first one, again
          rw [hbegun, leftOver, if_neg Bool.false_ne_true, List.cons_prefix_cons] at hk
          obtain ⟨rfl, hsaid⟩ := hk
          refine .inr ⟨ha, ih (Function.update begun k true) (fun j => ?_) ?_⟩
          · by_cases hj : k = j
            · rw [← hj, Function.update_self]
              exact hsaid
            · have hsame := hall j
              rw [saidBy_cons_of_ne hj] at hsame
              rwa [Function.update_of_ne (Ne.symm hj)]
          · by_cases hk₀ : k = k₀
            · rw [← hk₀, saidBy_cons_self, hbegun, leftOver, if_neg Bool.false_ne_true] at hwhole
              rw [← hk₀, Function.update_self]
              exact (List.cons.inj hwhole).2
            · rw [saidBy_cons_of_ne hk₀] at hwhole
              rwa [Function.update_of_ne (Ne.symm hk₀)]

/-- Speakers of one word, each of them in order and one of them to its end, are heard. -/
theorem found_of_speakers (ha : keep a = true) {xs : List (κ × α)}
    (hall : ∀ k, saidBy k xs <+: a :: b :: rest) (k₀ : κ)
    (hwhole : saidBy k₀ xs = a :: b :: rest) : Found keep a b rest (xs.map Prod.snd) := by
  cases xs with
  | nil => cases hwhole
  | cons x xs =>
      obtain ⟨k, x⟩ := x
      have hk := hall k
      rw [saidBy_cons_self, List.cons_prefix_cons] at hk
      obtain ⟨rfl, hsaid⟩ := hk
      -- whoever speaks first says the first symbol
      refine found_cons.mpr (.inl ⟨rfl, ?_⟩)
      refine continued_of_speakers ha (fun j => decide (k = j)) (fun j => ?_) k₀ ?_
      · by_cases hj : k = j
        · rw [← hj]
          simpa [leftOver] using hsaid
        · have hsame := hall j
          rw [saidBy_cons_of_ne hj] at hsame
          simpa [leftOver, hj] using hsame
      · by_cases hk₀ : k = k₀
        · rw [← hk₀, saidBy_cons_self] at hwhole
          rw [← hk₀]
          simpa [leftOver] using (List.cons.inj hwhole).2
        · rw [saidBy_cons_of_ne hk₀] at hwhole
          simpa [leftOver, hk₀] using hwhole

end Speakers

/-! ## The listener -/

variable [DecidableEq α] (keep) (word : List α)

/-- The number of symbols heard, after one more input. -/
def next (n : Nat) (x : α) : Nat :=
  if word[n]? = some x then n + 1
  else if n = 1 ∧ keep x = false then 0
  else n

/-- The number of symbols heard. -/
def heard (n : Nat) (xs : List α) : Nat := xs.foldl (next keep word) n

theorem heard_cons (n : Nat) (x : α) (xs : List α) :
    heard keep word n (x :: xs) = heard keep word (next keep word n x) xs := rfl

theorem heard_concat (n : Nat) (xs : List α) (x : α) :
    heard keep word n (xs ++ [x]) = next keep word (heard keep word n xs) x := by
  rw [heard, List.foldl_append]
  rfl

variable {keep word}

/-- Behind the second symbol the listener waits for the rest as a subsequence. -/
theorem heard_iff_sublist {n : Nat} (h2 : 2 ≤ n) (hn : n ≤ word.length) (xs : List α) :
    heard keep word n xs = word.length ↔ (word.drop n).Sublist xs := by
  induction xs generalizing n with
  | nil =>
      rw [List.sublist_nil, List.drop_eq_nil_iff]
      exact ⟨fun h => Nat.le_of_eq h.symm, fun h => Nat.le_antisymm hn h⟩
  | cons x xs ih =>
      rw [heard_cons, next]
      rcases Nat.eq_or_lt_of_le hn with rfl | hlt
      · rw [if_neg (by simp), if_neg (by omega), ih h2 (Nat.le_refl _), List.drop_length]
        exact iff_of_true (List.nil_sublist _) (List.nil_sublist _)
      · rw [List.drop_eq_getElem_cons hlt, List.getElem?_eq_getElem hlt]
        by_cases hx : word[n] = x
        · rw [if_pos (congrArg some hx), ih (by omega) hlt, hx, List.cons_sublist_cons]
        · rw [if_neg (fun h => hx (Option.some.inj h)), if_neg (by omega), ih h2 hn,
            List.drop_eq_getElem_cons hlt]
          refine ⟨fun h => h.trans (List.sublist_cons_self _ _), fun h => ?_⟩
          cases h with
          | cons _ h => exact h
          | cons_cons => exact absurd rfl hx

/-- From the start and from the first symbol on; the first symbol itself is kept. -/
theorem heard_iff (ha : keep a = true) (xs : List α) :
    (heard keep (a :: b :: rest) 0 xs = (a :: b :: rest).length ↔ Found keep a b rest xs) ∧
      (heard keep (a :: b :: rest) 1 xs = (a :: b :: rest).length ↔
        Continued keep b rest xs ∨ Found keep a b rest xs) := by
  induction xs with
  | nil =>
      refine ⟨iff_of_false (by simp [heard]) ?_, iff_of_false (by simp [heard]) ?_⟩
      · rintro ⟨u, s, v, heq, -, -⟩
        simp at heq
      · rintro (⟨s, v, heq, -, -⟩ | ⟨u, s, v, heq, -, -⟩)
        · simp at heq
        · simp at heq
  | cons x xs ih =>
      obtain ⟨ih0, ih1⟩ := ih
      rw [heard_cons, heard_cons, found_cons, continued_cons, next, next]
      constructor
      · by_cases hx : x = a
        · rw [if_pos (by simp [hx]), ih1, hx]
          simp
        · rw [if_neg (by simpa using Ne.symm hx), if_neg (by simp), ih0]
          simp [hx]
      · -- behind the first symbol: the second one, one that is kept, or the way back
        by_cases hx : x = b
        · rw [if_pos (by simp [hx]), heard_iff_sublist (Nat.le_refl 2) (by simp)]
          constructor
          · exact fun hrest => .inl (.inl ⟨hx, hrest⟩)
          · rintro ((⟨-, hrest⟩ | ⟨-, hcont⟩) | ⟨-, hcont⟩ | hfound)
            · exact hrest
            · exact hcont.sublist
            · exact hcont.sublist
            · exact hfound.sublist
        · rw [if_neg (by simpa using Ne.symm hx)]
          cases hkeep : keep x with
          | true =>
              rw [if_neg (by simp), ih1]
              constructor
              · rintro (hcont | hfound)
                · exact .inl (.inr ⟨rfl, hcont⟩)
                · exact .inr (.inr hfound)
              · rintro ((⟨hxb, -⟩ | ⟨-, hcont⟩) | ⟨-, hcont⟩ | hfound)
                · exact absurd hxb hx
                · exact .inl hcont
                · exact .inl hcont
                · exact .inr hfound
          | false =>
              have hxa : x ≠ a := by
                rintro rfl
                exact Bool.false_ne_true (hkeep.symm.trans ha)
              rw [if_pos ⟨rfl, rfl⟩, ih0]
              simp [hx, hxa]

/-- The listener hears the whole word exactly on the inputs that hold it so. -/
theorem await_iff (ha : keep a = true) (xs : List α) :
    heard keep (a :: b :: rest) 0 xs = (a :: b :: rest).length ↔
      ∃ u s v, xs = u ++ a :: s ++ b :: v ∧ (∀ x ∈ s, keep x = true) ∧ rest.Sublist v :=
  (heard_iff ha xs).1

end Await
