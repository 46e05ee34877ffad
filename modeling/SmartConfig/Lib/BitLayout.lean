import SmartConfig.Lib.BitField

/-!
# Fields side by side

A record is a list of fields, laid one behind the other into a bit string from position `s` on.
Nothing outside the span of the fields changes (`lay_of_not_mem`), the fields are held afterwards
(`holdsFields_lay`), and to lay down what is held already changes nothing at all (`lay_eq_self`).
-/

namespace BitString

/-- A number, and the width of the field that it is for. -/
structure Field where
  width : Nat
  number : Nat

/-- The number has no more digits than its field. -/
def Field.Fits (x : Field) : Prop := x.number < 2 ^ x.width

/-- A code fits its width. -/
theorem fits_code (v : Nat) : Field.Fits ⟨codeWidth v, v⟩ := by
  refine Nat.lt_of_lt_of_le (Nat.lt_size_self v) (Nat.pow_le_pow_right (by decide) ?_)
  show v.size ≤ 2 * v.size - 1
  omega

/-- The bits of all fields together. -/
def span (xs : List Field) : Nat := (xs.map (·.width)).sum

/-- `f` with the fields from `s` on. -/
def lay (f : BitString) (s : Nat) : List Field → BitString
  | [] => f
  | x :: xs => lay (put f s x.width x.number) (s + x.width) xs

/-- The fields stand in `f` from `s` on. -/
def HoldsFields (f : BitString) (s : Nat) : List Field → Prop
  | [] => True
  | x :: xs => field f s x.width = x.number ∧ HoldsFields f (s + x.width) xs

variable {f g : BitString} {s : Nat} {x : Field} {xs ys : List Field}

@[simp] theorem span_nil : span [] = 0 := rfl

@[simp] theorem span_cons : span (x :: xs) = x.width + span xs := rfl

@[simp] theorem span_append : span (xs ++ ys) = span xs + span ys := by
  rw [span, List.map_append, List.sum_append]
  rfl

theorem lay_append : lay f s (xs ++ ys) = lay (lay f s xs) (s + span xs) ys := by
  induction xs generalizing f s with
  | nil => rfl
  | cons x xs ih => rw [List.cons_append, lay, ih, lay, span_cons, Nat.add_assoc]

theorem holdsFields_append :
    HoldsFields f s (xs ++ ys) ↔ HoldsFields f s xs ∧ HoldsFields f (s + span xs) ys := by
  induction xs generalizing s with
  | nil => exact (iff_of_eq (true_and _)).symm
  | cons x xs ih =>
      rw [List.cons_append, HoldsFields, ih, HoldsFields, span_cons, Nat.add_assoc, and_assoc]

theorem lay_of_not_mem {i : Nat} (hi : ¬ (s ≤ i ∧ i < s + span xs)) : lay f s xs i = f i := by
  induction xs generalizing f s with
  | nil => rfl
  | cons x xs ih =>
      rw [span_cons] at hi
      rw [lay, ih (by omega), put_of_not_mem _ _ (by omega)]

/-- Strings that agree on the span hold the same fields. -/
theorem HoldsFields.congr (h : HoldsFields f s xs)
    (hfg : ∀ i, s ≤ i → i < s + span xs → f i = g i) : HoldsFields g s xs := by
  induction xs generalizing s with
  | nil => trivial
  | cons x xs ih =>
      rw [span_cons] at hfg
      obtain ⟨hfirst, hrest⟩ := h
      refine ⟨?_, ih hrest fun i hlo hhi => hfg i (by omega) (by omega)⟩
      rw [← hfirst]
      exact field_congr fun i hlo hhi => (hfg i hlo (by omega)).symm

/-- What is laid down is held. -/
theorem holdsFields_lay (f : BitString) (s : Nat) (hxs : ∀ x ∈ xs, x.Fits) :
    HoldsFields (lay f s xs) s xs := by
  induction xs generalizing f s with
  | nil => trivial
  | cons x xs ih =>
      obtain ⟨hx, hrest⟩ := List.forall_mem_cons.mp hxs
      refine ⟨(field_congr fun i hlo hhi => ?_).trans (field_put f s hx), ih _ _ hrest⟩
      -- the later fields leave this one alone
      show lay (put f s x.width x.number) (s + x.width) xs i = _
      exact lay_of_not_mem (by omega)

/-- Writing a number where it stands already. -/
theorem put_eq_self {n v : Nat} (h : field f s n = v) : put f s n v = f := by
  funext i
  by_cases hi : s ≤ i ∧ i < s + n
  · rw [put_of_mem _ _ hi, ← h, testBit_field, decide_eq_true (by omega), Bool.true_and]
    congr 1
    omega
  · exact put_of_not_mem _ _ hi

/-- What is held can be laid down again without a change. -/
theorem lay_eq_self (h : HoldsFields f s xs) : lay f s xs = f := by
  induction xs generalizing s with
  | nil => rfl
  | cons x xs ih =>
      obtain ⟨hfirst, hrest⟩ := h
      rw [lay, put_eq_self hfirst, ih hrest]

/-! ## Fields of fields -/

/-- The fields of a string that begins later. -/
theorem field_drop (f : BitString) (k s n : Nat) :
    field (fun i => f (k + i)) s n = field f (k + s) n := by
  induction n with
  | zero => rfl
  | succ n ih => rw [field, field, ih, Nat.add_assoc]

/-- A field in two parts. -/
theorem field_add (f : BitString) (s m n : Nat) :
    field f s (m + n) = field f s m * 2 ^ n + field f (s + m) n := by
  induction n with
  | zero => rw [Nat.add_zero, field, Nat.pow_zero, Nat.mul_one, Nat.add_zero]
  | succ n ih =>
      have hcarry : 2 * (field f s m * 2 ^ n) = field f s m * 2 ^ (n + 1) := by
        rw [Nat.pow_succ, Nat.mul_left_comm, Nat.mul_comm 2]
      rw [← Nat.add_assoc, field, ih, field, Nat.mul_add, hcarry, Nat.add_assoc, Nat.add_assoc]

end BitString
