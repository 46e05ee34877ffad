import Mathlib.Algebra.Order.Ring.Int
import Mathlib.Data.Nat.Size

/-!
# Fields of a bit string

A bit string without an end is a function from positions to bits. A field of `n` bits from
position `s` on is a number, its most significant bit first.

* `field` — the number in a field; `testBit_field` says which bit of the string each of its bits is.
* `put` — the string with a number written into a field: it is read back there (`field_put`), and
  every bit outside is left alone (`put_of_not_mem`).
* `HoldsCode` — a number behind as many zeros as it has digits after its first one, so that it can
  be found again without knowing how long it is (the Exp-Golomb codes).
-/

/-- A bit string without an end. -/
abbrev BitString := Nat → Bool

namespace BitString

variable {f g : BitString} {s n v : Nat}

/-- The number in the `n` bits from `s` on. -/
def field (f : BitString) (s : Nat) : Nat → Nat
  | 0 => 0
  | n + 1 => 2 * field f s n + (f (s + n)).toNat

/-- `f` with the `n` low bits of `v` in the `n` bits from `s` on. -/
def put (f : BitString) (s n v : Nat) : BitString := fun i =>
  if s ≤ i ∧ i < s + n then v.testBit (s + n - 1 - i) else f i

/-! ## Reading -/

theorem testBit_toNat_zero (b : Bool) : b.toNat.testBit 0 = b := by
  cases b <;> rfl

theorem testBit_field (f : BitString) (s n i : Nat) :
    (field f s n).testBit i = (decide (i < n) && f (s + (n - 1 - i))) := by
  induction n generalizing i with
  | zero => simp [field]
  | succ n ih =>
      have hbit : (f (s + n)).toNat < 2 ^ 1 := Bool.toNat_lt _
      rw [field, show 2 * field f s n = 2 ^ 1 * field f s n from rfl,
        Nat.testBit_two_pow_mul_add _ hbit]
      split
      · next hi =>
        obtain rfl : i = 0 := by omega
        rw [testBit_toNat_zero, decide_eq_true (by omega), Bool.true_and]
        rfl
      · next hi =>
        rw [ih, show n - 1 - (i - 1) = n + 1 - 1 - i from by omega]
        have hlt : (i - 1 < n) = (i < n + 1) := by rw [eq_iff_iff]; omega
        rw [decide_eq_decide.mpr (iff_of_eq hlt)]

theorem field_lt (f : BitString) (s n : Nat) : field f s n < 2 ^ n := by
  apply Nat.lt_pow_two_of_testBit
  intro i hi
  rw [testBit_field, decide_eq_false (by omega), Bool.false_and]

/-- Strings that agree on a field hold the same number there. -/
theorem field_congr (h : ∀ i, s ≤ i → i < s + n → f i = g i) : field f s n = field g s n := by
  apply Nat.eq_of_testBit_eq
  intro i
  rw [testBit_field, testBit_field]
  by_cases hi : i < n
  · rw [h _ (by omega) (by omega)]
  · rw [decide_eq_false hi, Bool.false_and, Bool.false_and]

/-- The first bit of a field is its most significant one. -/
theorem field_succ (f : BitString) (s n : Nat) :
    field f s (n + 1) = (f s).toNat <<< n ||| field f (s + 1) n := by
  apply Nat.eq_of_testBit_eq
  intro i
  rw [Nat.testBit_or, Nat.testBit_shiftLeft, testBit_field, testBit_field]
  rcases Nat.lt_trichotomy i n with hlt | rfl | hgt
  · rw [show s + (n + 1 - 1 - i) = s + 1 + (n - 1 - i) from by omega]
    simp [hlt, Nat.lt_succ_of_lt hlt, Nat.not_le_of_lt hlt]
  · rw [Nat.sub_self, testBit_toNat_zero]
    simp
  · have hbit : (f s).toNat.testBit (i - n) = false := by
      apply Nat.testBit_lt_two_pow
      calc (f s).toNat < 2 ^ 1 := Bool.toNat_lt _
        _ ≤ 2 ^ (i - n) := Nat.pow_le_pow_right (by decide) (by omega)
    simp [hbit, Nat.not_lt_of_lt hgt, show ¬ i < n + 1 from by omega]

/-! ## Writing -/

theorem put_of_mem (f : BitString) (v : Nat) {i : Nat} (hi : s ≤ i ∧ i < s + n) :
    put f s n v i = v.testBit (s + n - 1 - i) := if_pos hi

theorem put_of_not_mem (f : BitString) (v : Nat) {i : Nat} (hi : ¬ (s ≤ i ∧ i < s + n)) :
    put f s n v i = f i := if_neg hi

@[simp] theorem put_zero (f : BitString) (s v : Nat) : put f s 0 v = f := by
  funext i
  exact put_of_not_mem f v (by omega)

/-- Only the low bits are written. -/
theorem put_congr (f : BitString) (s : Nat) {w : Nat}
    (h : ∀ i < n, v.testBit i = w.testBit i) : put f s n v = put f s n w := by
  funext i
  by_cases hi : s ≤ i ∧ i < s + n
  · rw [put_of_mem _ _ hi, put_of_mem _ _ hi, h _ (by omega)]
  · rw [put_of_not_mem _ _ hi, put_of_not_mem _ _ hi]

/-- What is written is read back. -/
theorem field_put (f : BitString) (s : Nat) (h : v < 2 ^ n) : field (put f s n v) s n = v := by
  apply Nat.eq_of_testBit_eq
  intro i
  rw [testBit_field]
  by_cases hi : i < n
  · rw [put_of_mem _ _ (by omega), show s + n - 1 - (s + (n - 1 - i)) = i from by omega]
    simp [hi]
  · rw [decide_eq_false hi, Bool.false_and, Nat.testBit_lt_two_pow]
    exact Nat.lt_of_lt_of_le h (Nat.pow_le_pow_right (by decide) (by omega))

/-- Writing bit by bit, the most significant one first. -/
theorem put_succ (f : BitString) (s n v : Nat) :
    put f s (n + 1) v = put (put f s 1 (v >>> n)) (s + 1) n v := by
  funext i
  rcases Nat.lt_trichotomy i s with hlt | rfl | hgt
  · rw [put_of_not_mem _ _ (by omega), put_of_not_mem _ _ (by omega), put_of_not_mem _ _ (by omega)]
  · rw [put_of_mem _ _ (by omega), put_of_not_mem _ _ (by omega), put_of_mem _ _ (by omega),
      Nat.testBit_shiftRight]
    congr 1
    omega
  · by_cases hi : i < s + (n + 1)
    · rw [put_of_mem _ _ (by omega), put_of_mem _ _ (by omega)]
      congr 1
      omega
    · rw [put_of_not_mem _ _ (by omega), put_of_not_mem _ _ (by omega),
        put_of_not_mem _ _ (by omega)]

/-! ## Numbers that say how long they are -/

/-- The digits of a number are those of its upper part and the ones shifted out. -/
theorem size_eq_add {k : Nat} (h : v / 2 ^ k ≠ 0) : v.size = k + (v / 2 ^ k).size := by
  have hpos := Nat.size_pos.mpr (Nat.pos_of_ne_zero h)
  have hk : 0 < 2 ^ k := Nat.two_pow_pos k
  apply Nat.le_antisymm
  · have hlt := (Nat.div_lt_iff_lt_mul hk).mp (Nat.lt_size_self (v / 2 ^ k))
    rw [Nat.size_le, Nat.pow_add, Nat.mul_comm]
    exact hlt
  · obtain ⟨m, hm⟩ := Nat.exists_eq_add_of_lt hpos
    have hle := (Nat.le_div_iff_mul_le hk).mp (Nat.lt_size.mp (show m < (v / 2 ^ k).size by omega))
    have hlt : k + m < v.size := by
      rw [Nat.lt_size, Nat.pow_add, Nat.mul_comm]
      exact hle
    omega

/-- The width of the code of `v`: its digits, and a zero for each of them but the first. -/
def codeWidth (v : Nat) : Nat := 2 * v.size - 1

/-- The code of `v` stands at `s`. -/
def HoldsCode (f : BitString) (s v : Nat) : Prop := field f s (codeWidth v) = v

theorem holdsCode_put (f : BitString) (s v : Nat) : HoldsCode (put f s (codeWidth v) v) s v := by
  apply field_put
  refine Nat.lt_of_lt_of_le (Nat.lt_size_self v) (Nat.pow_le_pow_right (by decide) ?_)
  rw [codeWidth]
  omega

namespace HoldsCode

/-- Bit by bit: `v` itself, at the end of its code. -/
theorem bit_eq (h : HoldsCode f s v) {i : Nat} (hi : i < codeWidth v) :
    f (s + i) = v.testBit (codeWidth v - 1 - i) := by
  have hbit := testBit_field f s (codeWidth v) (codeWidth v - 1 - i)
  rw [h, decide_eq_true (by omega), Bool.true_and,
    show codeWidth v - 1 - (codeWidth v - 1 - i) = i from by omega] at hbit
  exact hbit.symm

/-- The zeros in front. -/
theorem zero (h : HoldsCode f s v) {i : Nat} (hi : i + 1 < v.size) : f (s + i) = false := by
  rw [h.bit_eq (by rw [codeWidth]; omega)]
  apply Nat.testBit_lt_two_pow
  calc v < 2 ^ v.size := Nat.lt_size_self v
    _ ≤ 2 ^ (codeWidth v - 1 - i) :=
        Nat.pow_le_pow_right (by decide) (by rw [codeWidth]; omega)

/-- The first digit. -/
theorem one (h : HoldsCode f s v) (hv : 0 < v) : f (s + (v.size - 1)) = true := by
  have hsize := Nat.size_pos.mpr hv
  rw [h.bit_eq (by rw [codeWidth]; omega),
    show codeWidth v - 1 - (v.size - 1) = v.size - 1 from by rw [codeWidth]; omega]
  apply Nat.testBit_of_two_pow_le_and_two_pow_add_one_gt (Nat.lt_size.mp (by omega))
  rw [Nat.sub_add_cancel hsize]
  exact Nat.lt_size_self v

/-- The digits after the first one. -/
theorem rest (h : HoldsCode f s v) (hv : 0 < v) :
    field f (s + v.size) (v.size - 1) + 2 ^ (v.size - 1) = v := by
  have hsize := Nat.size_pos.mpr hv
  have hfield : field f (s + v.size) (v.size - 1) = v % 2 ^ (v.size - 1) := by
    apply Nat.eq_of_testBit_eq
    intro i
    rw [testBit_field, Nat.testBit_mod_two_pow]
    by_cases hi : i < v.size - 1
    · rw [show s + v.size + (v.size - 1 - 1 - i) = s + (codeWidth v - 1 - i) from by
        rw [codeWidth]; omega, h.bit_eq (by rw [codeWidth]; omega)]
      congr 2
      rw [codeWidth]
      omega
    · rw [decide_eq_false hi, Bool.false_and, Bool.false_and]
  have hlow : 2 ^ (v.size - 1) ≤ v := Nat.lt_size.mp (by omega)
  have hhigh : v < 2 ^ (v.size - 1) + 2 ^ (v.size - 1) := by
    rw [← Nat.two_mul, ← Nat.pow_succ', Nat.succ_eq_add_one, Nat.sub_add_cancel hsize]
    exact Nat.lt_size_self v
  rw [hfield, Nat.mod_eq_sub_mod hlow, Nat.mod_eq_of_lt (by omega), Nat.sub_add_cancel hlow]

end HoldsCode

end BitString
