import Mathlib.Data.List.Basic

/-!
# Nibbles: bytes taken apart into halves and put together again

A byte is two nibbles. The C idioms for the two directions are `b >> 4`, `b & 0xF` and
`(h << 4) | l`; this file proves once that they are inverse to each other, so that a development
about byte streams can be carried out on nibble streams and brought back.

* `hi`, `lo`, `join` — the idioms, on `Nibble`s (bytes that carry their own bound).
* `nibbles` — the nibble stream of a byte string, high half first.
* `cell` — the byte at position `i` of a nibble stream whose tail reads as zero.
-/

/-- Half a byte: an eight-bit value whose upper half is empty. -/
abbrev Nibble := { x : UInt8 // x < 16 }

namespace Nibble

/-! ## The two directions -/

theorem toNat_hi (b : UInt8) : (b >>> 4).toNat = b.toNat / 16 := by
  rw [UInt8.toNat_shiftRight, Nat.shiftRight_eq_div_pow]; rfl

theorem toNat_lo (b : UInt8) : (b &&& 0xF).toNat = b.toNat % 16 := by
  rw [UInt8.toNat_and]
  exact Nat.and_two_pow_sub_one_eq_mod _ 4

theorem shiftRight_lt (b : UInt8) : b >>> 4 < 16 := by
  have h := b.toNat_lt
  rw [UInt8.lt_iff_toNat_lt, toNat_hi]
  show b.toNat / 16 < 16
  omega

theorem and_lt (b : UInt8) : b &&& 0xF < 16 := by
  rw [UInt8.lt_iff_toNat_lt, toNat_lo]
  exact Nat.mod_lt _ (by decide)

theorem toNat_lt (x : Nibble) : x.val.toNat < 16 := UInt8.lt_iff_toNat_lt.mp x.property

theorem or_lt (x y : Nibble) : x.val ||| y.val < 16 := by
  rw [UInt8.lt_iff_toNat_lt, UInt8.toNat_or]
  exact Nat.or_lt_two_pow (n := 4) x.toNat_lt y.toNat_lt

/-- The high half, `b >> 4`. -/
def hi (b : UInt8) : Nibble := ⟨b >>> 4, shiftRight_lt b⟩

/-- The low half, `b & 0xF`. -/
def lo (b : UInt8) : Nibble := ⟨b &&& 0xF, and_lt b⟩

/-- `(h << 4) | l`. -/
def join (h l : Nibble) : UInt8 := h.val <<< 4 ||| l.val

/-- `x | y`, still a nibble. -/
def merge (x y : Nibble) : Nibble := ⟨x.val ||| y.val, or_lt x y⟩

instance : Zero Nibble := ⟨⟨0, by decide⟩⟩

@[simp] theorem val_zero : (0 : Nibble).val = 0 := rfl

@[simp] theorem hi_val (b : UInt8) : (hi b).val = b >>> 4 := rfl

@[simp] theorem lo_val (b : UInt8) : (lo b).val = b &&& 0xF := rfl

theorem toNat_shiftLeft (x : Nibble) : (x.val <<< 4).toNat = 16 * x.val.toNat := by
  have h := x.toNat_lt
  rw [UInt8.toNat_shiftLeft, Nat.shiftLeft_eq]
  show x.val.toNat * 2 ^ 4 % 2 ^ 8 = _
  omega

theorem toNat_join (h l : Nibble) : (join h l).toNat = 16 * h.val.toNat + l.val.toNat := by
  rw [join, UInt8.toNat_or, toNat_shiftLeft, show 16 * h.val.toNat = h.val.toNat <<< 4 from by
    rw [Nat.shiftLeft_eq]; omega, Nat.shiftLeft_add_eq_or_of_lt l.toNat_lt]

@[simp] theorem join_hi_lo (b : UInt8) : join (hi b) (lo b) = b := by
  apply UInt8.toNat_inj.mp
  rw [toNat_join, hi_val, toNat_hi, lo_val, toNat_lo]
  omega

@[simp] theorem hi_join (h l : Nibble) : hi (join h l) = h := by
  have hl := l.toNat_lt
  apply Subtype.ext
  apply UInt8.toNat_inj.mp
  rw [hi_val, toNat_hi, toNat_join]
  omega

@[simp] theorem lo_join (h l : Nibble) : lo (join h l) = l := by
  have hl := l.toNat_lt
  apply Subtype.ext
  apply UInt8.toNat_inj.mp
  rw [lo_val, toNat_lo, toNat_join]
  omega

@[simp] theorem join_zero_zero : join 0 0 = 0 := rfl

@[simp] theorem zero_merge (x : Nibble) : merge 0 x = x := Subtype.ext UInt8.zero_or

/-- `cell |= d << 4` on a cell whose low half is empty. -/
theorem join_or_shiftLeft (x d : Nibble) : join x 0 ||| d.val <<< 4 = join (merge x d) 0 := by
  simp only [join, merge, val_zero, UInt8.or_zero, UInt8.shiftLeft_or]

/-- `cell |= d` on a cell whose low half is empty. -/
theorem join_or (h d : Nibble) : join h 0 ||| d.val = join h d := by
  simp [join]

/-! ## Byte counters -/

theorem toNat_add_one {i : UInt8} (h : i.toNat < 255) : (i + 1).toNat = i.toNat + 1 := by
  rw [UInt8.toNat_add, UInt8.toNat_one]
  omega

theorem toNat_ne_zero {i : UInt8} (h : i ≠ 0) : i.toNat ≠ 0 := fun h0 => h (UInt8.toNat_inj.mp h0)

theorem toNat_sub_one {i : UInt8} (h : i ≠ 0) : (i - 1).toNat = i.toNat - 1 := by
  have hpos := toNat_ne_zero h
  rw [UInt8.toNat_sub_of_le _ _ (UInt8.le_iff_toNat_le.mpr (by rw [UInt8.toNat_one]; omega)),
    UInt8.toNat_one]

theorem add_one_sub_one (i : UInt8) : i + 1 - 1 = i := UInt8.add_sub_cancel i 1

theorem mod_two_eq_zero_iff (i : UInt8) : i % 2 = 0 ↔ i.toNat % 2 = 0 := by
  rw [← UInt8.toNat_inj, UInt8.toNat_mod]
  rfl

/-- A nibble xored onto a counter flips bits of the low half only: the high half of the counter
shows through. -/
theorem toNat_xor_div (x : Nibble) (s : UInt8) : (x.val ^^^ s).toNat / 16 = s.toNat / 16 := by
  have h := x.toNat_lt
  rw [UInt8.toNat_xor, show 16 = 2 ^ 4 from rfl, Nat.xor_div_two_pow, Nat.div_eq_of_lt h,
    Nat.zero_xor]

/-! ## Nibble streams -/

/-- The nibble stream of a byte string, high half first. -/
def nibbles : List UInt8 → List Nibble
  | [] => []
  | b :: bs => hi b :: lo b :: nibbles bs

@[simp] theorem nibbles_nil : nibbles [] = [] := rfl

@[simp] theorem nibbles_cons (b : UInt8) (bs : List UInt8) :
    nibbles (b :: bs) = hi b :: lo b :: nibbles bs := rfl

@[simp] theorem length_nibbles (bs : List UInt8) : (nibbles bs).length = 2 * bs.length := by
  induction bs with
  | nil => rfl
  | cons b bs ih => simp only [nibbles_cons, List.length_cons, ih]; omega

theorem nibbles_append (bs cs : List UInt8) : nibbles (bs ++ cs) = nibbles bs ++ nibbles cs := by
  induction bs with
  | nil => rfl
  | cons b bs ih => simp [ih]

theorem nibbles_take (bs : List UInt8) (k : Nat) :
    (nibbles bs).take (2 * k) = nibbles (bs.take k) := by
  induction bs generalizing k with
  | nil => simp
  | cons b bs ih =>
      cases k with
      | zero => rfl
      | succ k => rw [show 2 * (k + 1) = 2 * k + 1 + 1 from by omega]; simp [ih]

/-- The byte at position `i` of a nibble stream that reads as zero past its end. -/
def cell (xs : List Nibble) (i : Nat) : UInt8 :=
  join (xs.getD (2 * i) 0) (xs.getD (2 * i + 1) 0)

theorem getElem?_nibbles_even (bs : List UInt8) (i : Nat) :
    (nibbles bs)[2 * i]? = bs[i]?.map hi := by
  induction bs generalizing i with
  | nil => simp
  | cons b bs ih =>
      cases i with
      | zero => rfl
      | succ i => rw [show 2 * (i + 1) = 2 * i + 1 + 1 from by omega]; simpa using ih i

theorem getElem?_nibbles_odd (bs : List UInt8) (i : Nat) :
    (nibbles bs)[2 * i + 1]? = bs[i]?.map lo := by
  induction bs generalizing i with
  | nil => simp
  | cons b bs ih =>
      cases i with
      | zero => rfl
      | succ i => rw [show 2 * (i + 1) + 1 = 2 * i + 1 + 1 + 1 from by omega]; simpa using ih i

theorem getElem?_nibbles_even_of_lt {bs : List UInt8} {i : Nat} (h : i < bs.length) :
    (nibbles bs)[2 * i]? = some (hi (bs.getD i 0)) := by
  rw [getElem?_nibbles_even, List.getD_eq_getElem?_getD, List.getElem?_eq_getElem h]
  rfl

theorem getElem?_nibbles_odd_of_lt {bs : List UInt8} {i : Nat} (h : i < bs.length) :
    (nibbles bs)[2 * i + 1]? = some (lo (bs.getD i 0)) := by
  rw [getElem?_nibbles_odd, List.getD_eq_getElem?_getD, List.getElem?_eq_getElem h]
  rfl

/-- The cells of the nibble stream of a byte string are its bytes. -/
@[simp] theorem cell_nibbles (bs : List UInt8) (i : Nat) : cell (nibbles bs) i = bs.getD i 0 := by
  rw [cell, List.getD_eq_getElem?_getD, List.getD_eq_getElem?_getD, getElem?_nibbles_even,
    getElem?_nibbles_odd, List.getD_eq_getElem?_getD]
  cases bs[i]? with
  | none => rfl
  | some b => exact join_hi_lo b

theorem cell_of_length_le {xs : List Nibble} {i : Nat} (h : xs.length ≤ 2 * i) :
    cell xs i = 0 := by
  simp [cell, h, Nat.le_succ_of_le h]

/-- A nibble that opens a cell. -/
theorem cell_concat_even {xs : List Nibble} {i : Nat} (h : xs.length = 2 * i) (x : Nibble) :
    cell (xs ++ [x]) i = join x 0 := by
  simp [cell, ← h]

/-- A nibble that completes a cell. -/
theorem cell_concat_odd {xs : List Nibble} {i : Nat} (h : xs.length = 2 * i + 1) (x : Nibble) :
    cell (xs ++ [x]) i = join (xs.getD (2 * i) 0) x := by
  have h' : 2 * i < xs.length := by omega
  simp [cell, ← h, List.getElem?_append_left, h']

/-- A nibble changes no cell but its own. -/
theorem cell_concat_of_ne {xs : List Nibble} {i : Nat} (h : xs.length / 2 ≠ i) (x : Nibble) :
    cell (xs ++ [x]) i = cell xs i := by
  rcases Nat.lt_or_ge (2 * i + 1) xs.length with hlt | hge
  · simp [cell, List.getElem?_append_left, hlt, Nat.lt_of_succ_lt hlt]
  · rw [cell_of_length_le (by simp; omega), cell_of_length_le (by omega)]

/-- Clearing the last byte of a stream clears its cell and no other. -/
theorem cell_dropLast_append_zeros {xs : List Nibble} (ho : xs.length % 2 = 1) (d : Nibble)
    (i : Nat) :
    cell (xs.dropLast ++ [0, 0]) i = if xs.length / 2 = i then 0 else cell (xs ++ [d]) i := by
  rcases List.eq_nil_or_concat' xs with rfl | ⟨ys, x, rfl⟩
  · simp at ho
  · have hlen : (ys ++ [x]).length = ys.length + 1 := by simp
    have hlen0 : (ys ++ [0]).length = ys.length + 1 := by simp
    -- two zeros in place of the last nibble and of `d`, which complete the same cell
    have hsplit : (ys ++ [x]).dropLast ++ [0, 0] = ys ++ [0] ++ [0] := by simp
    rw [hsplit]
    split
    · next h =>
      have hys : ys.length = 2 * i := by omega
      rw [cell_concat_odd (by omega)]
      simp [← hys]
    · next h =>
      rw [cell_concat_of_ne (by omega), cell_concat_of_ne (by omega), cell_concat_of_ne (by omega),
        cell_concat_of_ne (by omega)]

/-- A stream of whole bytes is the nibble stream of its cells. -/
theorem nibbles_cells {xs : List Nibble} {k : Nat} (h : xs.length = 2 * k) :
    nibbles ((List.range k).map (cell xs)) = xs := by
  induction k generalizing xs with
  | zero => exact (List.length_eq_zero_iff.mp h).symm
  | succ k ih =>
      obtain ⟨ys, l, rfl⟩ := (List.eq_nil_or_concat' xs).resolve_left (by rintro rfl; simp at h)
      obtain ⟨zs, x, rfl⟩ := (List.eq_nil_or_concat' ys).resolve_left
        (by rintro rfl; simp at h; omega)
      have hzs : zs.length = 2 * k := by simp at h; omega
      have hys : (zs ++ [x]).length = 2 * k + 1 := by simp [hzs]
      -- the last two nibbles are the cell `k`, and change none before it
      have hcells : (List.range k).map (cell (zs ++ [x] ++ [l])) =
          (List.range k).map (cell zs) := by
        apply List.map_congr_left
        intro i hi
        have := List.mem_range.mp hi
        rw [cell_concat_of_ne (by omega), cell_concat_of_ne (by omega)]
      have hlast : cell (zs ++ [x] ++ [l]) k = join x l := by
        rw [cell_concat_odd hys, ← hzs]; simp
      rw [List.range_succ, List.map_append, hcells, nibbles_append, ih hzs, List.map_singleton,
        hlast]
      simp

theorem cells_nibbles (bs : List UInt8) :
    (List.range bs.length).map (cell (nibbles bs)) = bs := by
  apply List.ext_getElem
  · simp
  · intro i h1 h2
    simp [h2]

end Nibble
