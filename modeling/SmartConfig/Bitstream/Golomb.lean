import Mathlib.Data.List.GetD
import SmartConfig.Bitstream.Write

/-!
# `bitstream.h`: Exp-Golomb codes

`bs_write_ue` writes `v + 1` behind as many zeros as it has digits after its first one, and
`bs_read_ue` counts the zeros to find its digits. In the arithmetic of the machine (modulo 2^32,
and with nothing left of a number shifted by its width) this goes well for every number but the
largest (`bsReadUe_written`). `bs_read_se` takes the number for a signed one before it unfolds it,
so that the upper half of the signed numbers comes back wrong (`se_roundtrip_iff`).
-/

namespace SmartConfig

open BitString

/-! ## The code -/

/-- `len_table`: the number of digits of a byte. -/
def len_table : List Nat :=
  [1, 1, 2, 2] ++ List.replicate 4 3 ++ List.replicate 8 4 ++ List.replicate 16 5 ++
    List.replicate 32 6 ++ List.replicate 64 7 ++ List.replicate 128 8

/-- The `len` of `bs_write_ue`, after `v++`. -/
def ueLen (v : UInt32) : Nat :=
  if v ≥ 0x01000000 then 24 + len_table.getD (shiftRight32 v 24).toNat 0
  else if v ≥ 0x00010000 then 16 + len_table.getD (shiftRight32 v 16).toNat 0
  else if v ≥ 0x00000100 then 8 + len_table.getD (shiftRight32 v 8).toNat 0
  else len_table.getD v.toNat 0

/-- `bs_write_ue`. -/
def bsWriteUe (v : UInt32) : StateM BsT Unit :=
  if v = 0 then bsWriteU1 1
  else bsWriteU (2 * (ueLen (v + 1) : Int) - 1) (v + 1)

/-- `bs_write_se`. -/
def bsWriteSe (v : Int32) : StateM BsT Unit :=
  if v ≤ 0 then bsWriteUe (-v * 2).toUInt32
  else bsWriteUe (v * 2 - 1).toUInt32

/-- The `while` loop of `bs_read_ue`, with `k` more rounds before `i < 32` ends it: `i` is
`32 - k`. What it returns is `i`. -/
def bsReadUeLoop : Nat → StateM BsT Nat
  | 0 => do
    let _ ← bsReadU1
    pure 32
  | k + 1 => do
    let bit ← bsReadU1
    let b ← get
    if bit = 0 ∧ ¬ bsEof b then bsReadUeLoop k else pure (32 - (k + 1))

/-- `bs_read_ue`. -/
def bsReadUe : StateM BsT UInt32 := do
  let i ← bsReadUeLoop 32
  let r ← bsReadU i
  pure (r.toInt32 + ((shiftLeft32 1 i).toInt32 - 1)).toUInt32

/-- What `bs_read_se` makes of the unsigned number. -/
def seOfUe (u : UInt32) : Int32 :=
  let r := u.toInt32
  if r &&& 0x01 ≠ 0 then (r + 1) / 2 else -(r / 2)

/-- `bs_read_se`. -/
def bsReadSe : StateM BsT Int32 := do
  let u ← bsReadUe
  pure (seOfUe u)

/-! ## The length of a code -/

/-- The table row by row: `2 ^ n` bytes have `n + 1` digits, behind the entry for zero. -/
def lenRows : Nat → List Nat
  | 0 => [1]
  | n + 1 => lenRows n ++ List.replicate (2 ^ n) (n + 1)

theorem len_table_eq : len_table = lenRows 8 := rfl

@[simp] theorem length_lenRows (n : Nat) : (lenRows n).length = 2 ^ n := by
  induction n with
  | zero => rfl
  | succ n ih =>
      rw [lenRows, List.length_append, List.length_replicate, ih, Nat.pow_succ]
      omega

theorem lenRows_size {i n : Nat} (h0 : i ≠ 0) (hi : i < 2 ^ n) : (lenRows n).getD i 0 = i.size := by
  induction n with
  | zero => omega
  | succ n ih =>
      have hlength := length_lenRows n
      rw [lenRows]
      rcases Nat.lt_or_ge i (2 ^ n) with hlt | hge
      · rw [List.getD_append _ _ _ _ (by omega)]
        exact ih hlt
      · -- In the last row a number has all the digits.
        have hrow : i - 2 ^ n < 2 ^ n := by
          rw [Nat.pow_succ] at hi
          omega
        have hsize : i.size = n + 1 := Nat.le_antisymm (Nat.size_le.mpr hi) (Nat.lt_size.mpr hge)
        rw [List.getD_append_right _ _ _ _ (by omega), hlength, List.getD_replicate _ hrow, hsize]

/-- The table is right, but for its entry for zero. -/
theorem len_table_size {i : Nat} (h0 : i ≠ 0) (hi : i < 256) : len_table.getD i 0 = i.size := by
  rw [len_table_eq]
  exact lenRows_size h0 hi

/-- Each of the four ranges counts the digits that it has shifted out. -/
theorem len_table_shiftRight {v : UInt32} {k : Nat} (hk : k < 32) (hlo : 2 ^ k ≤ v.toNat)
    (hhi : v.toNat < 2 ^ k * 256) :
    k + len_table.getD (shiftRight32 v k).toNat 0 = v.toNat.size := by
  have hshift : (shiftRight32 v k).toNat = v.toNat / 2 ^ k := by
    rw [shiftRight32, if_pos hk, UInt32.toNat_shiftRight, toNat_ofNat32 hk, Nat.mod_eq_of_lt hk,
      Nat.shiftRight_eq_div_pow]
  have hne : v.toNat / 2 ^ k ≠ 0 := Nat.pos_iff_ne_zero.mp (Nat.div_pos hlo (Nat.two_pow_pos k))
  rw [hshift, len_table_size hne (Nat.div_lt_of_lt_mul hhi), ← size_eq_add hne]

/-- `len` is the number of digits. -/
theorem ueLen_eq {v : UInt32} (hv : v ≠ 0) : ueLen v = v.toNat.size := by
  have hlt := v.toNat_lt
  have hpos : v.toNat ≠ 0 := fun h => hv (UInt32.toNat_inj.mp h)
  rw [ueLen]
  split
  · next h => exact len_table_shiftRight (by decide) (UInt32.le_iff_toNat_le.mp h) (by omega)
  · next h24 =>
    have hhi24 : v.toNat < 2 ^ 24 := Nat.lt_of_not_le fun h => h24 (UInt32.le_iff_toNat_le.mpr h)
    split
    · next h => exact len_table_shiftRight (by decide) (UInt32.le_iff_toNat_le.mp h) (by omega)
    · next h16 =>
      have hhi16 : v.toNat < 2 ^ 16 := Nat.lt_of_not_le fun h => h16 (UInt32.le_iff_toNat_le.mpr h)
      split
      · next h => exact len_table_shiftRight (by decide) (UInt32.le_iff_toNat_le.mp h) (by omega)
      · next h8 =>
        exact len_table_size hpos (Nat.lt_of_not_le fun h => h8 (UInt32.le_iff_toNat_le.mpr h))

/-! ## Writing and reading -/

/-- The room that the code of `v` takes. -/
def ueWidth (v : UInt32) : Nat := codeWidth (v.toNat + 1)

theorem toNat_succ {v : UInt32} (hv : v.toNat ≤ 2 ^ 32 - 2) : (v + 1).toNat = v.toNat + 1 := by
  rw [UInt32.toNat_add, UInt32.toNat_one]
  omega

theorem ueLen_succ {v : UInt32} (hv : v.toNat ≤ 2 ^ 32 - 2) :
    ueLen (v + 1) = (v.toNat + 1).size := by
  have hsucc := toNat_succ hv
  have hne : v + 1 ≠ 0 := fun h0 => by
    rw [h0] at hsucc
    exact absurd hsucc (Nat.succ_ne_zero _).symm
  rw [ueLen_eq hne, hsucc]

/-- The signed sum of `bs_read_ue` is an unsigned one, modulo 2^32. -/
theorem toUInt32_sum (r x : UInt32) : (r.toInt32 + (x.toInt32 - 1)).toUInt32 = r + (x - 1) := rfl

theorem toNat_shiftLeft32_one {i : Nat} (hi : i < 32) : (shiftLeft32 1 i).toNat = 2 ^ i := by
  have hbit := toNat_shiftLeft32_bit (x := 1) (c := true) rfl hi
  rw [hbit, Bool.toNat_true, Nat.one_shiftLeft]

namespace BsT.Wf

variable {b c : BsT}

/-- `bs_write_ue` writes a code. -/
theorem bsWriteUe_wrote (h : b.Wf) {v : UInt32} (hv : v.toNat ≤ 2 ^ 32 - 2)
    (hroom : b.bitPos + ueWidth v ≤ 8 * b.buf.length) :
    Wrote (ueWidth v) (v.toNat + 1) b (bsWriteUe v b).2 := by
  rw [bsWriteUe]
  split
  · next h0 =>
    subst h0
    exact h.bsWriteU1_wrote hroom 1
  · next h0 =>
    have hlen : (2 * (ueLen (v + 1) : Int) - 1).toNat = ueWidth v := by
      rw [ueLen_succ hv, ueWidth, codeWidth]
      omega
    rw [bsWriteU, hlen, ← toNat_succ hv]
    exact h.bsWriteULoop_wrote hroom (v + 1)

/-- A round of the loop. -/
theorem bsReadUeLoop_succ (k : Nat) (c : BsT) :
    bsReadUeLoop (k + 1) c =
      if (bsReadU1 c).1 = 0 ∧ ¬ bsEof c.next then bsReadUeLoop k c.next
      else (32 - (k + 1), c.next) := by
  rw [bsReadUeLoop, bind_run, bind_run]
  show (if (bsReadU1 c).1 = 0 ∧ ¬ bsEof c.next then bsReadUeLoop k
    else pure (32 - (k + 1)) : StateM BsT Nat) c.next = _
  split <;> rfl

/-- The loop of `bs_read_ue` counts the zeros in front of a one, as long as the buffer does not end
in them. -/
theorem bsReadUeLoop_zeros (hc : c.Wf) {m k : Nat} (hmk : m ≤ k) (hk : k ≤ 32)
    (hzero : ∀ i < m, c.bits (c.bitPos + i) = false) (hone : c.bits (c.bitPos + m) = true)
    (hroom : c.bitPos + m < 8 * c.buf.length) :
    (bsReadUeLoop k c).1 = 32 - k + m ∧ Moved (m + 1) c (bsReadUeLoop k c).2 := by
  have hnext := hc.next
  induction m generalizing c k with
  | zero =>
      have hbit : (bsReadU1 c).1.toNat = 1 := by
        rw [hc.bsReadU1_bit, show c.bits c.bitPos = true from hone]
        rfl
      cases k with
      | zero => exact ⟨rfl, hnext⟩
      | succ k =>
          have hne : ¬ (bsReadU1 c).1 = 0 := fun h0 => by
            rw [h0] at hbit
            exact absurd hbit (by decide)
          rw [bsReadUeLoop_succ, if_neg fun hgo => hne hgo.1]
          exact ⟨rfl, hnext⟩
  | succ m ih =>
      obtain ⟨k, rfl⟩ : ∃ j, k = j + 1 := ⟨k - 1, by omega⟩
      have hbit : (bsReadU1 c).1 = 0 := by
        apply UInt32.toNat_inj.mp
        rw [hc.bsReadU1_bit, show c.bits c.bitPos = false from hzero 0 (by omega)]
        rfl
      have heof : ¬ bsEof c.next := fun heof => by
        have := hnext.wf.bsEof_iff.mp heof
        rw [hnext.buf, hnext.bitPos] at this
        omega
      have hbits : ∀ i, c.next.bits (c.next.bitPos + i) = c.bits (c.bitPos + (i + 1)) := fun i => by
        rw [hnext.bits, hnext.bitPos, Nat.add_assoc, Nat.add_comm 1]
      obtain ⟨hval, hbuf, hwf, hpos⟩ := ih hnext.wf (k := k) (by omega) (by omega)
        (fun i hi => (hbits i).trans (hzero (i + 1) (by omega))) ((hbits m).trans hone)
        (by rw [hnext.buf, hnext.bitPos]; omega) hnext.wf.next
      rw [bsReadUeLoop_succ, if_pos ⟨hbit, heof⟩]
      refine ⟨by omega, hbuf.trans hnext.buf, hwf, ?_⟩
      rw [hpos, hnext.bitPos]
      omega

/-- The zeros of a code are as many as its number has digits after the first. -/
theorem bsReadUeLoop_code (hc : c.Wf) {v : UInt32} (hv : v.toNat ≤ 2 ^ 32 - 2)
    (hcode : HoldsCode c.bits c.bitPos (v.toNat + 1))
    (hroom : c.bitPos + ueWidth v ≤ 8 * c.buf.length) :
    (bsReadUeLoop 32 c).1 = (v.toNat + 1).size - 1 ∧
      Moved (v.toNat + 1).size c (bsReadUeLoop 32 c).2 := by
  have hpos : 0 < v.toNat + 1 := Nat.succ_pos _
  have hsize := Nat.size_pos.mpr hpos
  have hle : (v.toNat + 1).size ≤ 32 := Nat.size_le.mpr (by omega)
  rw [ueWidth, codeWidth] at hroom
  obtain ⟨hi, hzeros⟩ := hc.bsReadUeLoop_zeros (m := (v.toNat + 1).size - 1) (k := 32) (by omega)
    (Nat.le_refl 32) (fun i hi => hcode.zero (by omega)) (hcode.one hpos) (by omega)
  rw [Nat.sub_self, Nat.zero_add] at hi
  rw [Nat.sub_add_cancel hsize] at hzeros
  exact ⟨hi, hzeros⟩

/-- Reading a code. -/
theorem bsReadUe_code (hc : c.Wf) {v : UInt32} (hv : v.toNat ≤ 2 ^ 32 - 2)
    (hcode : HoldsCode c.bits c.bitPos (v.toNat + 1))
    (hroom : c.bitPos + ueWidth v ≤ 8 * c.buf.length) :
    (bsReadUe c).1 = v ∧ Moved (ueWidth v) c (bsReadUe c).2 := by
  have hpos : 0 < v.toNat + 1 := Nat.succ_pos _
  have hsize := Nat.size_pos.mpr hpos
  have hle : (v.toNat + 1).size ≤ 32 := Nat.size_le.mpr (by omega)
  obtain ⟨hi, hzeros⟩ := hc.bsReadUeLoop_code hv hcode hroom
  have hdigits := bsReadU_moved hzeros.wf ((v.toNat + 1).size - 1 : Nat)
  have hval := hzeros.wf.bsReadU_toNat (n := (v.toNat + 1).size - 1) (by omega)
  have hrest := hcode.rest hpos
  rw [← hzeros.bitPos, ← hzeros.bits, ← hval] at hrest
  have hhigh := toNat_shiftLeft32_one (show (v.toNat + 1).size - 1 < 32 by omega)
  rw [bsReadUe, bind_run, bind_run, hi, pure_run, toUInt32_sum]
  refine ⟨UInt32.toNat_inj.mp ?_, hdigits.buf.trans hzeros.buf, hdigits.wf, ?_⟩
  · have htwo := Nat.two_pow_pos ((v.toNat + 1).size - 1)
    have hone : (1 : UInt32) ≤ shiftLeft32 1 ((v.toNat + 1).size - 1) := by
      rw [UInt32.le_iff_toNat_le, hhigh]
      exact htwo
    rw [UInt32.toNat_add, UInt32.toNat_sub_of_le _ _ hone, hhigh, UInt32.toNat_one]
    omega
  · rw [hdigits.bitPos, hzeros.bitPos, ueWidth, codeWidth]
    omega

end BsT.Wf

/-- What `bs_write_ue` leaves at the place where it began. -/
theorem holdsCode_written {b : BsT} (h : b.Wf) {v : UInt32} (hv : v.toNat ≤ 2 ^ 32 - 2)
    (hroom : b.bitPos + ueWidth v ≤ 8 * b.buf.length) :
    HoldsCode ((bsWriteUe v b).2.seek b).bits b.bitPos (v.toNat + 1) ∧
      b.bitPos + ueWidth v ≤ 8 * ((bsWriteUe v b).2.seek b).buf.length := by
  have hwrote := h.bsWriteUe_wrote hv hroom
  constructor
  · rw [BsT.bits_congr (show ((bsWriteUe v b).2.seek b).buf = (bsWriteUe v b).2.buf from rfl),
      hwrote.bits]
    exact holdsCode_put _ _ _
  · show _ ≤ 8 * (bsWriteUe v b).2.buf.length
    rw [hwrote.length]
    exact hroom

/-- **In the arithmetic of the machine**, every number but the largest is read back, and the reader
ends where the writer did. -/
theorem bsReadUe_written {b : BsT} (h : b.Wf) {v : UInt32} (hv : v.toNat ≤ 2 ^ 32 - 2)
    (hroom : b.bitPos + ueWidth v ≤ 8 * b.buf.length) :
    bsReadUe ((bsWriteUe v b).2.seek b) = (v, (bsWriteUe v b).2) := by
  have hwrote := h.bsWriteUe_wrote hv hroom
  have hseek : ((bsWriteUe v b).2.seek b).Wf := h
  obtain ⟨hcode, hroom'⟩ := holdsCode_written h hv hroom
  obtain ⟨hval, hmoved⟩ := hseek.bsReadUe_code hv hcode hroom'
  exact Prod.ext hval (hmoved.wf.ext hwrote.wf hmoved.buf (hmoved.bitPos.trans hwrote.bitPos.symm))

/-! ## Signed numbers -/

/-- The number that stands for a signed one: 0, 1, -1, 2, -2, … are 0, 1, 2, 3, 4, … -/
def seCode (x : Int) : Nat := if x ≤ 0 then (-(2 * x)).toNat else (2 * x - 1).toNat

theorem toInt_toInt32 (u : UInt32) :
    u.toInt32.toInt = if u.toNat < 2 ^ 31 then (u.toNat : Int) else u.toNat - 2 ^ 32 := by
  have hlt := u.toNat_lt
  have h : u.toInt32.toInt = (u.toNat : Int).bmod (2 ^ 32) := BitVec.toInt_eq_toNat_bmod u.toBitVec
  rw [h, Int.bmod_def]
  split <;> split <;> omega

theorem bmod_emod32 (x : Int) : x.bmod (2 ^ 32) % 2 ^ 32 = x % 2 ^ 32 := by
  rw [Int.bmod_def]
  split <;> omega

theorem toNat_toUInt32 (x : Int32) : (x.toUInt32.toNat : Int) = x.toInt % 2 ^ 32 := by
  have h := toInt_toInt32 x.toUInt32
  have hlt := x.toUInt32.toNat_lt
  rw [Int32.toInt32_toUInt32] at h
  rw [h]
  split <;> omega

/-- `r & 0x01`, on the bits of a negative number too. -/
theorem odd_iff (u : UInt32) : u.toInt32 &&& 0x01 ≠ 0 ↔ u.toNat % 2 = 1 := by
  have hand : u.toInt32 &&& 0x01 = (u &&& 1).toInt32 := rfl
  have hzero : (u &&& 1).toInt32 = 0 ↔ u &&& 1 = 0 :=
    ⟨fun h => congrArg Int32.toUInt32 h, fun h => congrArg UInt32.toInt32 h⟩
  rw [hand, Ne, hzero, ← UInt32.toNat_inj, UInt32.toNat_and, UInt32.toNat_one,
    Nat.and_one_is_mod, UInt32.toNat_zero]
  omega

theorem tdiv_two {x : Int} (h : x % 2 = 0) : x.tdiv 2 = x / 2 :=
  Int.tdiv_eq_ediv_of_dvd (Int.dvd_of_emod_eq_zero h)

/-- What `bs_read_se` returns, with the one case in which its sum overflows. -/
theorem toInt_seOfUe (u : UInt32) :
    (seOfUe u).toInt =
      if u.toNat % 2 = 1 then
        if u.toNat = 2 ^ 31 - 1 then -2 ^ 30 else (u.toInt32.toInt + 1) / 2
      else -(u.toInt32.toInt / 2) := by
  have hlt := u.toNat_lt
  have hsigned := toInt_toInt32 u
  have hlow := u.toInt32.le_toInt
  have hhigh := u.toInt32.toInt_lt
  have hdvd : u.toInt32.toInt % 2 = (u.toNat : Int) % 2 := by
    rw [hsigned]
    split <;> omega
  rw [seOfUe]
  by_cases hodd : u.toNat % 2 = 1
  · have hadd : (u.toInt32 + 1).toInt =
        if u.toNat = 2 ^ 31 - 1 then -2 ^ 31 else u.toInt32.toInt + 1 := by
      rw [Int32.toInt_add, Int32.toInt_one, Int.bmod_def]
      split at hsigned <;> split <;> split <;> omega
    have hdiv : (u.toInt32 + 1).toInt % 2 = 0 := by
      rw [hadd]
      split <;> omega
    rw [if_pos ((odd_iff u).mpr hodd), if_pos hodd, Int32.toInt_div_of_ne_right _ _ (by decide),
      show (2 : Int32).toInt = 2 from rfl, tdiv_two hdiv, hadd]
    split <;> rfl
  · have hhalf : (u.toInt32 / 2).toInt = u.toInt32.toInt / 2 := by
      rw [Int32.toInt_div_of_ne_right _ _ (by decide), show (2 : Int32).toInt = 2 from rfl]
      exact tdiv_two (by omega)
    rw [if_neg fun h => hodd ((odd_iff u).mp h), if_neg hodd, Int32.toInt_neg, hhalf, Int.bmod_def]
    split <;> omega

/-- `bs_write_se` writes the number that stands for its argument; doubling wraps, but the unsigned
number is the one meant. -/
theorem bsWriteSe_eq {v : Int32} (hv : -(2 ^ 31 - 1) ≤ v.toInt) :
    ∃ u, bsWriteSe v = bsWriteUe u ∧ u.toNat = seCode v.toInt := by
  have hhigh := v.toInt_lt
  have htwo : (2 : Int32).toInt = 2 := rfl
  have hle : v ≤ 0 ↔ v.toInt ≤ 0 := Int32.le_iff_toInt_le
  by_cases h0 : v ≤ 0
  · refine ⟨_, if_pos h0, Int.ofNat_inj.mp ?_⟩
    have hx := hle.mp h0
    have hneg : (-v.toInt).bmod (2 ^ 32) = -v.toInt := by
      rw [Int.bmod_def]
      split <;> omega
    rw [toNat_toUInt32, Int32.toInt_mul, bmod_emod32, Int32.toInt_neg, hneg, htwo, seCode,
      if_pos hx]
    omega
  · refine ⟨_, if_neg h0, Int.ofNat_inj.mp ?_⟩
    have hx : ¬ v.toInt ≤ 0 := fun h => h0 (hle.mpr h)
    rw [toNat_toUInt32, Int32.toInt_sub, bmod_emod32, Int32.toInt_mul, htwo, Int32.toInt_one,
      Int.bmod_def, seCode, if_neg hx]
    split <;> omega

/-- **Signed numbers read back as written exactly in the inner half of their range**; outside it the
number read does not fit the signed type it is kept in. -/
theorem se_roundtrip_iff (v : Int32) (hv : -(2 ^ 31 - 1) ≤ v.toInt) (b : BsT) (h : b.Wf)
    (hroom : b.bitPos + codeWidth (seCode v.toInt + 1) ≤ 8 * b.buf.length) :
    (bsReadSe ((bsWriteSe v b).2.seek b)).1 = v ↔ -2 ^ 30 < v.toInt ∧ v.toInt < 2 ^ 30 := by
  have hhigh := v.toInt_lt
  obtain ⟨u, hwrite, hu⟩ := bsWriteSe_eq hv
  have hmax : u.toNat ≤ 2 ^ 32 - 2 := by
    rw [hu, seCode]
    split <;> omega
  have hread : (bsReadSe ((bsWriteSe v b).2.seek b)).1 = seOfUe u := by
    rw [hwrite, bsReadSe, bind_run, bsReadUe_written h hmax (by rw [ueWidth, hu]; exact hroom)]
    rfl
  rw [hread, ← Int32.toInt_inj, toInt_seOfUe, toInt_toInt32, hu, seCode]
  split <;> split <;> split <;> omega

theorem se_roundtrip_iff_five :
    (bsReadSe ((bsWriteSe (-5) (bsSkipU 3 (bsInit [0xFF, 0xFF] 2)).2).2.seek
      (bsSkipU 3 (bsInit [0xFF, 0xFF] 2)).2)).1 = -5 := by
  have hmoved := bsSkipU_bsInit [0xFF, 0xFF] 2 3
  exact (se_roundtrip_iff (-5) (by decide) _ hmoved.wf (by decide +kernel)).mpr (by decide)

/-- The first number that is lost: its code is 2^31 - 1, and `r + 1` overflows. -/
theorem not_se_roundtrip :
    ¬ ∀ (v : Int32) (b : BsT), -(2 ^ 31 - 1) ≤ v.toInt → b.Wf →
      b.bitPos + codeWidth (seCode v.toInt + 1) ≤ 8 * b.buf.length →
        (bsReadSe ((bsWriteSe v b).2.seek b)).1 = v := by
  intro h
  have hback := h 1073741824 (bsInit (List.replicate 8 0) 8) (by decide) (wf_bsInit _ _)
    (by decide +kernel)
  exact absurd hback (by decide +kernel)

end SmartConfig
