import Mathlib.Algebra.Ring.Int.Defs
import SmartConfig.Bitstream.Codec
import SmartConfig.Bitstream.Stream

/-!
# `bitstream.h`: every format

Bit fields, bytes, both Exp-Golomb codes, runs of bytes and strings, in any order: a format is a
list of kinds. Each kind is a codec, so that every format is one, and both round trips hold of it
(`format_read_written`, `format_write_read`). Codes are those of the numbers up to 2^16 - 2, which
are written and read within defined arithmetic (`ue_roundtrip_iff`).
-/

namespace SmartConfig

open BitString BsCodec

/-! ## Bit fields -/

section Fields

variable {b : BsT}

/-- `bs_write_u` and `bs_read_u`. -/
def bsU (n : Nat) : BsCodec UInt32 where
  write v := bsWriteU n v
  read := bsReadU n
  fields v := [⟨n, v.toNat⟩]
  valid _ v := n ≤ 32 ∧ v.toNat < 2 ^ n
  complete b := n ≤ 32 ∧ b.Room n
  fits h := List.forall_mem_singleton.mpr h.2
  write_laid h := (h.wf.bsWriteU_wrote h.room _).laid
  read_stands h := by
    have hval := h.wf.bsReadU_toNat h.valid.1
    rw [h.holds.1] at hval
    exact ⟨UInt32.toNat_inj.mp hval, bsReadU_moved h.wf n⟩
  stands_of_complete {b} h hcomplete := by
    have hval := h.bsReadU_toNat hcomplete.1
    refine ⟨⟨h, ⟨hcomplete.1, ?_⟩, hcomplete.2⟩, hval.symm, trivial⟩
    rw [hval]
    exact field_lt _ _ _

/-- `bs_write_u8` and `bs_read_u8`. -/
def bsU8 : BsCodec UInt32 where
  write v := bsWriteU8 v
  read := bsReadU8
  fields v := [⟨8, v.toNat⟩]
  valid _ v := v.toNat < 2 ^ 8
  complete b := b.Room 8
  fits h := List.forall_mem_singleton.mpr h
  write_laid h := by
    rw [h.wf.bsWriteU8_eq]
    exact ((bsU 8).write_laid ⟨h.wf, ⟨by decide, h.valid⟩, h.room⟩)
  read_stands h := by
    rw [h.wf.bsReadU8_eq]
    exact ((bsU 8).read_stands ⟨⟨h.wf, ⟨by decide, h.valid⟩, h.room⟩, h.holds⟩)
  stands_of_complete h hroom := by
    rw [h.bsReadU8_eq]
    obtain ⟨⟨hwf, hvalid, hroom⟩, hholds⟩ := (bsU 8).stands_of_complete h ⟨by decide, hroom⟩
    exact ⟨⟨hwf, hvalid.2, hroom⟩, hholds⟩

end Fields

/-! ## Exp-Golomb codes -/

section Golomb

variable {b : BsT} {m : Nat}

/-- A whole code with `m` zeros in front of its first digit. -/
structure BsT.Code (b : BsT) (m : Nat) : Prop where
  zeros : ∀ i < m, b.bits (b.bitPos + i) = false
  one : b.bits (b.bitPos + m) = true
  room : b.Room (2 * m + 1)

/-- The number that the code is of. -/
theorem BsT.Code.number (h : b.Code m) :
    ∃ w, w.size = m + 1 ∧ HoldsCode b.bits b.bitPos w := by
  have hbit : ∀ i, (b.bits.field b.bitPos (2 * m + 1)).testBit i =
      (decide (i < 2 * m + 1) && b.bits (b.bitPos + (2 * m + 1 - 1 - i))) := testBit_field _ _ _
  have hlow : 2 ^ m ≤ b.bits.field b.bitPos (2 * m + 1) := by
    apply Nat.ge_two_pow_of_testBit
    rw [hbit, decide_eq_true (by omega), Bool.true_and, show 2 * m + 1 - 1 - m = m from by omega]
    exact h.one
  have hhigh : b.bits.field b.bitPos (2 * m + 1) < 2 ^ (m + 1) := by
    apply Nat.lt_pow_two_of_testBit
    intro i hi
    rw [hbit]
    by_cases hlt : i < 2 * m + 1
    · rw [h.zeros _ (by omega), Bool.and_false]
    · rw [decide_eq_false hlt, Bool.false_and]
  have hsize : (b.bits.field b.bitPos (2 * m + 1)).size = m + 1 :=
    Nat.le_antisymm (Nat.size_le.mpr hhigh) (Nat.lt_size.mpr hlow)
  refine ⟨_, hsize, ?_⟩
  rw [HoldsCode, codeWidth, hsize, show 2 * (m + 1) - 1 = 2 * m + 1 from by omega]

/-- What `bs_read_ue` finds behind at most fifteen zeros. -/
theorem BsT.Code.ue (h : b.Code m) (hm : m ≤ 15) :
    ∃ u : UInt32, u.toNat ≤ 2 ^ 16 - 2 ∧
      HoldsCode b.bits b.bitPos (u.toNat + 1) ∧ b.Room (ueWidth u) := by
  obtain ⟨w, hsize, hcode⟩ := h.number
  have hlt : w < 2 ^ (m + 1) := hsize ▸ Nat.lt_size_self w
  have hpos : 0 < w := Nat.size_pos.mp (by omega)
  have hle : 2 ^ (m + 1) ≤ 2 ^ 16 := Nat.pow_le_pow_right (by decide) (by omega)
  obtain ⟨u, rfl⟩ : ∃ u : UInt32, u.toNat + 1 = w := by
    have hlow : (UInt32.ofNat (w - 1)).toNat = w - 1 :=
      UInt32.toNat_ofNat_of_lt (show w - 1 < 2 ^ 32 by omega)
    exact ⟨_, hlow ▸ Nat.sub_add_cancel hpos⟩
  refine ⟨u, by omega, hcode, ?_⟩
  rw [ueWidth, codeWidth, hsize, show 2 * (m + 1) - 1 = 2 * m + 1 from by omega]
  exact h.room

/-- `bs_write_ue` and `bs_read_ue`. -/
def bsUe : BsCodec UInt32 where
  write v := bsWriteUe v
  read := bsReadUe
  fields v := [⟨ueWidth v, v.toNat + 1⟩]
  valid _ v := v.toNat ≤ 2 ^ 16 - 2
  complete b := ∃ m ≤ 15, b.Code m
  fits _ := List.forall_mem_singleton.mpr (fits_code _)
  write_laid h := (h.wf.bsWriteUe_wrote (h.valid.trans (by decide)) h.room).laid
  read_stands h := h.wf.bsReadUe_code (h.valid.trans (by decide)) h.holds.1 h.room
  stands_of_complete h hcomplete := by
    obtain ⟨m, hm, hcode⟩ := hcomplete
    obtain ⟨u, hmax, hholds, hroom⟩ := hcode.ue hm
    rw [(h.bsReadUe_code (hmax.trans (by decide)) hholds hroom).1]
    exact ⟨⟨h, hmax, hroom⟩, hholds, trivial⟩

/-- The signed numbers whose codes are written within defined arithmetic. -/
theorem seCode_le_iff {x : Int} :
    seCode x ≤ 2 ^ 16 - 2 ↔ -(2 ^ 15 - 1) ≤ x ∧ x ≤ 2 ^ 15 - 1 := by
  rw [seCode]
  split <;> omega

/-- Such a number is found from its code. -/
theorem seOfUe_eq {u : UInt32} {v : Int32} (hu : u.toNat = seCode v.toInt)
    (hmax : u.toNat ≤ 2 ^ 16 - 2) : seOfUe u = v := by
  rw [← Int32.toInt_inj, toInt_seOfUe, toInt_toInt32]
  rw [seCode] at hu
  split at hu <;> split <;> split <;> omega

/-- Every number there is the code of one. -/
theorem seCode_seOfUe {u : UInt32} (hu : u.toNat ≤ 2 ^ 16 - 2) :
    seCode (seOfUe u).toInt = u.toNat := by
  have hval : (seOfUe u).toInt =
      if u.toNat % 2 = 1 then ((u.toNat : Int) + 1) / 2 else -((u.toNat : Int) / 2) := by
    rw [toInt_seOfUe, toInt_toInt32, if_pos (show u.toNat < 2 ^ 31 by omega),
      if_neg (show ¬ u.toNat = 2 ^ 31 - 1 by omega)]
  rw [hval, seCode]
  split <;> split <;> omega

/-- What `bs_write_se` writes for a number there. -/
theorem bsWriteSe_small {v : Int32} (hv : -(2 ^ 15 - 1) ≤ v.toInt ∧ v.toInt ≤ 2 ^ 15 - 1) :
    ∃ u, bsWriteSe v = bsWriteUe u ∧ u.toNat = seCode v.toInt ∧ u.toNat ≤ 2 ^ 16 - 2 := by
  obtain ⟨u, hwrite, hu⟩ := bsWriteSe_eq (v := v) (by omega)
  exact ⟨u, hwrite, hu, hu ▸ seCode_le_iff.mpr hv⟩

/-- The signed numbers whose codes are in the range of `bsUe`. -/
def seFormat : BsFormat Int32 where
  write v := bsWriteSe v
  read := bsReadSe
  fields v := [⟨codeWidth (seCode v.toInt + 1), seCode v.toInt + 1⟩]
  valid _ v := -(2 ^ 15 - 1) ≤ v.toInt ∧ v.toInt ≤ 2 ^ 15 - 1
  complete b := ∃ m ≤ 15, b.Code m

theorem seFormat_fields (v : Int32) :
    seFormat.fields v = [⟨codeWidth (seCode v.toInt + 1), seCode v.toInt + 1⟩] := rfl

theorem seFormat_write_laid {v : Int32} (h : seFormat.Writable b v) :
    Laid (seFormat.fields v) b (bsWriteSe v b).2 := by
  obtain ⟨u, hwrite, hu, hmax⟩ := bsWriteSe_small h.valid
  have hroom : b.Room (codeWidth (seCode v.toInt + 1)) := h.room
  rw [← hu] at hroom
  rw [seFormat_fields, hwrite, ← hu]
  exact (h.wf.bsWriteUe_wrote (hmax.trans (by decide)) hroom).laid

theorem seFormat_read_stands {v : Int32} (h : seFormat.Stands b v) :
    (bsReadSe b).1 = v ∧ Moved (span (seFormat.fields v)) b (bsReadSe b).2 := by
  obtain ⟨u, -, hu, hmax⟩ := bsWriteSe_small h.valid
  have hroom : b.Room (codeWidth (seCode v.toInt + 1)) := h.room
  have hcode : HoldsCode b.bits b.bitPos (seCode v.toInt + 1) := h.holds.1
  rw [← hu] at hroom hcode
  obtain ⟨hval, hmoved⟩ := h.wf.bsReadUe_code (hmax.trans (by decide)) hcode hroom
  rw [seFormat_fields, bsReadSe, bind_run, hval, ← hu]
  exact ⟨seOfUe_eq hu hmax, hmoved⟩

theorem seFormat_stands (h : b.Wf) (hcomplete : seFormat.complete b) :
    seFormat.Stands b (bsReadSe b).1 := by
  obtain ⟨m, hm, hcode⟩ := hcomplete
  obtain ⟨u, hmax, hholds, hroom⟩ := hcode.ue hm
  have hsame := seCode_seOfUe hmax
  have hrange := seCode_le_iff.mp (hsame.trans_le hmax)
  rw [bsReadSe, bind_run, (h.bsReadUe_code (hmax.trans (by decide)) hholds hroom).1, pure_run]
  rw [ueWidth] at hroom
  generalize seOfUe u = v at hsame hrange ⊢
  rw [← hsame] at hroom hholds
  exact ⟨⟨h, hrange, hroom⟩, hholds, trivial⟩

/-- `bs_write_se` and `bs_read_se`. -/
def bsSe : BsCodec Int32 where
  toBsFormat := seFormat
  fits _ := List.forall_mem_singleton.mpr (fits_code _)
  write_laid := seFormat_write_laid
  read_stands := seFormat_read_stands
  stands_of_complete := seFormat_stands

end Golomb

/-! ## Bytes and strings -/

section Bytes

variable {f : BitString} {s n : Nat} {b : BsT} {bytes : List UInt8}

/-- Bytes, as fields. -/
def byteFields (bytes : List UInt8) : List Field := bytes.map fun byte => ⟨8, byte.toNat⟩

theorem span_byteFields (bytes : List UInt8) : span (byteFields bytes) = 8 * bytes.length := by
  induction bytes with
  | nil => rfl
  | cons byte bytes ih =>
      show 8 + span (byteFields bytes) = _
      rw [ih, List.length_cons]
      omega

theorem fits_byteFields : ∀ x ∈ byteFields bytes, x.Fits := by
  intro x hx
  obtain ⟨byte, -, rfl⟩ := List.mem_map.mp hx
  exact byte.toNat_lt

/-- Each bit is a bit of one byte. -/
theorem lay_byteFields (f : BitString) (s : Nat) (bytes : List UInt8) (i : Nat) :
    lay f s (byteFields bytes) i =
      if s ≤ i ∧ i < s + 8 * bytes.length then
        (bytes.getD ((i - s) / 8) 0).toNat.testBit (7 - (i - s) % 8)
      else f i := by
  induction bytes generalizing f s with
  | nil => exact (if_neg (by rw [List.length_nil]; omega)).symm
  | cons byte bytes ih =>
      show lay (put f s 8 byte.toNat) (s + 8) (byteFields bytes) i = _
      rw [ih, List.length_cons]
      rcases Nat.lt_or_ge i (s + 8) with hlt | hge
      · rw [if_neg (by omega)]
        by_cases hlo : s ≤ i
        · rw [put_of_mem _ _ ⟨hlo, hlt⟩, if_pos (by omega), show (i - s) / 8 = 0 by omega,
            List.getD_cons_zero, show 7 - (i - s) % 8 = s + 8 - 1 - i by omega]
        · rw [put_of_not_mem _ _ (by omega), if_neg (by omega)]
      · rw [show (i - s) / 8 = (i - (s + 8)) / 8 + 1 by omega, List.getD_cons_succ,
          show (i - (s + 8)) % 8 = (i - s) % 8 by omega, put_of_not_mem _ _ (by omega)]
        by_cases hhi : i < s + 8 * (bytes.length + 1)
        · rw [if_pos (by omega), if_pos (by omega)]
        · rw [if_neg (by omega), if_neg (by omega)]

theorem holdsFields_byteFields :
    HoldsFields f s (byteFields bytes) ↔
      ∀ j < bytes.length, f.field (s + 8 * j) 8 = (bytes.getD j 0).toNat := by
  induction bytes generalizing s with
  | nil => exact ⟨fun _ j hj => absurd hj (Nat.not_lt_zero j), fun _ => trivial⟩
  | cons byte bytes ih =>
      show _ ∧ HoldsFields f (s + 8) (byteFields bytes) ↔ _
      rw [ih, List.length_cons]
      constructor
      · rintro ⟨hfirst, hrest⟩ j hj
        cases j with
        | zero => exact hfirst
        | succ j =>
            rw [show s + 8 * (j + 1) = s + 8 + 8 * j by omega]
            exact hrest j (by omega)
      · intro hall
        refine ⟨hall 0 (Nat.succ_pos _), fun j hj => ?_⟩
        rw [show s + 8 + 8 * j = s + 8 * (j + 1) by omega]
        exact hall (j + 1) (by omega)

/-- At the start of a byte. -/
theorem BsT.Wf.aligned (h : b.Wf) (h8 : 8 ∣ b.bitPos) : b.bits_left = 8 ∧ b.bitPos = 8 * b.p := by
  obtain ⟨h1, h8'⟩ := h
  rw [BsT.bitPos] at h8 ⊢
  omega

theorem actualLen_of_le (hn : b.p + n ≤ b.buf.length) : actualLen b n = n := by
  have hleft : ¬ bsBytesLeft b < n := by
    rw [bsBytesLeft]
    omega
  rw [actualLen, if_neg hleft, if_neg (by omega)]

theorem advance_natCast (b : BsT) (n : Nat) : b.advance n = { b with p := b.p + n } := by
  rw [BsT.advance, if_neg (by omega), Int.toNat_natCast]

theorem advance_moved (h : b.Wf) (n : Nat) : Moved (8 * n) b (b.advance n) := by
  rw [advance_natCast]
  refine ⟨rfl, h, ?_⟩
  show 8 * (b.p + n) + (8 - b.bits_left) = 8 * b.p + (8 - b.bits_left) + 8 * n
  omega

/-- What `memcpy` leaves, inside the buffer. -/
theorem getD_copyIn (memory : Nat → UInt8) (hn : b.p + n ≤ b.buf.length) (j : Nat) :
    (b.copyIn memory n).buf.getD j 0 =
      if b.p ≤ j ∧ j < b.p + n then memory (j - b.p) else b.buf.getD j 0 := by
  have hbefore : (b.buf.take b.p).length = b.p := List.length_take_of_le (by omega)
  have hcopied : (b.buf.take b.p ++ (List.range n).map memory).length = b.p + n := by
    rw [List.length_append, hbefore, List.length_map, List.length_range]
  rw [BsT.copyIn]
  rcases Nat.lt_or_ge j (b.p + n) with hlt | hge
  · rw [List.getD_append _ _ _ _ (by omega)]
    rcases Nat.lt_or_ge j b.p with hlow | hhigh
    · rw [List.getD_append _ _ _ _ (by omega), if_neg (by omega), List.getD_eq_getElem?_getD,
        List.getElem?_take_of_lt hlow, List.getD_eq_getElem?_getD]
    · rw [List.getD_append_right _ _ _ _ (by omega), if_pos ⟨hhigh, hlt⟩, hbefore,
        List.getD_eq_getElem?_getD, List.getElem?_map, List.getElem?_range (by omega)]
      rfl
  · rw [List.getD_append_right _ _ _ _ (by omega), if_neg (by omega), hcopied,
      List.getD_eq_getElem?_getD, List.getElem?_drop, Nat.add_sub_cancel' hge,
      List.getD_eq_getElem?_getD]

/-- `bs_write_bytes`, with all of `bytes`. -/
def bsWriteAll (bytes : List UInt8) : StateM BsT Unit := do
  let _ ← bsWriteBytes (fun i => bytes.getD i 0) bytes.length
  pure ()

theorem bsWriteAll_laid (h : b.Wf) (h8 : 8 ∣ b.bitPos) (hroom : b.Room (8 * bytes.length)) :
    Laid (byteFields bytes) b (bsWriteAll bytes b).2 := by
  obtain ⟨-, hpos⟩ := h.aligned h8
  rw [BsT.Room, hpos] at hroom
  have hn : b.p + bytes.length ≤ b.buf.length := by omega
  have hwrite : (bsWriteAll bytes b).2 =
      (b.copyIn (fun i => bytes.getD i 0) bytes.length).advance bytes.length := by
    rw [bsWriteAll, bind_run, pure_run, bsWriteBytes, actualLen_of_le hn, Int.toNat_natCast]
  have hcopied : (b.copyIn (fun i => bytes.getD i 0) bytes.length).Wf := h
  have hmoved := advance_moved hcopied bytes.length
  rw [hwrite]
  refine ⟨?_, hmoved.wf, ?_, ?_⟩
  · have hlen := length_copyIn b (fun i => bytes.getD i 0) bytes.length
    rw [actualLen_of_le hn, Int.toNat_natCast] at hlen
    rw [hmoved.buf, hlen]
  · rw [hmoved.bitPos, span_byteFields]
    rfl
  · rw [hmoved.bits]
    funext i
    rw [lay_byteFields, BsT.bits, getD_copyIn _ hn, hpos]
    -- a bit of the bytes that are copied, or one that is left alone
    by_cases hi : 8 * b.p ≤ i ∧ i < 8 * b.p + 8 * bytes.length
    · rw [if_pos hi, if_pos (by omega), show (i - 8 * b.p) / 8 = i / 8 - b.p by omega,
        show (i - 8 * b.p) % 8 = i % 8 by omega]
    · rw [if_neg hi, if_neg (by omega)]
      rfl

theorem length_ahead (hn : b.p + n ≤ b.buf.length) : ((b.buf.drop b.p).take n).length = n := by
  rw [List.length_take_of_le]
  rw [List.length_drop]
  omega

theorem getD_ahead {j : Nat} (hj : j < n) :
    ((b.buf.drop b.p).take n).getD j 0 = b.buf.getD (b.p + j) 0 := by
  rw [List.getD_eq_getElem?_getD, List.getElem?_take_of_lt hj, List.getElem?_drop,
    List.getD_eq_getElem?_getD]

/-- The bytes ahead are the ones that stand at the cursor. -/
theorem holdsFields_iff_ahead (hpos : b.bitPos = 8 * b.p)
    (hn : b.p + bytes.length ≤ b.buf.length) :
    HoldsFields b.bits b.bitPos (byteFields bytes) ↔
      (b.buf.drop b.p).take bytes.length = bytes := by
  have hlen := length_ahead hn
  rw [holdsFields_byteFields, hpos]
  constructor
  · intro hall
    refine List.ext_getElem hlen fun j hj hj' => ?_
    have hbyte := hall j hj'
    rw [← Nat.mul_add, b.field_byte, UInt8.toNat_inj, ← getD_ahead hj', List.getD_eq_getElem _ _ hj,
      List.getD_eq_getElem _ _ hj'] at hbyte
    exact hbyte
  · intro heq j hj
    have hbyte := getD_ahead (b := b) hj
    rw [heq] at hbyte
    rw [← Nat.mul_add, b.field_byte, hbyte]

/-- `bs_read_bytes`, with the bytes alone. -/
def bsReadAll (n : Nat) : StateM BsT (List UInt8) := do
  let r ← bsReadBytes n
  pure r.2

theorem bsReadAll_run (h : b.Wf) (hn : b.p + n ≤ b.buf.length) :
    (bsReadAll n b).1 = (b.buf.drop b.p).take n ∧ Moved (8 * n) b (bsReadAll n b).2 := by
  rw [bsReadAll, bind_run, pure_run, bsReadBytes, actualLen_of_le hn, Int.toNat_natCast]
  exact ⟨rfl, advance_moved h n⟩

/-- The loop of `bs_read_string` reads the bytes that stand at the cursor, at any alignment. -/
theorem bsReadStringLoop_run (h : b.Wf)
    (hholds : HoldsFields b.bits b.bitPos (byteFields bytes)) :
    (bsReadStringLoop bytes.length b).1 = bytes ∧
      Moved (8 * bytes.length) b (bsReadStringLoop bytes.length b).2 := by
  induction bytes generalizing b with
  | nil => exact ⟨rfl, rfl, h, rfl⟩
  | cons byte bytes ih =>
      obtain ⟨hfirst, hrest⟩ := hholds
      have hmoved := bsReadU_moved h 8
      have hval := h.bsReadU_toNat (n := 8) (by decide)
      rw [← h.bsReadU8_eq] at hmoved
      rw [hfirst, Int.cast_ofNat_Int, ← h.bsReadU8_eq] at hval
      have hbyte : (bsReadU8 b).1.toUInt8 = byte := by
        apply UInt8.toNat_inj.mp
        rw [UInt32.toNat_toUInt8, hval]
        exact Nat.mod_eq_of_lt byte.toNat_lt
      obtain ⟨hbytes, hbuf, hwf, hpos⟩ := ih hmoved.wf (by
        rw [hmoved.bits, hmoved.bitPos]
        exact hrest)
      rw [List.length_cons, bsReadStringLoop, bind_run, bind_run, pure_run, hbyte, hbytes]
      refine ⟨rfl, hbuf.trans hmoved.buf, hwf, ?_⟩
      rw [hpos, hmoved.bitPos]
      show b.bitPos + 8 + _ = _
      omega

/-- `bs_read_string` into a string that is large enough, with what it stores alone. -/
def bsReadText (n : Nat) : StateM BsT (List UInt8) := do
  let r ← bsReadString n false (n + 1)
  pure r.2

theorem bsReadText_run (h : b.Wf) (hn : b.p + bytes.length ≤ b.buf.length)
    (hholds : HoldsFields b.bits b.bitPos (byteFields bytes)) :
    (bsReadText bytes.length b).1 = bytes ∧
      Moved (8 * bytes.length) b (bsReadText bytes.length b).2 := by
  have hread : bsReadText bytes.length b = bsReadStringLoop bytes.length b := by
    have hsize : ¬ ((false : Bool) ∨ (bytes.length : Int) > (bytes.length : Int) + 1 - 1) := by
      rintro (h | h)
      · cases h
      · omega
    have hleft : ¬ bsBytesLeft b < bytes.length := by
      rw [bsBytesLeft]
      omega
    rw [bsReadText, bind_run, pure_run, bsReadString, if_neg hsize, if_neg hleft,
      Int.toNat_natCast]
    rfl
  rw [hread]
  exact bsReadStringLoop_run h hholds

/-- The room for some bytes, from the start of a byte on. -/
theorem BsT.Room.whole (hpos : b.bitPos = 8 * b.p) (hroom : b.Room (8 * n)) :
    b.p + n ≤ b.buf.length := by
  rw [BsT.Room, hpos] at hroom
  omega

/-- From the start of a byte on, the bytes ahead stand there. -/
theorem stands_ahead (h : b.Wf) (h8 : 8 ∣ b.bitPos) (hroom : b.Room (8 * n)) :
    ∃ bytes, bytes.length = n ∧ (b.buf.drop b.p).take n = bytes ∧
      HoldsFields b.bits b.bitPos (byteFields bytes) := by
  obtain ⟨-, hpos⟩ := h.aligned h8
  have hn := hroom.whole hpos
  have hlen := length_ahead hn
  refine ⟨_, hlen, rfl, (holdsFields_iff_ahead hpos (by omega)).mpr ?_⟩
  rw [hlen]

/-- `bs_write_bytes` and `bs_read_bytes`. -/
def bsBytes (n : Nat) : BsCodec (List UInt8) where
  write := bsWriteAll
  read := bsReadAll n
  fields := byteFields
  valid s bytes := 8 ∣ s ∧ bytes.length = n
  complete b := 8 ∣ b.bitPos ∧ b.Room (8 * n)
  fits _ := fits_byteFields
  write_laid h := bsWriteAll_laid h.wf h.valid.1 (span_byteFields _ ▸ h.room)
  read_stands {b bytes} h := by
    obtain ⟨h8, rfl⟩ := h.valid
    obtain ⟨-, hpos⟩ := h.wf.aligned h8
    have hroom : b.Room (8 * bytes.length) := span_byteFields bytes ▸ h.room
    have hn := hroom.whole hpos
    obtain ⟨hval, hmoved⟩ := bsReadAll_run h.wf hn
    rw [(holdsFields_iff_ahead hpos hn).mp h.holds] at hval
    exact ⟨hval, span_byteFields bytes ▸ hmoved⟩
  stands_of_complete {b} h hcomplete := by
    obtain ⟨h8, hroom⟩ := hcomplete
    obtain ⟨-, hpos⟩ := h.aligned h8
    obtain ⟨bytes, rfl, hahead, hholds⟩ := stands_ahead h h8 hroom
    rw [(bsReadAll_run h (hroom.whole hpos)).1, hahead]
    exact ⟨⟨h, ⟨h8, rfl⟩, (span_byteFields bytes).symm ▸ hroom⟩, hholds⟩

/-- `bs_write_bytes` and `bs_read_string`. -/
def bsString (n : Nat) : BsCodec (List UInt8) where
  write := bsWriteAll
  read := bsReadText n
  fields := byteFields
  valid s bytes := 8 ∣ s ∧ bytes.length = n
  complete b := 8 ∣ b.bitPos ∧ b.Room (8 * n)
  fits _ := fits_byteFields
  write_laid h := (bsBytes n).write_laid ⟨h.wf, h.valid, h.room⟩
  read_stands {b bytes} h := by
    obtain ⟨h8, rfl⟩ := h.valid
    obtain ⟨-, hpos⟩ := h.wf.aligned h8
    have hroom : b.Room (8 * bytes.length) := span_byteFields bytes ▸ h.room
    obtain ⟨hval, hmoved⟩ := bsReadText_run h.wf (hroom.whole hpos) h.holds
    exact ⟨hval, span_byteFields bytes ▸ hmoved⟩
  stands_of_complete {b} h hcomplete := by
    obtain ⟨h8, hroom⟩ := hcomplete
    obtain ⟨-, hpos⟩ := h.aligned h8
    obtain ⟨bytes, rfl, -, hholds⟩ := stands_ahead h h8 hroom
    rw [(bsReadText_run h (hroom.whole hpos) hholds).1]
    exact ⟨⟨h, ⟨h8, rfl⟩, (span_byteFields bytes).symm ▸ hroom⟩, hholds⟩

end Bytes

/-! ## Formats -/

/-- What can stand in a stream. -/
inductive BsKind where
  | u (n : Nat)
  | u8
  | ue
  | se
  | bytes (n : Nat)
  | string (n : Nat)

/-- The values of a kind. -/
def BsKind.Val : BsKind → Type
  | u _ | u8 | ue => UInt32
  | se => Int32
  | bytes _ | string _ => List UInt8

def BsKind.codec : (k : BsKind) → BsCodec k.Val
  | u n => bsU n
  | u8 => bsU8
  | ue => bsUe
  | se => bsSe
  | bytes n => bsBytes n
  | string n => bsString n

/-- The values of a format. -/
def BsVals : List BsKind → Type
  | [] => Unit
  | k :: ks => k.Val × BsVals ks

/-- A format, as one codec. -/
def bsFormat : (ks : List BsKind) → BsCodec (BsVals ks)
  | [] => BsCodec.nothing
  | k :: ks => k.codec.seq (bsFormat ks)

/-- **Whatever is written in a format is read back in it**: every value, in every order of the
operations and at every alignment, and the reader ends where the writer did. -/
theorem format_read_written (ks : List BsKind) (vs : BsVals ks) (b : BsT)
    (h : (bsFormat ks).Writable b vs) :
    (bsFormat ks).read (((bsFormat ks).write vs b).2.seek b) =
      (vs, ((bsFormat ks).write vs b).2) :=
  (bsFormat ks).read_written h

/-- A byte, both codes, a string that they leave at the start of a byte, and three bits. -/
def mixedKinds : List BsKind := [.u8, .se, .ue, .string 2, .u 3]

def mixedVals : BsVals mixedKinds :=
  ((0x41 : UInt32), (-2 : Int32), (1 : UInt32), ([0x68, 0x69] : List UInt8), (5 : UInt32), ())

/-- The room for them, with other bits in it. -/
def mixedRoom : BsT := bsInit (List.replicate 5 0xFF) 5

theorem format_read_written_mixed :
    (bsFormat mixedKinds).read
        (((bsFormat mixedKinds).write mixedVals mixedRoom).2.seek mixedRoom) =
      (mixedVals, ((bsFormat mixedKinds).write mixedVals mixedRoom).2) := by
  refine format_read_written mixedKinds mixedVals mixedRoom ⟨wf_bsInit _ _, ?_, ?_⟩
  · have hse : -(2 ^ 15 - 1) ≤ (-2 : Int32).toInt ∧ (-2 : Int32).toInt ≤ 2 ^ 15 - 1 := by decide
    have hstring : 8 ∣ 16 ∧ ([0x68, 0x69] : List UInt8).length = 2 := by decide
    exact ⟨show (0x41 : UInt32).toNat < 2 ^ 8 by decide, hse,
      show (1 : UInt32).toNat ≤ 2 ^ 16 - 2 by decide, hstring,
      show 3 ≤ 32 ∧ (5 : UInt32).toNat < 2 ^ 3 by decide, trivial⟩
  · rw [BsT.Room]
    decide +kernel

/-- **Whatever is read in a format is written back as it was**: not a bit of the buffer changes, and
the writer ends where the reader did. -/
theorem format_write_read (ks : List BsKind) (b : BsT) (h : b.Wf)
    (hcomplete : (bsFormat ks).complete b) :
    ((bsFormat ks).write ((bsFormat ks).read b).1 b).2 = ((bsFormat ks).read b).2 :=
  (bsFormat ks).write_read h hcomplete

/-- Five bits, a code, and a byte. -/
def packedKinds : List BsKind := [.u 5, .ue, .bytes 1]

def packedBytes : BsT := bsInit [0xB2, 0x68] 2

theorem format_write_read_packed :
    ((bsFormat packedKinds).write ((bsFormat packedKinds).read packedBytes).1 packedBytes).2 =
      ((bsFormat packedKinds).read packedBytes).2 := by
  have hcode : BsT.Code ⟨[0xB2, 0x68], 0, 3⟩ 1 :=
    ⟨by decide, by decide, show 5 + 3 ≤ 16 by decide⟩
  have hbyte : 8 ∣ BsT.bitPos ⟨[0xB2, 0x68], 1, 8⟩ ∧ BsT.Room ⟨[0xB2, 0x68], 1, 8⟩ 8 :=
    ⟨by decide, show 8 + 8 ≤ 16 by decide⟩
  have hend : BsT.Room ⟨[0xB2, 0x68], 2, 8⟩ 0 := show 16 + 0 ≤ 16 by decide
  exact format_write_read packedKinds packedBytes (wf_bsInit _ _)
    ⟨⟨by decide, show 0 + 5 ≤ 16 by decide⟩, ⟨1, by decide, hcode⟩, hbyte, hend⟩

end SmartConfig
