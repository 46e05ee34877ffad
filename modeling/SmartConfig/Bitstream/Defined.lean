import SmartConfig.Bitstream.Acts

/-!
# `bitstream.h`: Exp-Golomb codes within defined arithmetic

In C a shift of a 32-bit value by 32 or more is not defined, and neither is a sum that does not fit
an `int`. `bs_write_ue` hands the whole code, zeros included, to one `bs_write_u`: the code of a
number of 17 digits is 33 bits wide, and the first shift of the loop goes by 32. So the codes are
defined, and read back, up to 2^16 - 2 and not beyond (`ue_roundtrip_iff`).
-/

namespace SmartConfig

open BitString Traced Discipline

/-- An act that C defines. -/
def BsAct.Defined : BsAct → Prop
  | .load _ => True
  | .pad => True
  | .store _ => True
  | .shift distance => distance < 32
  | .add x y => -2 ^ 31 ≤ x.toInt + y.toInt ∧ x.toInt + y.toInt < 2 ^ 31

/-- Well-formed states and defined acts. -/
def definedActs : Discipline BsT BsAct where
  inv b := b.Wf
  move _ _ := True
  allows _ act := act.Defined
  refl _ := trivial
  trans _ _ := trivial
  mono _ hact := hact

/-! ## Bits and fields -/

section Fields

theorem shift_bit_defined {b : BsT} (h : b.Wf) : (BsAct.shift (b.bits_left - 1)).Defined := by
  obtain ⟨h1, h8⟩ := h
  show b.bits_left - 1 < 32
  omega

theorem defined_bsReadU1 : definedActs.Keeps Noted.bsReadU1 := by
  refine (keeps_note_ite (fun b _ _ act hact => ?_) fun b h _ act hact => ?_).bind fun _ =>
    keeps_lift fun _ h => ⟨h.next.wf, trivial⟩
  · rw [List.mem_singleton.mp hact]
    trivial
  · rcases List.mem_pair.mp hact with rfl | rfl
    · trivial
    · exact shift_bit_defined h

theorem defined_bsReadULoop {k : Nat} (hk : k ≤ 32) :
    ∀ r, definedActs.Keeps (Noted.bsReadULoop k r) := by
  induction k with
  | zero => exact fun r => keeps_pure r
  | succ k ih =>
      refine fun r => defined_bsReadU1.bind fun _ =>
        (keeps_note fun b _ act hact => ?_).bind fun _ => ih (by omega) _
      rw [List.mem_singleton.mp hact]
      exact hk

theorem defined_bsWriteU1 (v : UInt32) : definedActs.Keeps (Noted.bsWriteU1 v) := by
  refine (keeps_note_ite (fun b _ _ act hact => absurd hact List.not_mem_nil)
    fun b h _ act hact => ?_).bind fun _ => keeps_lift fun b h => ⟨?_, trivial⟩
  · have hshift := shift_bit_defined h
    simp only [List.mem_cons, List.not_mem_nil, or_false] at hact
    rcases hact with rfl | rfl | rfl | rfl | rfl | rfl
    · exact hshift
    · trivial
    · trivial
    · exact hshift
    · trivial
    · trivial
  · show (bsWriteU1 v b).2.Wf
    rw [bsWriteU1]
    split
    · exact h.next.wf
    · next heof =>
      have hstore : (b.store (writeBit (b.byte heof) (b.bits_left - 1) v)).Wf := h
      exact hstore.next.wf

theorem defined_bsWriteULoop {k : Nat} (hk : k ≤ 32) (v : UInt32) :
    definedActs.Keeps (Noted.bsWriteULoop k v) := by
  induction k with
  | zero => exact keeps_pure ()
  | succ k ih =>
      refine (keeps_note fun b _ act hact => ?_).bind fun _ =>
        (defined_bsWriteU1 _).bind fun _ => ih (by omega)
      rw [List.mem_singleton.mp hact]
      exact hk

end Fields

/-! ## Codes -/

section Codes

variable {b : BsT} {v : UInt32}

theorem toInt_small {n : Nat} (hn : n < 2 ^ 31) : (Int32.ofNat n).toInt = n :=
  Int32.toInt_ofNat_of_lt hn

theorem len_table_le (i : Nat) : len_table.getD i 0 ≤ 8 := by
  rcases Nat.lt_or_ge i 256 with hlt | hge
  · rcases eq_or_ne i 0 with rfl | h0
    · decide
    · rw [len_table_size h0 hlt]
      exact Nat.size_le.mpr hlt
  · have hlen : len_table.length = 256 := length_lenRows 8
    rw [List.getD_eq_getElem?_getD, List.getElem?_eq_none (hlen ▸ hge)]
    decide

/-- A digit count of a byte, added to one of the three offsets. -/
theorem add_digits_defined {x : Int32} (hx : 0 ≤ x.toInt ∧ x.toInt ≤ 24) (i : Nat) :
    (BsAct.add x (Int32.ofNat (len_table.getD i 0))).Defined := by
  have hle := len_table_le i
  rw [BsAct.Defined, toInt_small (by omega)]
  omega

theorem ueLenActs_defined (v : UInt32) : ∀ act ∈ Noted.ueLenActs v, act.Defined := by
  intro act hact
  rw [Noted.ueLenActs] at hact
  split at hact
  · rcases List.mem_pair.mp hact with rfl | rfl
    · exact (by decide : 24 < 32)
    · exact add_digits_defined (by decide) _
  · split at hact
    · rcases List.mem_pair.mp hact with rfl | rfl
      · exact (by decide : 16 < 32)
      · exact add_digits_defined (by decide) _
    · split at hact
      · rcases List.mem_pair.mp hact with rfl | rfl
        · exact (by decide : 8 < 32)
        · exact add_digits_defined (by decide) _
      · cases hact

/-- Up to 16 digits, the code fits the shifts of `bs_write_u`. -/
theorem bsWriteUe_defined (h : b.Wf) (hv : v.toNat ≤ 2 ^ 16 - 2) :
    Emits BsAct.Defined (Noted.bsWriteUe v) b := by
  rw [Noted.bsWriteUe]
  split
  · exact (defined_bsWriteU1 1).emits h
  · have hlen : ueLen (v + 1) ≤ 16 := by
      rw [ueLen_succ (by omega), Nat.size_le]
      omega
    refine Emits.bind (emits_note fun act hact => ?_)
      ((defined_bsWriteULoop (by omega) (v + 1)).emits h)
    rcases List.mem_append.mp hact with hact | hact
    · exact ueLenActs_defined _ act hact
    · rw [List.mem_singleton.mp hact, BsAct.Defined, toInt_small (by omega),
        show (-1 : Int32).toInt = -1 from rfl]
      omega

/-- From 17 digits on the first shift of `bs_write_u` goes by 32 or more. -/
theorem not_bsWriteUe_defined (b : BsT) (hlo : 2 ^ 16 - 1 ≤ v.toNat)
    (hv : v.toNat ≤ 2 ^ 32 - 2) : ¬ Emits BsAct.Defined (Noted.bsWriteUe v) b := by
  have hzero : v ≠ 0 := fun h0 => by
    rw [h0] at hlo
    exact absurd hlo (by decide)
  have hlen : 17 ≤ ueLen (v + 1) := by
    rw [ueLen_succ hv]
    exact Nat.lt_size.mpr (by omega)
  have hcount : (2 * (ueLen (v + 1) : Int) - 1).toNat = 2 * ueLen (v + 1) - 2 + 1 := by omega
  intro hemits
  have hshift : (BsAct.shift (2 * ueLen (v + 1) - 2)).Defined := by
    apply hemits
    rw [Noted.bsWriteUe, if_neg hzero, Noted.bsWriteU, hcount, Noted.bsWriteULoop, mem_events_bind,
      mem_events_bind]
    exact Or.inr (Or.inl List.mem_cons_self)
  have hlt : 2 * ueLen (v + 1) - 2 < 32 := hshift
  omega

theorem defined_bsReadUeLoop {k : Nat} (hk : k ≤ 32) :
    definedActs.Keeps (Noted.bsReadUeLoop k) := by
  induction k with
  | zero => exact defined_bsReadU1.bind fun _ => keeps_pure 32
  | succ k ih =>
      refine defined_bsReadU1.bind fun bit => (keeps_lift fun b h => ⟨h, trivial⟩).bind fun b => ?_
      split
      · refine (keeps_note fun c _ act hact => ?_).bind fun _ => ih (by omega)
        rw [List.mem_singleton.mp hact]
        show -2 ^ 31 ≤ (Int32.ofNat (32 - (k + 1))).toInt + (1 : Int32).toInt ∧ _ < _
        rw [toInt_small (by omega), Int32.toInt_one]
        omega
      · exact keeps_pure _

/-- The sum of `bs_read_ue`, after up to 30 zeros. -/
theorem ueSum_defined {i : Nat} (hi : i ≤ 30) {r : UInt32} (hr : r.toNat < 2 ^ i) :
    ∀ act ∈ [BsAct.shift i, BsAct.add (shiftLeft32 1 i).toInt32 (-1),
      BsAct.add r.toInt32 ((shiftLeft32 1 i).toInt32 - 1)], act.Defined := by
  have hpow : 2 ^ i ≤ 2 ^ 30 := Nat.pow_le_pow_right (by decide) hi
  have htwo := Nat.two_pow_pos i
  have hhigh : (shiftLeft32 1 i).toInt32.toInt = (2 ^ i : Nat) := by
    rw [toInt_toInt32, toNat_shiftLeft32_one (by omega), if_pos (by omega)]
  have hlow : r.toInt32.toInt = r.toNat := by
    rw [toInt_toInt32, if_pos (by omega)]
  have hdigits : ((shiftLeft32 1 i).toInt32 - 1).toInt = (2 ^ i : Nat) - 1 := by
    rw [Int32.toInt_sub, hhigh, Int32.toInt_one, Int.bmod_def]
    split <;> omega
  intro act hact
  simp only [List.mem_cons, List.not_mem_nil, or_false] at hact
  rcases hact with rfl | rfl | rfl
  · show i < 32
    omega
  · rw [BsAct.Defined, hhigh, show (-1 : Int32).toInt = -1 from rfl]
    omega
  · rw [BsAct.Defined, hlow, hdigits]
    omega

/-- Reading a code of up to 31 digits. -/
theorem bsReadUe_defined {c : BsT} (hc : c.Wf) (hv : v.toNat ≤ 2 ^ 31 - 2)
    (hcode : HoldsCode c.bits c.bitPos (v.toNat + 1))
    (hroom : c.bitPos + ueWidth v ≤ 8 * c.buf.length) :
    Emits BsAct.Defined Noted.bsReadUe c := by
  have hle : (v.toNat + 1).size ≤ 31 := Nat.size_le.mpr (by omega)
  obtain ⟨hi, hzeros⟩ := hc.bsReadUeLoop_code (by omega) hcode hroom
  refine (Noted.traces_bsReadUeLoop 32).emits_bind ((defined_bsReadUeLoop (by omega)).emits hc) ?_
  rw [hi]
  have hval := hzeros.wf.bsReadU_toNat (n := (v.toNat + 1).size - 1) (by omega)
  refine (Noted.traces_bsReadU _).emits_bind
    ((defined_bsReadULoop (by omega) 0).emits hzeros.wf) ?_
  refine Emits.bind (emits_note (ueSum_defined (by omega) ?_)) (emits_pure _ _)
  rw [hval]
  exact field_lt _ _ _

end Codes

/-! ## The round trip -/

/-- `v` written at `b` and read from there: it comes back, the reader has used up the bits of its
code, and nothing on the way is undefined. -/
structure UeRoundTrip (v : UInt32) (b : BsT) : Prop where
  value : (bsReadUe ((bsWriteUe v b).2.seek b)).1 = v
  consumed : (bsReadUe ((bsWriteUe v b).2.seek b)).2.bitPos = b.bitPos + ueWidth v
  writes : Emits BsAct.Defined (Noted.bsWriteUe v) b
  reads : Emits BsAct.Defined Noted.bsReadUe ((bsWriteUe v b).2.seek b)

/-- **Within defined arithmetic, codes round-trip exactly up to 2^16 - 2.** -/
theorem ue_roundtrip_iff (v : UInt32) (hv : v.toNat ≤ 2 ^ 32 - 2) (b : BsT) (h : b.Wf)
    (hroom : b.bitPos + ueWidth v ≤ 8 * b.buf.length) :
    UeRoundTrip v b ↔ v.toNat ≤ 2 ^ 16 - 2 := by
  constructor
  · intro hround
    by_contra hlarge
    exact not_bsWriteUe_defined b (by omega) hv hround.writes
  · intro hsmall
    have hwrote := h.bsWriteUe_wrote hv hroom
    have hback := bsReadUe_written h hv hroom
    have hseek : ((bsWriteUe v b).2.seek b).Wf := h
    obtain ⟨hcode, hroom'⟩ := holdsCode_written h hv hroom
    refine ⟨by rw [hback], by rw [hback, hwrote.bitPos], bsWriteUe_defined h hsmall,
      bsReadUe_defined hseek (by omega) hcode hroom'⟩

theorem ue_roundtrip_iff_nine : UeRoundTrip 9 (bsSkipU 5 (bsInit [0xFF, 0xFF] 2)).2 :=
  (ue_roundtrip_iff 9 (by decide) _ (bsSkipU_bsInit [0xFF, 0xFF] 2 5).wf (by decide +kernel)).mpr
    (by decide)

/-- The first number that is not written within the rules: 33 bits, in five empty bytes. -/
theorem not_ue_roundtrip :
    ¬ ∀ (v : UInt32) (b : BsT), v.toNat ≤ 2 ^ 32 - 2 → b.Wf →
      b.bitPos + ueWidth v ≤ 8 * b.buf.length → UeRoundTrip v b := by
  intro h
  have hround := h 65535 (bsInit (List.replicate 5 0) 5) (by decide) (wf_bsInit _ _)
    (by decide +kernel)
  exact not_bsWriteUe_defined _ (by decide) (by decide) hround.writes

end SmartConfig
