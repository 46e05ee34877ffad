import SmartConfig.Link.InStep

/-!
# A frame that comes twice

The check value of a frame is the nibble before it xor its position, and the receiver, one nibble
further, waits for the nibble of that frame xor the next position. A repetition is therefore
ignored unless these agree: unless the two neighbouring nibbles differ in exactly the bits in which
the two positions differ (`RepeatRejected`). At the first frame of all the restart leaves it alone.
-/

namespace SmartConfig

open Nibble Received

/-- Frame `t` has another check value than the receiver waits for after it. -/
def RepeatRejected (m : Message) (t : Nat) : Prop :=
  t = 0 ∨ (m.air.getD (t - 1) 0).val ^^^ (m.air.getD t 0).val ≠ UInt8.ofNat (t ^^^ (t + 1))

instance (m : Message) (t : Nat) : Decidable (RepeatRejected m t) :=
  inferInstanceAs (Decidable (_ ∨ _))

theorem xor_eq_xor_iff (a b c d : UInt8) : a ^^^ c = b ^^^ d ↔ a ^^^ b = c ^^^ d := by
  have hall : a ^^^ c ^^^ (b ^^^ d) = a ^^^ b ^^^ (c ^^^ d) := by ac_rfl
  rw [← UInt8.xor_eq_zero_iff, hall, UInt8.xor_eq_zero_iff]

/-- The check value after `t + 1` nibbles of the message. -/
theorem expected_take_succ {m : Message} {t : Nat} {x : Nibble} (hx : m.air[t]? = some x) :
    smartCode.expected (m.air.take (t + 1)) = x.val ^^^ UInt8.ofNat (t + 1) := by
  have ht : t < m.air.length := (List.getElem?_eq_some_iff.mp hx).1
  have hlen : (m.air.take t).length = t := by
    rw [List.length_take]
    omega
  rw [← take_append_next hx, expected_concat, hlen]

/-- Frame `t` passes for the frame after it exactly when the condition fails. -/
theorem expected_repeat_iff {m : Message} {t : Nat} (ht : t < m.air.length) :
    smartCode.expected (m.air.take t) = smartCode.expected (m.air.take (t + 1)) ↔
      ¬ RepeatRejected m t := by
  have hx : m.air[t]? = some (m.air.getD t 0) := by
    rw [List.getD_eq_getElem?_getD, List.getElem?_eq_getElem ht]
    rfl
  rw [expected_take_succ hx, RepeatRejected]
  cases t with
  | zero =>
      have hfirst : m.air.getD 0 0 = hi START_FLAGS := rfl
      rw [List.take_zero, expected_nil, hfirst]
      simp only [true_or, not_true_eq_false, iff_false]
      decide
  | succ t =>
      have hprev : m.air[t]? = some (m.air.getD t 0) := by
        rw [List.getD_eq_getElem?_getD, List.getElem?_eq_getElem (by omega)]
        rfl
      rw [expected_take_succ hprev, xor_eq_xor_iff, Nat.add_sub_cancel, UInt8.ofNat_xor]
      simp

/-- Accepting a nibble moves the sequence number on. -/
theorem rxStep_accept_ne {ctx : SmartLinkRx} {f : Frame} (hacc : rxAccepts ctx f.sendlen) :
    (rxStep ctx f).1 ≠ ctx := by
  intro heq
  have hseq : (rxStep ctx f).1.u32Sequence = ctx.u32Sequence + 1 := by
    by_cases he : ctx.u32Sequence % 2 = 0
    · rw [rxStep_accept_even he hacc]
    · rw [rxStep_accept_odd he hacc]
      split <;> rfl
  rw [heq] at hseq
  have hnat := congrArg UInt8.toNat hseq
  rw [UInt8.toNat_add, UInt8.toNat_one] at hnat
  have := ctx.u32Sequence.toNat_lt
  omega

section Repeated

variable {tx : SmartLinkTx} {m : Message} {t : Nat} {fs : List Frame} {g : Frame}

/-- After `t + 1` frames of a plain message, and before its last one, the receiver is in step. -/
theorem inStep_take (hplain : m.Plain) (ht : t + 1 < (m.send tx).length)
    (hfs : fs.map (·.sendlen) = (m.send tx).take (t + 1)) : InStep m (t + 1) (rxAfter fs) := by
  have hframes : airFrames fs = (smartCode.encode m.air).take (t + 1) := by
    rw [airFrames_eq, hfs, List.map_take, map_airFrame_send]
  have hlen : fs.length = t + 1 := by
    have := congrArg List.length hfs
    rw [List.length_map, List.length_take] at this
    omega
  rw [m.send_eq, List.length_map, ChainCode.length_encode, m.length_air] at ht
  have hpre : airFrames fs <+: (smartCode.encode m.air).drop 0 := by
    rw [hframes]
    exact List.take_prefix _ _
  have hrun := ((inStep_start m).run hpre (by rw [hplain.stop_eq]; omega)).1
  rwa [Nat.zero_add, hlen] at hrun

/-- What the frame at position `t` says. -/
theorem airFrame_of_send (hg : (m.send tx)[t]? = some g.sendlen) :
    ∃ x, m.air[t]? = some x ∧ airFrame g.sendlen = (smartCode.expected (m.air.take t), x) := by
  rw [m.send_eq, List.getElem?_map, ChainCode.getElem?_encode] at hg
  obtain ⟨f, hf, hlen⟩ := Option.map_eq_some_iff.mp hg
  obtain ⟨x, hx, rfl⟩ := Option.map_eq_some_iff.mp hf
  exact ⟨x, hx, by rw [← hlen, airFrame_frameLength]⟩

theorem accepts_repeat_iff (hplain : m.Plain) (ht : t + 1 < (m.send tx).length)
    (hfs : fs.map (·.sendlen) = (m.send tx).take (t + 1))
    (hg : (m.send tx)[t]? = some g.sendlen) :
    rxAccepts (rxAfter fs) g.sendlen ↔ ¬ RepeatRejected m t := by
  obtain ⟨r, hr, hnibs, -⟩ := inStep_take hplain ht hfs
  obtain ⟨x, hx, hair⟩ := airFrame_of_send hg
  rw [hr.accepts_iff, hair, hnibs]
  exact expected_repeat_iff (List.getElem?_eq_some_iff.mp hx).1

/-- **A repeated frame is ignored exactly when the positions do not cancel the nibbles.** -/
theorem repeated_frame_iff (tx : SmartLinkTx) (m : Message) (hplain : m.Plain) (t : Nat)
    (ht : t + 1 < (m.send tx).length) (fs : List Frame)
    (hfs : fs.map (·.sendlen) = (m.send tx).take (t + 1)) (g : Frame)
    (hg : (m.send tx)[t]? = some g.sendlen) :
    rxStep (rxAfter fs) g = (rxAfter fs, none) ↔ RepeatRejected m t := by
  have hiff := accepts_repeat_iff hplain ht hfs hg
  constructor
  · intro hsame
    by_contra hrep
    exact rxStep_accept_ne (hiff.mpr hrep) (congrArg Prod.fst hsame)
  · intro hrep
    have hrej : ¬ rxAccepts (rxAfter fs) g.sendlen := fun hacc => hiff.mp hacc hrep
    rcases Nat.eq_zero_or_pos t with rfl | hpos
    · -- still in the first byte, but the nibble of START is no reason to restart
      obtain ⟨x, hx, hair⟩ := airFrame_of_send hg
      have hxs : x = hi START_FLAGS := Option.some.inj (hx.symm.trans m.air_zero)
      have hdata : rxData g.sendlen = 0x7 := by
        rw [← airNibble_val, ← airFrame_snd, hair, hxs]
        rfl
      rw [rxStep_reject hrej, if_neg fun h => h.2.2 hdata]
    · exact (inStep_take hplain ht hfs).foreign (by omega) hrej

end Repeated

theorem repeated_frame_iff_letterA :
    rxStep (rxAfter (framesFrom macZero ((Message.letterA.send ⟨0⟩).take 3))) ⟨236, macZero⟩ =
        (rxAfter (framesFrom macZero ((Message.letterA.send ⟨0⟩).take 3)), none) ↔
      RepeatRejected Message.letterA 2 :=
  repeated_frame_iff ⟨0⟩ Message.letterA (by decide) 2 (by rw [Message.letterA.send_eq]; decide) _
    (map_sendlen_framesFrom _ _) _ (by rw [Message.letterA.send_eq]; rfl)

/-- The message `4`: its second nibble follows the first as position 4 follows position 3. -/
def digit4 : Message where
  bytes := [0x34]
  one_le := by decide
  le_253 := by decide

theorem exists_repeated_accepted :
    digit4.Plain ∧ 3 + 1 < (digit4.send ⟨0⟩).length ∧
      ∃ fs g, fs.map (·.sendlen) = (digit4.send ⟨0⟩).take 4 ∧
        (digit4.send ⟨0⟩)[3]? = some g.sendlen ∧ rxStep (rxAfter fs) g ≠ (rxAfter fs, none) := by
  have hplain : digit4.Plain := by decide
  have hg : (digit4.send ⟨0⟩)[3]? = some (⟨28, macZero⟩ : Frame).sendlen := by
    rw [digit4.send_eq]
    rfl
  have hlt : 3 + 1 < (digit4.send ⟨0⟩).length := by
    rw [digit4.send_eq]
    decide
  refine ⟨hplain, hlt, framesFrom macZero ((digit4.send ⟨0⟩).take 4), ⟨28, macZero⟩,
    map_sendlen_framesFrom _ _, hg, fun hsame => ?_⟩
  have hacc := (accepts_repeat_iff hplain hlt (map_sendlen_framesFrom macZero _) hg).mpr
    (by decide)
  exact rxStep_accept_ne hacc (congrArg Prod.fst hsame)

end SmartConfig
