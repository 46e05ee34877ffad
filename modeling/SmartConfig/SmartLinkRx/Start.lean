import SmartConfig.SmartLinkRx.Received

/-!
# What a delivery begins with

The decoder never compares the first byte with `START_FLAGS`: whatever is accepted as its two halves
stands in `buffer[0]`. From then on nothing touches that byte until `u32Index` has come round to 0
again (`first_byte_fixed`), so a delivery is framed when every completion of byte 0 makes it
`START_FLAGS` (`framed_call`), and what is in `buffer[0]` at a call is what the last completion made
of it (`exists_completesFirst`). Nothing here assumes that the counters have not wrapped.
-/

namespace SmartConfig

open Nibble

/-- The frame is accepted as the second half of byte 0. -/
def CompletesFirst (ctx : SmartLinkRx) (f : Frame) : Prop :=
  rxAccepts ctx f.sendlen ∧ ctx.u32Index = 0x00 ∧ ctx.u32Sequence % 2 ≠ 0

instance (ctx : SmartLinkRx) (f : Frame) : Decidable (CompletesFirst ctx f) :=
  inferInstanceAs (Decidable (_ ∧ _ ∧ _))

/-- If the frame completes byte 0, it completes it to `START_FLAGS`. -/
def StartStep (ctx : SmartLinkRx) (f : Frame) : Prop :=
  CompletesFirst ctx f → ctx.buffer.at 0 ||| rxData f.sendlen = START_FLAGS

instance (ctx : SmartLinkRx) (f : Frame) : Decidable (StartStep ctx f) :=
  inferInstanceAs (Decidable (_ → _))

/-- Byte 0 is complete and holds `START_FLAGS`, unless it is still open. -/
def FirstIsStart (ctx : SmartLinkRx) : Prop := ctx.u32Index ≠ 0x00 → ctx.buffer.at 0 = START_FLAGS

/-! ## One step -/

theorem RxBuffer.at_put_of_ne {buffer : RxBuffer} {i j v : UInt8} (h : i ≠ j) :
    (buffer.put i v).at j = buffer.at j := by
  rw [RxBuffer.at_eq _ _ (toNat_lt_BUFFER_MAX j), RxBuffer.getElem_put,
    if_neg fun heq => h (UInt8.toNat_inj.mp heq)]
  rfl

theorem RxBuffer.at_put_self (buffer : RxBuffer) (i v : UInt8) : (buffer.put i v).at i = v := by
  rw [RxBuffer.at_eq _ _ (toNat_lt_BUFFER_MAX i), RxBuffer.getElem_put, if_pos rfl]

/-- **The first byte stands still** as long as `u32Index` is not 0. -/
theorem first_byte_fixed {ctx : SmartLinkRx} (hidx : ctx.u32Index ≠ 0x00) (f : Frame) :
    (rxStep ctx f).1.buffer.at 0 = ctx.buffer.at 0 := by
  by_cases hacc : rxAccepts ctx f.sendlen
  · by_cases he : ctx.u32Sequence % 2 = 0
    · rw [rxStep_accept_even he hacc]
      exact RxBuffer.at_put_of_ne hidx
    · rw [rxStep_accept_odd he hacc]
      have hcomp : (rxCompleted ctx f.sendlen).at 0 = ctx.buffer.at 0 := RxBuffer.at_put_of_ne hidx
      split
      · rw [add_one_sub_one]
        exact (RxBuffer.at_put_of_ne hidx).trans hcomp
      · exact hcomp
  · rw [rxStep_reject hacc, if_neg fun h => hidx h.2.1]

/-- While `u32Index` is 0, it leaves 0 only by completing byte 0, and that byte is then the OR of
what it held and the nibble. -/
theorem first_byte_completed {ctx : SmartLinkRx} {f : Frame} (h : CompletesFirst ctx f) :
    (rxStep ctx f).1.buffer.at 0 = ctx.buffer.at 0 ||| rxData f.sendlen := by
  obtain ⟨hacc, hidx, hodd⟩ := h
  have hterm : ¬ (ctx.u32Index + 1 > 0x02 ∧
      (rxCompleted ctx f.sendlen).at (ctx.u32Index + 1 - 1) = END_FLAGS) := by
    rw [hidx]
    exact fun h => absurd h.1 (by decide)
  rw [rxStep_accept_odd hodd hacc, if_neg hterm, rxCompleted, hidx]
  exact RxBuffer.at_put_self ..

theorem index_of_not_completesFirst {ctx : SmartLinkRx} {f : Frame} (hidx : ctx.u32Index = 0x00)
    (h : ¬ CompletesFirst ctx f) : (rxStep ctx f).1.u32Index = 0x00 := by
  by_cases hacc : rxAccepts ctx f.sendlen
  · have he : ctx.u32Sequence % 2 = 0 := by
      by_contra hodd
      exact h ⟨hacc, hidx, hodd⟩
    rw [rxStep_accept_even he hacc]
    exact hidx
  · rw [rxStep_reject hacc]
    split <;> exact hidx

theorem FirstIsStart.step {ctx : SmartLinkRx} (h : FirstIsStart ctx) {f : Frame}
    (hstart : StartStep ctx f) : FirstIsStart (rxStep ctx f).1 := by
  intro hidx'
  by_cases hidx : ctx.u32Index = 0x00
  · by_cases hcomp : CompletesFirst ctx f
    · rw [first_byte_completed hcomp]
      exact hstart hcomp
    · exact absurd (index_of_not_completesFirst hidx hcomp) hidx'
  · rw [first_byte_fixed hidx]
    exact h hidx

/-- A step that calls back ends a byte behind the first two. -/
theorem index_of_call {ctx : SmartLinkRx} {f : Frame} {c : RxCall}
    (h : (rxStep ctx f).2 = some c) : ctx.u32Index ≠ 0x00 := by
  intro hidx
  obtain ⟨-, -, hgt, -⟩ := rxStep_call h
  rw [hidx] at hgt
  exact absurd hgt (by decide)

/-! ## Every run -/

theorem firstIsStart_run {fs : List Frame}
    (hsteps : ∀ (i : Nat) (hi : i < fs.length), StartStep (rxAfter (fs.take i)) fs[i]) (i : Nat)
    (hi : i ≤ fs.length) : FirstIsStart (rxAfter (fs.take i)) := by
  induction i with
  | zero => exact fun h => absurd rfl h
  | succ i ih =>
      have hlt : i < fs.length := hi
      rw [List.take_succ_eq_append_getElem hlt, rxAfter_concat]
      exact (ih (Nat.le_of_lt hlt)).step (hsteps i hlt)

/-- **Framed data**: when every frame that completes byte 0 completes it to `START_FLAGS`, every
delivery begins with `START_FLAGS`. -/
theorem framed_call (fs : List Frame)
    (hsteps : ∀ (i : Nat) (hi : i < fs.length), StartStep (rxAfter (fs.take i)) fs[i]) (f : Frame)
    (c : RxCall) (hcall : (rxStep (rxAfter fs) f).2 = some c) :
    (rxStep (rxAfter fs) f).1.buffer.at 0 = START_FLAGS := by
  have hrun := firstIsStart_run hsteps fs.length (Nat.le_refl _)
  rw [List.take_length] at hrun
  have hidx := index_of_call hcall
  rw [first_byte_fixed hidx]
  exact hrun hidx

/-- What stands in `buffer[0]` once it is complete is what some frame completed it to. -/
theorem exists_completesFirst (fs : List Frame) (hidx : (rxAfter fs).u32Index ≠ 0x00) :
    ∃ pre g post, fs = pre ++ g :: post ∧ CompletesFirst (rxAfter pre) g ∧
      (rxAfter fs).buffer.at 0 = (rxAfter pre).buffer.at 0 ||| rxData g.sendlen := by
  induction fs using List.reverseRecOn with
  | nil => exact absurd rfl hidx
  | append_singleton fs f ih =>
      rw [rxAfter_concat] at hidx ⊢
      by_cases h0 : (rxAfter fs).u32Index = 0x00
      · by_cases hcomp : CompletesFirst (rxAfter fs) f
        · exact ⟨fs, f, [], rfl, hcomp, first_byte_completed hcomp⟩
        · exact absurd (index_of_not_completesFirst h0 hcomp) hidx
      · obtain ⟨pre, g, post, rfl, hcomp, hbyte⟩ := ih h0
        exact ⟨pre, g, post ++ [f], by simp, hcomp, (first_byte_fixed h0 f).trans hbyte⟩

/-- The message `A` without its last frame. -/
def framedPart : List Frame :=
  [⟨31, macZero⟩, ⟨135, macZero⟩, ⟨236, macZero⟩, ⟨137, macZero⟩, ⟨111, macZero⟩]

theorem framed_call_framedPart :
    (rxStep (rxAfter framedPart) ⟨71, macZero⟩).1.buffer.at 0 = START_FLAGS := by
  obtain ⟨c, hc⟩ : ∃ c, (rxStep (rxAfter framedPart) ⟨71, macZero⟩).2 = some c :=
    Option.isSome_iff_exists.mp (by decide +kernel)
  exact framed_call framedPart (by decide +kernel) _ c hc

/-- The same with the byte 00 in place of START. -/
def unframedPart : List Frame :=
  [⟨24, macZero⟩, ⟨40, macZero⟩, ⟨60, macZero⟩, ⟨137, macZero⟩, ⟨111, macZero⟩]

theorem exists_unframed_call :
    ∃ fs f c, (∀ g ∈ fs ++ [f], 0 < g.sendlen) ∧ (rxStep (rxAfter fs) f).2 = some c ∧
      (rxStep (rxAfter fs) f).1.buffer.at 0 ≠ START_FLAGS := by
  obtain ⟨c, hc⟩ : ∃ c, (rxStep (rxAfter unframedPart) ⟨71, macZero⟩).2 = some c :=
    Option.isSome_iff_exists.mp (by decide +kernel)
  exact ⟨unframedPart, _, c, by decide, hc, by decide +kernel⟩

end SmartConfig
