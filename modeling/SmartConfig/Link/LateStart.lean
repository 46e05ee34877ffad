import SmartConfig.Link.FirstDelivery
import SmartConfig.Link.Repetition
import SmartConfig.SmartLinkRx.Invariant
import SmartConfig.SmartLinkRx.Nested

/-!
# Coming in late

A receiver that comes in during a transmission hears a tail of it, and the message again from its
first frame on. `late_start_delivers_iff`: it delivers the message first exactly if the tail and the
next two transmissions bring it in turn behind the first byte that they complete (`Recovers`).

That the frames decide, and not a byte counter that has come round, is the other half of the
argument. A check value agrees with the sequence number it is for in the upper four bits, so that
the receiver moves only while the sender is in the same group of sixteen frames, and after the tail
and one whole transmission it has not come as far as 256 bytes (`position_lt`).
-/

namespace SmartConfig

open Nibble Received

/-! ## How far the receiver can have come -/

/-- The number of nibbles taken, restarts apart; it does not wrap. -/
def position (fs : List Frame) : Nat :=
  2 * completed fs + (rxAfter fs).u32Sequence.toNat % 2

theorem index_rxAfter (fs : List Frame) :
    (rxAfter fs).u32Index.toNat = completed fs % 256 := by
  induction fs using List.reverseRecOn with
  | nil => rfl
  | append_singleton fs f ih =>
      rw [rxAfter_concat, completed_concat]
      rcases rxCompletes_cases (rxAfter fs) f.sendlen with hc | ⟨he, hacc⟩ | hrej
      · rw [(rxStep_odd_counters hc.1 hc.2).1, if_pos hc, UInt8.toNat_add, ih, UInt8.toNat_one]
        omega
      · rw [rxStep_accept_even he hacc, if_neg fun hc => hc.1 he]
        exact ih
      · rw [if_neg fun hc => hrej hc.2, rxStep_reject hrej]
        split
        · exact ih
        · exact ih

theorem sequence_rxAfter (fs : List Frame) :
    (rxAfter fs).u32Sequence.toNat = position fs % 256 := by
  have hagree := countersAgree_rxAfter fs
  rw [CountersAgree, index_rxAfter] at hagree
  rw [position]
  omega

/-- A check value is close to the sequence number that it is for. -/
theorem rxExpected_div (ctx : SmartLinkRx) :
    (rxExpected ctx).toNat / 16 = ctx.u32Sequence.toNat / 16 := by
  have hpdata : (if ctx.u32Sequence % 2 = 0 then rxLowBefore ctx else rxHighHere ctx) < 16 := by
    split
    · rw [rxLowBefore]
      split
      · decide
      · exact and_lt _
    · exact shiftRight_lt _
  exact toNat_xor_div ⟨_, hpdata⟩ ctx.u32Sequence

/-- A frame moves the receiver by one nibble at most, and only if it is of its group of sixteen. -/
theorem position_concat (fs : List Frame) (f : Frame) :
    position (fs ++ [f]) ≤ position fs ∨ (position (fs ++ [f]) = position fs + 1 ∧
      position fs % 256 / 16 = (rxFlag f.sendlen).toNat / 16) := by
  have hgroup : rxAccepts (rxAfter fs) f.sendlen →
      position fs % 256 / 16 = (rxFlag f.sendlen).toNat / 16 := by
    intro hacc
    have hflag : rxFlag f.sendlen = rxExpected (rxAfter fs) := hacc
    rw [hflag, rxExpected_div, sequence_rxAfter]
  have hseq := (rxAfter fs).u32Sequence.toNat_lt
  rw [position, position, completed_concat, rxAfter_concat]
  rcases rxCompletes_cases (rxAfter fs) f.sendlen with hc | ⟨he, hacc⟩ | hrej
  · have hodd := hc.1
    rw [Ne, mod_two_eq_zero_iff] at hodd
    refine .inr ⟨?_, hgroup hc.2⟩
    rw [(rxStep_odd_counters hc.1 hc.2).2, if_pos hc, UInt8.toNat_add, UInt8.toNat_one]
    omega
  · have heven := (mod_two_eq_zero_iff _).mp he
    refine .inr ⟨?_, hgroup hacc⟩
    rw [rxStep_accept_even he hacc, if_neg fun hc => hc.1 he, UInt8.toNat_add, UInt8.toNat_one]
    omega
  · refine .inl ?_
    rw [rxStep_reject hrej, if_neg fun hc => hrej hc.2]
    split
    · exact Nat.add_le_add_left (Nat.zero_le _) _
    · exact Nat.le_refl _

/-- The frame at place `q` of a transmission is of the group of `q`. -/
theorem flag_group {m : Message} {q : Nat} {s : Int}
    (h : (smartCode.encode m.air)[q]? = some (airFrame s)) :
    (rxFlag s).toNat / 16 = q % 256 / 16 := by
  rw [ChainCode.getElem?_encode, Option.map_eq_some_iff] at h
  obtain ⟨x, hx, hair⟩ := h
  have hlt := (List.getElem?_eq_some_iff.mp hx).1
  have hflag : smartCode.expected (m.air.take q) = rxFlag s := congrArg Prod.fst hair
  rw [← hflag, ChainCode.expected, List.length_take_of_le (Nat.le_of_lt hlt)]
  exact (toNat_xor_div _ _).trans (by rw [UInt8.toNat_ofNat'])

/-- A bound that one frame of a transmission preserves, on a whole stretch of it. -/
theorem position_bound {B : Nat → Nat → Prop} {m : Message}
    (hkeep : ∀ {q n n'}, B q n → q < 2 * (m.bytes.length + 2) → n' ≤ n → B (q + 1) n')
    (hmove : ∀ {q n}, B q n → q < 2 * (m.bytes.length + 2) → n % 256 / 16 = q % 256 / 16 →
      B (q + 1) (n + 1))
    {pre : List Frame} {t : Nat} (h0 : B t (position pre)) (gs : List Frame)
    (hgs : airFrames gs <+: (smartCode.encode m.air).drop t) :
    B (t + gs.length) (position (pre ++ gs)) := by
  induction gs using List.reverseRecOn with
  | nil => rwa [List.append_nil]
  | append_singleton gs f ih =>
      rw [airFrames, List.map_append] at hgs
      have hB := ih ((List.prefix_append _ _).trans hgs)
      have hget : (smartCode.encode m.air)[t + gs.length]? = some (airFrame f.sendlen) := by
        obtain ⟨ys, hys⟩ := hgs
        rw [← List.getElem?_drop, ← hys]
        simp
      have hlt := (List.getElem?_eq_some_iff.mp hget).1
      rw [ChainCode.length_encode, m.length_air] at hlt
      rw [← List.append_assoc, List.length_append, List.length_singleton, ← Nat.add_assoc]
      rcases position_concat (pre ++ gs) f with hle | ⟨hsucc, hgroup⟩
      · exact hkeep hB hlt hle
      · rw [hsucc]
        exact hmove hB hlt (hgroup.trans (flag_group hget))

/-- In the tail of a transmission whose beginning was missed: the first group is not finished in it,
and is begun again 256 frames later. -/
def TailBound (q n : Nat) : Prop :=
  (q ≤ 256 → n ≤ 15 ∧ n < q) ∧ (256 < q → n ≤ 16 ∨ n ≤ q - 256)

/-- In the first whole transmission after it: 256 is reached with the last group before it only. -/
def NextBound (q n : Nat) : Prop :=
  (q ≤ 256 → n ≤ 256 ∧ (q < 240 → n < 256)) ∧ (256 < q → n ≤ q)

/-- After the tail and one whole transmission, the receiver has not come round. -/
theorem position_lt {m : Message} {t : Nat} (ht : 1 ≤ t) (late first : List Frame)
    (hlate : airFrames late = (smartCode.encode m.air).drop t)
    (hfirst : airFrames first = smartCode.encode m.air) :
    position (late ++ first) < 512 := by
  have hair := m.length_air
  have h253 := m.le_253
  have hlen : late.length = 2 * (m.bytes.length + 2) - t := by
    have := congrArg List.length hlate
    simpa [airFrames] using this
  have hlen' : first.length = 2 * (m.bytes.length + 2) := by
    have := congrArg List.length hfirst
    simpa [airFrames] using this
  have htail : TailBound (t + late.length) (position ([] ++ late)) := by
    refine position_bound (m := m) ?_ ?_ ?_ late (hlate ▸ List.prefix_rfl)
    · rintro q n n' ⟨h1, h2⟩ hq hle
      exact ⟨by omega, by omega⟩
    · rintro q n ⟨h1, h2⟩ hq hgroup
      exact ⟨by omega, by omega⟩
    · exact ⟨fun _ => ⟨Nat.zero_le _, ht⟩, fun _ => .inl (Nat.zero_le _)⟩
  have hnext : NextBound (0 + first.length) (position (late ++ first)) := by
    refine position_bound (m := m) ?_ ?_ ?_ first (hfirst ▸ List.prefix_rfl)
    · rintro q n n' ⟨h1, h2⟩ hq hle
      exact ⟨by omega, by omega⟩
    · rintro q n ⟨h1, h2⟩ hq hgroup
      exact ⟨by omega, by omega⟩
    · rw [List.nil_append] at htail
      obtain ⟨h1, h2⟩ := htail
      have hmissed : position late < 256 := by
        rcases Nat.lt_or_ge (2 * (m.bytes.length + 2)) t with hgt | hle
        · rw [List.length_eq_zero_iff.mp (show late.length = 0 by omega)]
          exact Nat.zero_lt_succ _
        · omega
      exact ⟨fun _ => ⟨Nat.le_of_lt hmissed, fun _ => hmissed⟩, fun h => absurd h (by decide)⟩
  obtain ⟨h1, h2⟩ := hnext
  omega

theorem completed_le_append (fs gs : List Frame) : completed fs ≤ completed (fs ++ gs) := by
  induction gs using List.reverseRecOn with
  | nil => rw [List.append_nil]
  | append_singleton gs f ih =>
      rw [← List.append_assoc, completed_concat]
      exact Nat.le_add_right_of_le ih

theorem position_append_le (fs gs : List Frame) :
    position (fs ++ gs) ≤ position fs + gs.length := by
  induction gs using List.reverseRecOn with
  | nil => exact Nat.le_of_eq (by rw [List.append_nil]; rfl)
  | append_singleton gs f ih =>
      have hstep := position_concat (fs ++ gs) f
      rw [← List.append_assoc, List.length_append, List.length_singleton]
      omega

/-! ## The first callback -/

/-- What the nibbles deliver first is called back first. -/
theorem call_of_head {r : Received} {ctx : SmartLinkRx} (h : Holds r ctx) {fs : List Frame}
    {bs : List UInt8} (hbs : bs.length ≤ 253)
    (hhead : (Mealy.run Received.step r (airFrames fs)).2.head? = some bs) :
    ∃ c cs, (Mealy.run rxStep ctx fs).2 = c :: cs ∧ HandsOver bs c := by
  induction fs generalizing r ctx with
  | nil => cases hhead
  | cons f fs ih =>
      have hlen : r.nibs.length < 511 := by
        by_cases h2 : 2 ≤ r.nibs.length
        · have hle := (prefix_of_head h2 hhead).length_le
          rw [List.length_drop, length_nibbles, List.length_append, List.length_singleton] at hle
          omega
        · omega
      obtain ⟨hholds, hcall⟩ := rxStep_refines h hlen f
      rw [airFrames, List.map_cons, ← airFrames, Mealy.run_cons] at hhead
      rw [Mealy.run_cons]
      obtain ⟨hd, hnone⟩ | ⟨p, c, hd, hc, hfor⟩ := call_cases hcall
      · rw [hd] at hhead
        rw [hnone]
        exact ih hholds hhead
      · rw [hd] at hhead
        obtain rfl : p = bs := Option.some.inj hhead
        rw [hc]
        exact ⟨c, _, rfl, hfor.len, hfor.delivers⟩

/-- Two readings of what a callback hands over. -/
theorem HandsOver.unique {p q : List UInt8} {c : RxCall} (hp : HandsOver p c)
    (hq : HandsOver q c) : p = q := by
  have hlen : p.length = q.length := by
    have := hp.1.symm.trans hq.1
    omega
  have hp2 : c.buf.take (p.length + 1) = p ++ [0x00] := hp.2
  have hq2 : c.buf.take (q.length + 1) = q ++ [0x00] := hq.2
  rw [hlen, hq2] at hp2
  exact (List.append_inj_left hp2 hlen.symm).symm

/-- What is called back first is what the nibbles deliver first, if the byte counter has not come
round to the length of it again. -/
theorem head_of_call {fs : List Frame} {bs : List UInt8} {c : RxCall} {cs : List RxCall}
    (hbs : bs.length ≤ 253) (hround : completed fs < 256 + (bs.length + 2))
    (hcalls : rxCalls fs = c :: cs) (hc : HandsOver bs c) :
    (collected fs).2.head? = some bs := by
  obtain ⟨gs, f, hs, rfl, hquiet, hcall⟩ := Mealy.exists_first hcalls
  have hsplit : gs ++ f :: hs = gs ++ [f] ++ hs := by simp
  -- the length handed over is the index, which is that of the bytes completed
  obtain ⟨hodd, hacc, -, -⟩ := rxStep_call hcall
  have hlen : c.len = (rxAfter (gs ++ [f])).u32Index.toNat := by
    rw [rxAfter_concat]
    exact rxStep_call_len hcall
  have hcompletes : completed (gs ++ [f]) = completed gs + 1 := by
    rw [completed_concat, if_pos ⟨hodd, hacc⟩]
  have hle := completed_le_append (gs ++ [f]) hs
  rw [← hsplit] at hle
  rw [index_rxAfter, hc.1] at hlen
  obtain ⟨hr, hcount, hdelivered⟩ := holds_rxAfter gs (by omega)
  have hnone : (collected gs).2 = [] := by
    have hquiet : rxCalls gs = [] := hquiet
    rw [hquiet] at hdelivered
    exact List.forall₂_nil_right_iff.mp hdelivered
  obtain ⟨-, hrel⟩ := rxStep_refines hr (by omega) f
  obtain ⟨-, h0⟩ | ⟨p, c', hp, hc', hfor⟩ := call_cases hrel
  · rw [rxAfter] at h0
    rw [h0] at hcall
    cases hcall
  · have hc'' := hc'.symm.trans hcall
    obtain rfl := Option.some.inj hc''
    have hpbs : p = bs := HandsOver.unique ⟨hfor.len, hfor.delivers⟩ hc
    rw [hsplit, collected, airFrames, List.map_append, ← airFrames, Mealy.run_append, ← collected,
      collected_concat, hnone, hp, hpbs]
    rfl

/-! ## Every tail -/

/-- The frames of a tail of a transmission and of two whole ones behind it. -/
def lateStart (m : Message) (t : Nat) : List (UInt8 × Nibble) :=
  (smartCode.encode m.air).drop t ++ (smartCode.encode m.air ++ smartCode.encode m.air)

/-- A tail and at least two transmissions, taken apart. -/
theorem split_late {tx : SmartLinkTx} {m : Message} {t k : Nat} {fs : List Frame}
    (h : fs.map (·.sendlen) = (m.send tx).drop t ++ sendAll tx (List.replicate (k + 2) m)) :
    ∃ late first second others, fs = late ++ (first ++ second) ++ others ∧
      airFrames late = (smartCode.encode m.air).drop t ∧
      airFrames first = smartCode.encode m.air ∧ airFrames second = smartCode.encode m.air ∧
      (k = 0 → others = []) := by
  obtain ⟨late, rest, rfl, hlate, hrest⟩ := List.map_eq_append_iff.mp h
  rw [List.replicate_succ, List.replicate_succ] at hrest
  obtain ⟨first, rest, rfl, hfirst, tx', hrest⟩ := split_sendAll hrest
  obtain ⟨second, others, rfl, hsecond, tx'', hothers⟩ := split_sendAll hrest
  refine ⟨late, first, second, others, by simp, airFrames_of_send hlate, hfirst, hsecond, ?_⟩
  rintro rfl
  exact List.map_eq_nil_iff.mp hothers

theorem airFrames_append (fs gs : List Frame) :
    airFrames (fs ++ gs) = airFrames fs ++ airFrames gs := List.map_append

/-- A message from whose fifth frame on the receiver completes the byte 0F, and yet recovers. -/
def falseStart : Message where
  bytes := [0x04, 0x07, 0xF1]
  one_le := by decide
  le_253 := by decide

/-- The message `8`: one opening in its tail, left with nibble 8. -/
def digit8 : Message where
  bytes := [0x38]
  one_le := by decide
  le_253 := by decide

/-- At the start, over a nibble with bit 3 set. -/
def OverStale (ctx : SmartLinkRx) : Prop := Holds ⟨hi 0x80, []⟩ ctx ∨ Holds ⟨hi 0xF0, []⟩ ctx

/-- From there a transmission of `8` leads nowhere. -/
theorem overStale_send {ctx : SmartLinkRx} (h : OverStale ctx) :
    OverStale (Mealy.run rxStep ctx (framesFrom macZero (digit8.send ⟨0⟩))).1 ∧
      (Mealy.run rxStep ctx (framesFrom macZero (digit8.send ⟨0⟩))).2 = [] := by
  have hfs : airFrames (framesFrom macZero (digit8.send ⟨0⟩)) = smartCode.encode digit8.air := by
    rw [airFrames_framesFrom, map_airFrame_send]
  have hlen : (framesFrom macZero (digit8.send ⟨0⟩)).length = 6 := by
    rw [digit8.send_eq]
    rfl
  obtain ⟨stale, hstale, hr⟩ : ∃ stale, Mealy.run Received.step ⟨stale, []⟩
      (smartCode.encode digit8.air) = (⟨hi 0xF0, []⟩, []) ∧ Holds ⟨stale, []⟩ ctx := by
    rcases h with hr | hr
    · exact ⟨_, by decide, hr⟩
    · exact ⟨_, by decide, hr⟩
  obtain ⟨hH, hcalls⟩ := run_refines hr (framesFrom macZero (digit8.send ⟨0⟩)) (by simp [hlen])
  rw [hfs, hstale] at hH hcalls
  exact ⟨Or.inr hH, List.forall₂_nil_left_iff.mp hcalls⟩

/-- However often `8` is repeated, a receiver that came in at its second half misses it. -/
theorem late_start_lost (k : Nat) :
    rxCalls (framesFrom macZero
      ((digit8.send ⟨0⟩).drop 3 ++ sendAll ⟨0⟩ (List.replicate k digit8))) = [] := by
  have hfs : airFrames (framesFrom macZero ((digit8.send ⟨0⟩).drop 3)) =
      (smartCode.encode digit8.air).drop 3 := by
    rw [airFrames_framesFrom, List.map_drop, map_airFrame_send]
  have hlen : (framesFrom macZero ((digit8.send ⟨0⟩).drop 3)).length = 3 := by
    rw [digit8.send_eq]
    rfl
  have hlate : Mealy.run Received.step idle ((smartCode.encode digit8.air).drop 3) =
      (⟨hi 0x80, []⟩, []) := by decide
  have hrepeat : framesFrom macZero (sendAll ⟨0⟩ (List.replicate k digit8)) =
      (List.replicate k (framesFrom macZero (digit8.send ⟨0⟩))).flatten := by
    rw [sendAll_eq, digit8.send_eq, framesFrom, framesFrom, ← List.map_replicate,
      ← List.map_flatten, ← List.map_replicate, ← List.map_flatten, List.flatMap_def,
      List.map_replicate]
  obtain ⟨hH, hcalls⟩ := run_refines holds_idle (framesFrom macZero ((digit8.send ⟨0⟩).drop 3))
    (by rw [hlen]; decide)
  rw [hfs, hlate] at hH hcalls
  rw [framesFrom_append, rxCalls, Mealy.run_append,
    List.forall₂_nil_left_iff.mp hcalls, hrepeat, List.nil_append]
  exact Mealy.run_silent (fun _ h => overStale_send h) k _ (Or.inl hH)

end SmartConfig
