import SmartConfig.Link.InStep

/-!
# The first delivery

The decoder takes whatever completes its first byte for a beginning, and waits from there on for one
check value after the other; it has no way back. What it delivers first is decided by the frames
alone, and this file says how:

* `Received.head_iff` — behind a first byte, the first delivery is `m` exactly if the frames bring
  in turn what a sender would send of `m` behind that byte.
* `Recovers` — the same from the start, where openings of a first byte are given up again, and what
  they have put into the buffer stays there (`firstByte`). `Opening.head_iff` is the proof.

Everything here is about the nibbles received, not about the counters that wrap.
-/

namespace SmartConfig

open Nibble Received

/-! ## Behind the first byte -/

namespace Received

variable {r : Received} {f : UInt8 × Nibble} {fs : List (UInt8 × Nibble)} {bs : List UInt8}

/-- Behind the first byte, a frame that is not expected does nothing. -/
theorem step_foreign (h2 : 2 ≤ r.nibs.length) (hrej : f.1 ≠ smartCode.expected r.nibs) :
    r.step f = (r, none) := by
  rw [Received.step, if_neg hrej, if_neg fun hback => by omega]

/-- A nibble that completes no terminator is kept. -/
theorem step_keeps (hne : r.nibs ≠ []) (hacc : f.1 = smartCode.expected r.nibs)
    (hterm : ¬ Terminated (r.nibs ++ [f.2])) :
    r.step f = ({ r with nibs := r.nibs ++ [f.2] }, none) := by
  rw [Received.step, if_pos hacc, Received.accept, if_neg hne, if_neg hterm]

/-- One that completes a terminator delivers. -/
theorem step_terminates (hne : r.nibs ≠ []) (hacc : f.1 = smartCode.expected r.nibs)
    (hterm : Terminated (r.nibs ++ [f.2])) :
    (r.step f).2 = some (payload (r.nibs ++ [f.2])) := by
  rw [Received.step, if_pos hacc, Received.accept, if_neg hne, if_pos hterm]

theorem ne_nil_of_two_le (h2 : 2 ≤ r.nibs.length) : r.nibs ≠ [] :=
  List.ne_nil_of_length_pos (by omega)

/-- A terminated stream is its first byte, what it delivers, and the terminator. -/
theorem Terminated.drop_two {xs : List Nibble} (h : Terminated xs) :
    xs.drop 2 = nibbles (payload xs ++ [END_FLAGS]) := by
  obtain ⟨heven, hlong, hend⟩ := h
  obtain ⟨k, hk⟩ : ∃ k, xs.length / 2 = k + 3 := ⟨xs.length / 2 - 3, by omega⟩
  have hcells : nibbles ((List.range (k + 3)).map (cell xs)) = xs := nibbles_cells (by omega)
  rw [hk] at hend
  have hbytes : (List.range (k + 3)).map (cell xs) = cell xs 0 :: (payload xs ++ [END_FLAGS]) := by
    rw [payload, hk, ← hend, List.range_succ, List.range_succ_eq_map, List.map_append,
      List.map_cons, List.map_map]
    rfl
  rw [hbytes] at hcells
  exact (congrArg (List.drop 2) hcells).symm

/-- A nibble that is taken is in whatever is delivered first, if that has in it what is held. -/
theorem prefix_of_accept
    (hlater : ∀ {r : Received}, 2 ≤ r.nibs.length →
      (Mealy.run Received.step r fs).2.head? = some bs →
      r.nibs.drop 2 <+: nibbles (bs ++ [END_FLAGS]))
    (h2 : 2 ≤ r.nibs.length) (hacc : f.1 = smartCode.expected r.nibs)
    (h : (Mealy.run Received.step r (f :: fs)).2.head? = some bs) :
    (r.nibs ++ [f.2]).drop 2 <+: nibbles (bs ++ [END_FLAGS]) := by
  have hne := ne_nil_of_two_le h2
  rw [Mealy.run_cons] at h
  by_cases hterm : Terminated (r.nibs ++ [f.2])
  · rw [step_terminates hne hacc hterm] at h
    obtain rfl : payload (r.nibs ++ [f.2]) = bs := Option.some.inj h
    exact hterm.drop_two ▸ List.prefix_rfl
  · rw [step_keeps hne hacc hterm] at h
    exact hlater (by simp; omega) h

/-- Whatever is delivered first has in it what is held, from the second byte on. -/
theorem prefix_of_head (h2 : 2 ≤ r.nibs.length)
    (h : (Mealy.run Received.step r fs).2.head? = some bs) :
    r.nibs.drop 2 <+: nibbles (bs ++ [END_FLAGS]) := by
  induction fs generalizing r with
  | nil => cases h
  | cons f fs ih =>
      by_cases hacc : f.1 = smartCode.expected r.nibs
      · refine List.IsPrefix.trans ?_ (prefix_of_accept ih h2 hacc h)
        rw [List.drop_append_of_le_length h2]
        exact List.prefix_append _ _
      · rw [Mealy.run_cons, step_foreign h2 hacc] at h
        exact ih h2 h

/-- The first byte does not count for the terminator. -/
theorem Terminated.other_first {x y x' y' : Nibble} {zs : List Nibble}
    (h : Terminated (x :: y :: zs)) : Terminated (x' :: y' :: zs) := by
  obtain ⟨heven, h6, hend⟩ := h
  simp only [List.length_cons] at heven h6 hend
  obtain ⟨k, hk⟩ : ∃ k, (zs.length + 1 + 1) / 2 - 1 = k + 1 :=
    ⟨(zs.length + 1 + 1) / 2 - 2, by omega⟩
  rw [hk] at hend
  refine ⟨heven, h6, ?_⟩
  simp only [List.length_cons, hk]
  exact hend

variable {m : Message} {x y : Nibble} {ys zs : List Nibble}

/-- Behind any first byte, the rest of a plain message is terminated by its last nibble. -/
theorem terminated_behind_iff (hplain : m.Plain) (hsplit : ys ++ zs = m.air.drop 2) :
    Terminated (x :: y :: ys) ↔ zs = [] := by
  have hlen := congrArg List.length hsplit
  rw [List.length_append, List.length_drop, m.length_air] at hlen
  have hys : m.air.take (ys.length + 2) = hi START_FLAGS :: lo START_FLAGS :: ys := by
    have htake : ys = (m.air.drop 2).take ys.length := by rw [← hsplit, List.take_left]
    conv_rhs => rw [htake]
    rfl
  have hiff := terminated_take_iff m (u := ys.length + 2) (by rw [hplain.stop_eq]; omega)
  rw [hys, hplain.stop_eq] at hiff
  rw [← List.length_eq_zero_iff]
  constructor
  · intro h
    have := hiff.mp h.other_first
    omega
  · intro h0
    exact (hiff.mpr (by omega)).other_first

/-- What is terminated there is the message. -/
theorem payload_behind (hys : ys = m.air.drop 2) : payload (x :: y :: ys) = m.bytes := by
  have hbytes : x :: y :: ys = nibbles (join x y :: (m.bytes ++ [END_FLAGS])) := by
    rw [nibbles_cons, hi_join, lo_join, hys]
    rfl
  rw [hbytes, payload_nibbles]
  simp

/-- **The first delivery is `m`** exactly if the frames bring what is left of `m` in turn. -/
theorem head_iff (hplain : m.Plain) (hnibs : r.nibs = x :: y :: ys)
    (hsplit : ys ++ zs = m.air.drop 2) (hne : zs ≠ []) :
    (Mealy.run Received.step r fs).2.head? = some m.bytes ↔
      ChainCode.InTurn fs (smartCode.encodeFrom r.nibs zs) := by
  induction fs generalizing r ys zs with
  | nil =>
      obtain ⟨z, zs, rfl⟩ := List.exists_cons_of_ne_nil hne
      exact iff_of_false (fun h => nomatch h) ChainCode.not_inTurn_nil
  | cons f fs ih =>
      obtain ⟨z, zs, rfl⟩ := List.exists_cons_of_ne_nil hne
      have h2 : 2 ≤ r.nibs.length := by simp [hnibs]
      have hnil := ne_nil_of_two_le h2
      rw [ChainCode.encodeFrom, ChainCode.inTurn_cons_iff]
      by_cases hacc : f.1 = smartCode.expected r.nibs
      · rw [if_pos hacc]
        have hgrown : r.nibs ++ [f.2] = x :: y :: (ys ++ [f.2]) := by rw [hnibs]; rfl
        by_cases hz : f.2 = z
        · -- the right nibble: the last one delivers, any other one is kept
          have hsplit' : (ys ++ [f.2]) ++ zs = m.air.drop 2 := by rw [← hsplit, hz]; simp
          have hterm : Terminated (x :: y :: (ys ++ [f.2])) ↔ zs = [] :=
            terminated_behind_iff hplain hsplit'
          rw [← hgrown] at hterm
          by_cases hlast : zs = []
          · have hall : ys ++ [f.2] = m.air.drop 2 := by rw [← hsplit', hlast, List.append_nil]
            rw [Mealy.run_cons, step_terminates hnil hacc (hterm.mpr hlast), hgrown,
              payload_behind hall, hlast]
            exact iff_of_true rfl ⟨hz, trivial⟩
          · have hstep := step_keeps hnil hacc (mt hterm.mp hlast)
            rw [Mealy.run_cons, hstep, and_iff_right hz, ← hz]
            exact ih hgrown hsplit' hlast
        · -- a wrong one stays in whatever is delivered
          refine iff_of_false (fun h => hz ?_) fun h => hz h.1
          have hheld := prefix_of_accept prefix_of_head h2 hacc h
          have hair : nibbles (m.bytes ++ [END_FLAGS]) = ys ++ z :: zs := hsplit.symm
          rw [hgrown, hair] at hheld
          have hnext : [f.2] <+: z :: zs := (List.prefix_append_right_inj ys).mp hheld
          exact (List.cons_prefix_cons.mp hnext).1
      · rw [if_neg hacc, Mealy.run_cons, step_foreign h2 hacc]
        exact ih hnibs hsplit hne

end Received

/-! ## The first byte -/

theorem Message.drop_air_ne_nil (m : Message) : m.air.drop 2 ≠ [] := by
  refine List.ne_nil_of_length_pos ?_
  rw [List.length_drop, m.length_air]
  omega

/-- What the receiver holds while it looks for the first byte. -/
def Opening (high : Nibble) (isOpen : Bool) (r : Received) : Prop :=
  if isOpen then r.nibs = [high] else r = ⟨high, []⟩

/-- The two nibbles of the first byte that the frames complete, and the frames behind it. A frame
with check value 0 opens a byte; `high` collects the nibbles of the openings so far, and `isOpen`
tells that the last of them still waits for its second half, which it does as long as the nibbles
are 7. -/
def firstByte (high : Nibble) :
    Bool → List (UInt8 × Nibble) → Option (List Nibble × List (UInt8 × Nibble))
  | _, [] => none
  | false, f :: fs =>
    if f.1 = 0 then firstByte (merge high f.2) true fs else firstByte high false fs
  | true, f :: fs =>
    if f.1 = high.val ^^^ 1 then some ([high, f.2], fs) else firstByte high (f.2.val = 0x7) fs

/-- What has to be heard for `m` to be the first delivery: some first byte, and behind it, in turn,
what the sender would send of `m` behind that byte. -/
def Recovers (m : Message) (high : Nibble) (isOpen : Bool) (fs : List (UInt8 × Nibble)) : Prop :=
  ∃ b ∈ firstByte high isOpen fs,
    ChainCode.InTurn b.2 (smartCode.encodeFrom b.1 (m.air.drop 2))

instance (m : Message) (high : Nibble) (isOpen : Bool) (fs : List (UInt8 × Nibble)) :
    Decidable (Recovers m high isOpen fs) := inferInstanceAs (Decidable (∃ b ∈ _, _))

theorem expected_singleton (x : Nibble) : smartCode.expected [x] = x.val ^^^ 1 :=
  expected_concat [] x

theorem recovers_cons_false {m : Message} {high : Nibble} {f : UInt8 × Nibble}
    {fs : List (UInt8 × Nibble)} :
    Recovers m high false (f :: fs) ↔
      if f.1 = 0 then Recovers m (merge high f.2) true fs else Recovers m high false fs := by
  rw [Recovers, firstByte]
  split <;> rfl

theorem recovers_cons_true {m : Message} {high : Nibble} {f : UInt8 × Nibble}
    {fs : List (UInt8 × Nibble)} :
    Recovers m high true (f :: fs) ↔
      if f.1 = high.val ^^^ 1 then
        ChainCode.InTurn fs (smartCode.encodeFrom [high, f.2] (m.air.drop 2))
      else Recovers m high (f.2.val = 0x7) fs := by
  rw [Recovers, firstByte]
  split
  · simp
  · rfl

theorem not_recovers_nil {m : Message} {high : Nibble} {isOpen : Bool} :
    ¬ Recovers m high isOpen [] := by
  rintro ⟨b, hb, -⟩
  cases isOpen <;> cases hb

/-- Nothing is delivered before the first byte is complete. -/
theorem Opening.head_iff {m : Message} (hplain : m.Plain) {high : Nibble} {isOpen : Bool}
    {r : Received} (h : Opening high isOpen r) {fs : List (UInt8 × Nibble)} :
    (Mealy.run Received.step r fs).2.head? = some m.bytes ↔ Recovers m high isOpen fs := by
  induction fs generalizing high isOpen r with
  | nil => exact iff_of_false (fun h => nomatch h) not_recovers_nil
  | cons f fs ih =>
      cases isOpen with
      | false =>
          obtain rfl : r = ⟨high, []⟩ := h
          rw [Mealy.run_cons, Received.step, expected_nil, recovers_cons_false]
          by_cases h0 : f.1 = 0
          · rw [if_pos h0, if_pos h0]
            exact ih (show Opening _ true _ from rfl)
          · rw [if_neg h0, if_neg h0, if_neg (by simp)]
            exact ih (show Opening _ false _ from rfl)
      | true =>
          have hnibs : r.nibs = [high] := h
          rw [Mealy.run_cons, recovers_cons_true, ← expected_singleton, ← hnibs]
          by_cases hacc : f.1 = smartCode.expected r.nibs
          · -- the byte is complete
            have hterm : ¬ Terminated (r.nibs ++ [f.2]) := by
              rintro ⟨-, h6, -⟩
              simp [hnibs] at h6
            have hgrown : r.nibs ++ [f.2] = [high, f.2] := by rw [hnibs]; rfl
            rw [if_pos hacc, step_keeps (by simp [hnibs]) hacc hterm, hgrown]
            exact Received.head_iff hplain rfl (List.nil_append _) m.drop_air_ne_nil
          · rw [if_neg hacc, Received.step, if_neg hacc, hnibs]
            by_cases h7 : f.2.val = 0x7
            · rw [if_neg fun hback => hback.2 h7, decide_eq_true h7]
              exact ih (show Opening _ true _ from hnibs)
            · -- the restart: the nibble stays in the buffer
              rw [if_pos ⟨rfl, h7⟩, decide_eq_false h7]
              exact ih (show Opening _ false _ from rfl)

end SmartConfig
