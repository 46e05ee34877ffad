import SmartConfig.SmartLinkRx.Source
import SmartConfig.SmartLinkRx.Start

/-!
# The representation of the decoder

What ties the two counters and the buffer together: the sequence number counts the halves of the
index through every wrap of either (`CountersAgree`), and until the index wraps, nothing has been
written where the next nibble goes (`CellsClear`). The nibbles are ORed into the cells, so that this
is what makes a byte consist of the two nibbles accepted for it and of nothing else
(`decoder_representation`).
-/

namespace SmartConfig

open Nibble Received

/-! ## The invariant -/

/-- The sequence number is twice the index, and one more in the middle of a byte, modulo 256. -/
def CountersAgree (ctx : SmartLinkRx) : Prop :=
  ctx.u32Sequence.toNat = (2 * ctx.u32Index.toNat + ctx.u32Sequence.toNat % 2) % 256

/-- Nothing is in the cells above the index, nor in the half that the next low nibble goes to, nor,
from the second byte on, in the half that the next high nibble goes to. -/
structure CellsClear (ctx : SmartLinkRx) : Prop where
  above : ∀ (i : Nat) (h : i < BUFFER_MAX), ctx.u32Index.toNat < i → ctx.buffer[i] = 0
  low : ctx.buffer.at ctx.u32Index &&& 0xF = 0
  fresh : 1 ≤ ctx.u32Index.toNat → ctx.u32Sequence % 2 = 0 → ctx.buffer.at ctx.u32Index = 0

/-- A frame of this length completes a byte. -/
def rxCompletes (ctx : SmartLinkRx) (sendlen : Int) : Prop :=
  ctx.u32Sequence % 2 ≠ 0 ∧ rxAccepts ctx sendlen

instance (ctx : SmartLinkRx) (sendlen : Int) : Decidable (rxCompletes ctx sendlen) :=
  inferInstanceAs (Decidable (_ ∧ _))

/-- The bytes that a sequence of frames completes. -/
def bytesCompleted : SmartLinkRx → List Frame → Nat
  | _, [] => 0
  | ctx, f :: fs =>
    (if rxCompletes ctx f.sendlen then 1 else 0) + bytesCompleted (rxStep ctx f).1 fs

theorem bytesCompleted_concat (ctx : SmartLinkRx) (fs : List Frame) (f : Frame) :
    bytesCompleted ctx (fs ++ [f]) =
      bytesCompleted ctx fs +
        if rxCompletes (Mealy.run rxStep ctx fs).1 f.sendlen then 1 else 0 := by
  induction fs generalizing ctx with
  | nil => exact (Nat.zero_add _).symm
  | cons g fs ih => rw [List.cons_append, bytesCompleted, ih, bytesCompleted, Nat.add_assoc]; rfl

/-! ## The counters -/

theorem CountersAgree.step {ctx : SmartLinkRx} (h : CountersAgree ctx) (f : Frame) :
    CountersAgree (rxStep ctx f).1 := by
  have hseq := ctx.u32Sequence.toNat_lt
  rw [CountersAgree] at h
  by_cases hacc : rxAccepts ctx f.sendlen
  · by_cases he : ctx.u32Sequence % 2 = 0
    · rw [rxStep_accept_even he hacc, CountersAgree]
      rw [mod_two_eq_zero_iff] at he
      simp only [UInt8.toNat_add, UInt8.toNat_one]
      omega
    · have hodd : ctx.u32Sequence.toNat % 2 = 1 := by
        rw [mod_two_eq_zero_iff] at he
        omega
      obtain ⟨hidx, hnext⟩ := rxStep_odd_counters he hacc
      rw [CountersAgree, hidx, hnext, UInt8.toNat_add, UInt8.toNat_add, UInt8.toNat_one]
      omega
  · rw [rxStep_reject hacc]
    split
    · next hrestart =>
      rw [CountersAgree, hrestart.2.1]
      rfl
    · exact h

/-- Through every restart and every wrap. -/
theorem countersAgree_rxAfter (fs : List Frame) : CountersAgree (rxAfter fs) :=
  Mealy.run_inv (P := fun _ => True) (fun _ f h _ => h.step f) fs _ rfl fun _ _ => trivial

/-! ## The cells -/

theorem Received.length_content_le (r : Received) :
    r.content.length ≤ 2 * (r.nibs.length / 2) + 1 := by
  rw [Received.content]
  split
  · exact Nat.succ_le_succ (Nat.zero_le _)
  · omega

theorem Holds.clear {r : Received} {ctx : SmartLinkRx} (h : Holds r ctx) : CellsClear ctx where
  above i hi hlt := by
    have hidx := h.index
    have hlen := r.length_content_le
    rw [h.cells i hi, cell_of_length_le (by omega)]
  low := by
    have hlen := r.length_content_le
    have hzero : r.content.getD (2 * ctx.u32Index.toNat + 1) 0 = 0 := by
      rw [h.index, List.getD_eq_getElem?_getD, List.getElem?_eq_none hlen]
      rfl
    rw [h.at_eq, ← lo_val, cell, lo_join, hzero]
    rfl
  fresh hpos he := by
    have hidx := h.index
    have heven := h.even_iff.mp he
    have hne : r.nibs ≠ [] := by
      rintro hnil
      rw [hnil] at hidx
      simp at hidx
      omega
    rw [h.at_eq, Holds.content_of_ne hne, cell_of_length_le (by omega)]

/-! ## Before the index wraps -/

/-- The bytes completed since the start. -/
def completed (fs : List Frame) : Nat := bytesCompleted smartLinkRxStart fs

theorem completed_concat (fs : List Frame) (f : Frame) :
    completed (fs ++ [f]) =
      completed fs + if rxCompletes (rxAfter fs) f.sendlen then 1 else 0 :=
  bytesCompleted_concat smartLinkRxStart fs f

/-- Every frame is one of three: it completes a byte, begins one, or is not taken. -/
theorem rxCompletes_cases (ctx : SmartLinkRx) (sendlen : Int) :
    rxCompletes ctx sendlen ∨ (ctx.u32Sequence % 2 = 0 ∧ rxAccepts ctx sendlen) ∨
      ¬ rxAccepts ctx sendlen := by
  by_cases hacc : rxAccepts ctx sendlen
  · by_cases he : ctx.u32Sequence % 2 = 0
    · exact Or.inr (Or.inl ⟨he, hacc⟩)
    · exact Or.inl ⟨he, hacc⟩
  · exact Or.inr (Or.inr hacc)

/-- The nibbles received in a run, and what they deliver. -/
def collected (fs : List Frame) : Received × List (List UInt8) :=
  Mealy.run Received.step idle (airFrames fs)

theorem collected_concat (fs : List Frame) (f : Frame) :
    collected (fs ++ [f]) =
      (((collected fs).1.step (airFrame f.sendlen)).1,
        (collected fs).2 ++ ((collected fs).1.step (airFrame f.sendlen)).2.toList) := by
  rw [collected, airFrames, List.map_append, List.map_singleton, Mealy.run_concat]
  rfl

/-- As long as fewer than 256 bytes are completed, the context stands for the nibbles received, the
index counts the bytes, and the calls are those that the nibbles deliver. -/
theorem holds_rxAfter (fs : List Frame) (h : completed fs < 256) :
    Holds (collected fs).1 (rxAfter fs) ∧ (collected fs).1.nibs.length / 2 = completed fs ∧
      List.Forall₂ (fun m c => ∃ f, CallFor f m c) (collected fs).2 (rxCalls fs) := by
  induction fs using List.reverseRecOn with
  | nil => exact ⟨holds_idle, rfl, .nil⟩
  | append_singleton fs f ih =>
      rw [completed_concat] at h ⊢
      obtain ⟨hr, hlen, hcalls⟩ := ih (by omega)
      rw [rxAfter_concat, rxCalls_concat, collected_concat]
      rcases rxCompletes_cases (rxAfter fs) f.sendlen with hc | ⟨he, hacc⟩ | hrej
      · rw [if_pos hc] at h ⊢
        have hodd : (collected fs).1.nibs.length % 2 ≠ 0 := fun h0 => hc.1 (hr.even_iff.mpr h0)
        have hgrow := Received.length_step_accept (hr.accepts_iff.mp hc.2)
        obtain ⟨hholds, hcall⟩ := rxStep_refines hr (by omega) f
        have hlast : List.Forall₂ (fun m c => ∃ f, CallFor f m c) _ _ :=
          (Mealy.rel_toList hcall).imp fun _ _ hfor => ⟨f, hfor⟩
        refine ⟨hholds, ?_, List.rel_append hcalls hlast⟩
        dsimp only
        omega
      · have heven := hr.even_iff.mp he
        have hgrow := Received.length_step_accept (hr.accepts_iff.mp hacc)
        obtain ⟨hholds, hnone, hquiet⟩ := hr.accept_even hacc heven
        rw [if_neg fun hc => hc.1 he, hnone, hquiet]
        refine ⟨hholds, ?_, List.rel_append hcalls .nil⟩
        dsimp only
        omega
      · have hkeep := Received.length_step_reject fun h' => hrej (hr.accepts_iff.mpr h')
        obtain ⟨hholds, hnone, hquiet⟩ := hr.reject hrej
        rw [if_neg fun hc => hrej hc.2, hnone, hquiet]
        refine ⟨hholds, ?_, List.rel_append hcalls .nil⟩
        dsimp only
        omega

/-- A frame accepted in a run and one more is that one, or was accepted in the run. -/
theorem AcceptedInto.concat {fs : List Frame} {f g : Frame} {i : Nat} {k : UInt8}
    (h : AcceptedInto (fs ++ [f]) i g k) :
    AcceptedInto fs i g k ∨
      (i = fs.length ∧ g = f ∧ rxAccepts (rxAfter fs) f.sendlen ∧ (rxAfter fs).u32Index = k) := by
  obtain ⟨hframe, hacc, hbyte⟩ := h
  rcases Nat.lt_trichotomy i fs.length with hlt | rfl | hgt
  · rw [List.getElem?_append_left hlt] at hframe
    rw [List.take_append_of_le_length (Nat.le_of_lt hlt)] at hacc hbyte
    exact Or.inl ⟨hframe, hacc, hbyte⟩
  · rw [List.getElem?_concat_length] at hframe
    obtain rfl := Option.some.inj hframe
    rw [List.take_left] at hacc hbyte
    exact Or.inr ⟨rfl, rfl, hacc, hbyte⟩
  · rw [List.getElem?_eq_none (by simp; omega)] at hframe
    cases hframe

theorem AcceptedInto.mono {fs : List Frame} (f : Frame) {g : Frame} {i : Nat} {k : UInt8}
    (h : AcceptedInto fs i g k) : AcceptedInto (fs ++ [f]) i g k := by
  obtain ⟨hframe, hacc, hbyte⟩ := h
  have hlt := (List.getElem?_eq_some_iff.mp hframe).1
  refine ⟨by rw [List.getElem?_append_left hlt, hframe], ?_, ?_⟩
  · rwa [List.take_append_of_le_length (Nat.le_of_lt hlt)]
  · rwa [List.take_append_of_le_length (Nat.le_of_lt hlt)]

/-- What the frames accepted so far have put where: none of them went above the index, and the
byte at the index, if it is not the first, is the high half that one of them has put there, and only
one. -/
structure Assembled (fs : List Frame) : Prop where
  below : ∀ i g k, AcceptedInto fs i g k → k.toNat ≤ (rxAfter fs).u32Index.toNat
  high : 1 ≤ (rxAfter fs).u32Index.toNat → ∀ i g, AcceptedInto fs i g (rxAfter fs).u32Index →
    (rxAfter fs).u32Sequence % 2 ≠ 0 ∧
      (rxAfter fs).buffer.at (rxAfter fs).u32Index = rxData g.sendlen <<< 4
  opened : 1 ≤ (rxAfter fs).u32Index.toNat → (rxAfter fs).u32Sequence % 2 ≠ 0 →
    ∃ i g, AcceptedInto fs i g (rxAfter fs).u32Index
  once : 1 ≤ (rxAfter fs).u32Index.toNat → ∀ {i j g g'},
    AcceptedInto fs i g (rxAfter fs).u32Index → AcceptedInto fs j g' (rxAfter fs).u32Index → i = j

theorem succ_even {s : UInt8} (h : s % 2 ≠ 0) : (s + 1) % 2 = 0 := by
  rw [Ne, mod_two_eq_zero_iff] at h
  rw [mod_two_eq_zero_iff, UInt8.toNat_add, UInt8.toNat_one]
  omega

theorem succ_odd {s : UInt8} (h : s % 2 = 0) : (s + 1) % 2 ≠ 0 := by
  rw [mod_two_eq_zero_iff] at h
  rw [Ne, mod_two_eq_zero_iff, UInt8.toNat_add, UInt8.toNat_one]
  omega

namespace Assembled

variable {fs : List Frame} {f : Frame}

theorem nil : Assembled [] where
  below i g k h := absurd h.frame (by simp)
  high h := absurd h (by decide)
  opened h := absurd h (by decide)
  once h := absurd h (by decide)

/-- One frame more goes to the byte at the index, if anywhere. -/
theorem below_concat (h : Assembled fs) {i : Nat} {g : Frame} {k : UInt8}
    (hinto : AcceptedInto (fs ++ [f]) i g k) : k.toNat ≤ (rxAfter fs).u32Index.toNat := by
  rcases hinto.concat with hold | ⟨-, -, -, rfl⟩
  · exact h.below i g k hold
  · exact Nat.le_refl _

/-- A byte is completed, and nothing has been accepted for the next one. -/
theorem complete (h : Assembled fs) (hlt : (rxAfter fs).u32Index.toNat < 255)
    (hc : rxCompletes (rxAfter fs) f.sendlen) : Assembled (fs ++ [f]) := by
  obtain ⟨hidx, hseq⟩ := rxStep_odd_counters hc.1 hc.2
  rw [← rxAfter_concat] at hidx hseq
  have hnext : (rxAfter (fs ++ [f])).u32Index.toNat = (rxAfter fs).u32Index.toNat + 1 := by
    rw [hidx, toNat_add_one hlt]
  refine ⟨fun i g k hinto => ?_, fun _ i g hinto => ?_, fun _ hodd => ?_, fun _ i _ g _ hinto => ?_⟩
  · have hle := h.below_concat hinto
    omega
  · have hle := h.below_concat hinto
    omega
  · rw [hseq] at hodd
    exact absurd (succ_even hc.1) hodd
  · have hle := h.below_concat hinto
    omega

/-- A high half is put into an empty cell. -/
theorem begins (h : Assembled fs) (hclear : CellsClear (rxAfter fs))
    (he : (rxAfter fs).u32Sequence % 2 = 0) (hacc : rxAccepts (rxAfter fs) f.sendlen) :
    Assembled (fs ++ [f]) := by
  have hstep := rxStep_accept_even he hacc
  have hnew : AcceptedInto (fs ++ [f]) fs.length f (rxAfter fs).u32Index :=
    ⟨by simp, by rwa [List.take_left], by rw [List.take_left]⟩
  constructor <;> rw [rxAfter_concat, hstep] <;> dsimp only
  · exact fun i g k hinto => h.below_concat hinto
  · intro hpos i g hinto
    refine ⟨succ_odd he, ?_⟩
    rcases hinto.concat with hold | ⟨-, rfl, -, -⟩
    · exact absurd he (h.high hpos i g hold).1
    · rw [RxBuffer.at_eq _ _ (toNat_lt_BUFFER_MAX _), RxBuffer.getElem_put, if_pos rfl,
        hclear.fresh hpos he, UInt8.zero_or]
  · exact fun _ _ => ⟨_, _, hnew⟩
  · intro hpos i j g g' hi hj
    have hlast : ∀ {i g}, AcceptedInto (fs ++ [f]) i g (rxAfter fs).u32Index → i = fs.length := by
      intro i g hinto
      rcases hinto.concat with hold | ⟨hi, -⟩
      · exact absurd he (h.high hpos i g hold).1
      · exact hi
    rw [hlast hi, hlast hj]

/-- A frame that is not taken changes nothing, from the second byte on. -/
theorem reject (h : Assembled fs) (hrej : ¬ rxAccepts (rxAfter fs) f.sendlen) :
    Assembled (fs ++ [f]) := by
  have hidx : (rxAfter (fs ++ [f])).u32Index = (rxAfter fs).u32Index := by
    rw [rxAfter_concat, rxStep_reject hrej]
    split <;> rfl
  have hsame : 1 ≤ (rxAfter fs).u32Index.toNat → rxAfter (fs ++ [f]) = rxAfter fs := by
    intro hpos
    rw [rxAfter_concat, rxStep_reject hrej, if_neg]
    rintro ⟨-, h0, -⟩
    rw [h0] at hpos
    exact absurd hpos (by decide)
  have hold : ∀ {i g k}, AcceptedInto (fs ++ [f]) i g k → AcceptedInto fs i g k := by
    intro i g k hinto
    exact hinto.concat.resolve_right fun hnew => hrej hnew.2.2.1
  refine ⟨fun i g k hinto => ?_, fun hpos i g hinto => ?_, fun hpos hodd => ?_,
    fun hpos i j g g' hi hj => ?_⟩
  · rw [hidx]
    exact h.below i g k (hold hinto)
  · rw [hidx] at hpos
    rw [hsame hpos] at hinto ⊢
    exact h.high hpos i g (hold hinto)
  · rw [hidx] at hpos
    rw [hsame hpos] at hodd ⊢
    obtain ⟨i, g, hinto⟩ := h.opened hpos hodd
    exact ⟨i, g, hinto.mono f⟩
  · rw [hidx] at hpos hi hj
    exact h.once hpos (hold hi) (hold hj)

end Assembled

theorem assembled_rxAfter (fs : List Frame) (h : completed fs < 256) : Assembled fs := by
  induction fs using List.reverseRecOn with
  | nil => exact Assembled.nil
  | append_singleton fs f ih =>
      rw [completed_concat] at h
      have hasm := ih (by omega)
      obtain ⟨hr, hlen, -⟩ := holds_rxAfter fs (by omega)
      have hidx := hr.index
      rcases rxCompletes_cases (rxAfter fs) f.sendlen with hc | ⟨he, hacc⟩ | hrej
      · rw [if_pos hc] at h
        exact hasm.complete (by omega) hc
      · exact hasm.begins hr.clear he hacc
      · exact hasm.reject hrej

/-! ## Every run -/

/-- The byte that `f` completes after `fs`: one frame was accepted for it before, and after the step
its cell in the buffer is the nibbles of the two, or zero if the step has called back, which it does
on the byte `END_FLAGS` only. -/
def CompletesByte (fs : List Frame) (f : Frame) : Prop :=
  ∃ i g, AcceptedInto fs i g (rxAfter fs).u32Index ∧
    (∀ j g', AcceptedInto fs j g' (rxAfter fs).u32Index → j = i) ∧
    let byte := (rxData g.sendlen).toNat * 16 + (rxData f.sendlen).toNat
    let after := rxStep (rxAfter fs) f
    (after.2 = none → (after.1.buffer.at (rxAfter fs).u32Index).toNat = byte) ∧
    (after.2 ≠ none → byte = END_FLAGS.toNat ∧ after.1.buffer.at (rxAfter fs).u32Index = 0x00)

/-- What a step leaves in the cell of the byte that it completes. -/
theorem completed_cell {ctx : SmartLinkRx} {f : Frame} (hc : rxCompletes ctx f.sendlen) :
    ((rxStep ctx f).2 = none →
      (rxStep ctx f).1.buffer.at ctx.u32Index = ctx.buffer.at ctx.u32Index ||| rxData f.sendlen) ∧
    ((rxStep ctx f).2 ≠ none → ctx.buffer.at ctx.u32Index ||| rxData f.sendlen = END_FLAGS ∧
      (rxStep ctx f).1.buffer.at ctx.u32Index = 0x00) := by
  have hcell : (rxCompleted ctx f.sendlen).at ctx.u32Index =
      ctx.buffer.at ctx.u32Index ||| rxData f.sendlen := RxBuffer.at_put_self ..
  rw [rxStep_accept_odd hc.1 hc.2, add_one_sub_one, hcell]
  split
  · next hterm =>
    exact ⟨(fun hnone => nomatch hnone), fun _ => ⟨hterm.2, RxBuffer.at_put_self ..⟩⟩
  · exact ⟨fun _ => hcell, fun h => absurd rfl h⟩

theorem Assembled.completesByte {fs : List Frame} {f : Frame} (h : Assembled fs)
    (hpos : 1 ≤ (rxAfter fs).u32Index.toNat) (hc : rxCompletes (rxAfter fs) f.sendlen) :
    CompletesByte fs f := by
  obtain ⟨i, g, hinto⟩ := h.opened hpos hc.1
  have hhigh := (h.high hpos i g hinto).2
  have hjoin := toNat_join (airNibble g.sendlen) (airNibble f.sendlen)
  rw [join, airNibble_val, airNibble_val, ← hhigh, Nat.mul_comm] at hjoin
  obtain ⟨hkept, hcleared⟩ := completed_cell hc
  refine ⟨i, g, hinto, fun j g' hj => h.once hpos hj hinto, fun hnone => ?_, fun hcall => ?_⟩
  · rw [hkept hnone, hjoin]
  · obtain ⟨hend, hzero⟩ := hcleared hcall
    exact ⟨by rw [← hjoin, hend], hzero⟩

/-- **The representation of the decoder**, after every sequence of frames: the counters agree
through every restart and every wrap, and as long as fewer than 256 bytes are completed, the cells
that are written next are clear, so that a byte is put together from its own two nibbles. -/
theorem decoder_representation (fs : List Frame) :
    CountersAgree (rxAfter fs) ∧
      (completed fs < 256 → CellsClear (rxAfter fs) ∧
        ∀ f, rxCompletes (rxAfter fs) f.sendlen → 1 ≤ (rxAfter fs).u32Index.toNat →
          CompletesByte fs f) := by
  refine ⟨countersAgree_rxAfter fs, fun h => ?_⟩
  obtain ⟨hr, -⟩ := holds_rxAfter fs h
  exact ⟨hr.clear, fun f hc hpos => (assembled_rxAfter fs h).completesByte hpos hc⟩

end SmartConfig
