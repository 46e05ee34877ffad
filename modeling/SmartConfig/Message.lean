import SmartConfig.SmartCode
import SmartConfig.SmartLinkTx.Frames

/-!
# Messages and their transmissions

A `Message` is an input that `smartlinkTxSend` takes whole. On the air it is the nibble stream of
the framed message, and its transmission is the list of lengths the sender emits for it.

The terminator travels in band: a receiver stops at the first `END_FLAGS` from index 1 of the
message on (`Message.stop`). A message without one is `Plain`.
-/

namespace SmartConfig

open Nibble

/-- An input that the sender frames and counts without wrapping: 1 to 253 bytes. -/
structure Message where
  bytes : List UInt8
  one_le : 1 ≤ bytes.length
  le_253 : bytes.length ≤ 253

namespace Message

/-- The `size` argument that goes with the input. -/
def size (m : Message) : UInt8 := UInt8.ofNat m.bytes.length

/-- The lengths emitted for the message. -/
def send (tx : SmartLinkTx) (m : Message) : List Int := (smartlinkTxSend tx m.bytes m.size).1

/-- The nibbles of the framed message. -/
def air (m : Message) : List Nibble := nibbles (framed m.bytes)

/-- No byte from index 1 on looks like the terminator. -/
def Plain (m : Message) : Prop := ∀ i, 1 ≤ i → m.bytes[i]? ≠ some END_FLAGS

/-- The least index from 1 on that holds a terminator, or the size if none does. -/
def stop (m : Message) : Nat := (m.bytes.drop 1).findIdx (· == END_FLAGS) + 1

@[simp] theorem length_air (m : Message) : m.air.length = 2 * (m.bytes.length + 2) := by
  simp [air]

theorem toNat_size (m : Message) : m.size.toNat = m.bytes.length := by
  rw [size, UInt8.toNat_ofNat']
  exact Nat.mod_eq_of_lt (Nat.lt_of_le_of_lt m.le_253 (by decide))

/-- The transmission of a message is its nibble stream in `smartCode`. -/
theorem send_eq (tx : SmartLinkTx) (m : Message) :
    m.send tx = (smartCode.encode m.air).map frameLength := by
  have hle : m.size.toNat ≤ 253 := by rw [m.toNat_size]; exact m.le_253
  exact smartlinkTxSend_eq_of_le tx m.toNat_size.symm hle

/-! ## Where the receiver stops -/

theorem one_le_stop (m : Message) : 1 ≤ m.stop := Nat.le_add_left 1 _

theorem stop_le (m : Message) : m.stop ≤ m.bytes.length := by
  have h : (m.bytes.drop 1).findIdx (· == END_FLAGS) ≤ (m.bytes.drop 1).length :=
    List.findIdx_le_length
  have := m.one_le
  rw [List.length_drop] at h
  rw [stop]
  omega

theorem getElem?_framed_succ (m : List UInt8) (k : Nat) :
    (framed m)[k + 1]? = (m ++ [END_FLAGS])[k]? := rfl

/-- The byte at the stop, in the framed message, is a terminator. -/
theorem framed_stop (m : Message) : (framed m.bytes)[m.stop + 1]? = some END_FLAGS := by
  rw [getElem?_framed_succ]
  -- found in the message, or the terminator of the frame itself
  rcases Nat.lt_or_ge m.stop m.bytes.length with hlt | hge
  · have hfind : (m.bytes.drop 1).findIdx (· == END_FLAGS) < (m.bytes.drop 1).length := by
      rw [stop] at hlt
      rw [List.length_drop]
      omega
    have hget := List.findIdx_getElem (w := hfind)
    rw [List.getElem_drop, beq_iff_eq] at hget
    rw [List.getElem?_append_left hlt, List.getElem?_eq_getElem hlt, ← hget]
    simp only [stop, Nat.add_comm]
  · have heq : m.stop = m.bytes.length := Nat.le_antisymm m.stop_le hge
    rw [heq, List.getElem?_concat_length]

/-- No byte before the stop is one, the first two apart. -/
theorem framed_before_stop (m : Message) {k : Nat} (h2 : 2 ≤ k) (hk : k < m.stop + 1) :
    (framed m.bytes)[k]? ≠ some END_FLAGS := by
  obtain ⟨i, rfl⟩ : ∃ i, k = i + 1 + 1 := ⟨k - 2, by omega⟩
  have hstop := m.stop_le
  have hfind : i < (m.bytes.drop 1).findIdx (· == END_FLAGS) := by rw [stop] at hk; omega
  have hget := List.not_of_lt_findIdx hfind
  rw [List.getElem_drop, beq_eq_false_iff_ne] at hget
  have hlt : i + 1 < m.bytes.length := by omega
  rw [getElem?_framed_succ, List.getElem?_append_left hlt, List.getElem?_eq_getElem hlt]
  intro h
  exact hget (by simpa [Nat.add_comm] using h)

theorem Plain.stop_eq {m : Message} (h : m.Plain) : m.stop = m.bytes.length := by
  by_contra hne
  have hlt : m.stop < m.bytes.length := Nat.lt_of_le_of_ne m.stop_le hne
  have hend := m.framed_stop
  rw [getElem?_framed_succ, List.getElem?_append_left hlt] at hend
  exact h m.stop m.one_le_stop hend

theorem plain_iff (m : Message) : m.Plain ↔ END_FLAGS ∉ m.bytes.drop 1 := by
  rw [List.mem_iff_getElem?, not_exists]
  constructor
  · intro h i
    rw [List.getElem?_drop]
    exact h (1 + i) (Nat.le_add_right 1 i)
  · intro h i hi
    have := h (i - 1)
    rwa [List.getElem?_drop, Nat.add_sub_cancel' hi] at this

instance (m : Message) : Decidable m.Plain := decidable_of_iff' _ m.plain_iff

/-- The message `A`. -/
def letterA : Message where
  bytes := [0x41]
  one_le := by decide
  le_253 := by decide

end Message

end SmartConfig
