import SmartConfig.Bitstream.Basic
import SmartConfig.Lib.Traced

/-!
# `bitstream.h`: what the reads do

The reads of a stream, which now also note what they do: every byte they load from memory, every
bit they make up past the end, and the distance of every shift. The other operations follow in
`Acts`.
-/

namespace SmartConfig

open Traced

/-- `*(b->p)` at an offset, read or written; a zero bit for a missing byte; a shift of a 32-bit
value; a sum of two `int`s. -/
inductive BsAct where
  | load (offset : Nat)
  | pad
  | store (offset : Nat)
  | shift (distance : Nat)
  | add (x y : Int32)
  deriving DecidableEq

/-- Getting the bit at the cursor. -/
def BsT.fetch (b : BsT) : List BsAct :=
  if bsEof b then [.pad] else [.load b.p, .shift (b.bits_left - 1)]

namespace Noted

/-- `bs_read_u1`. -/
def bsReadU1 : Traced BsT BsAct UInt32 := do
  note BsT.fetch
  lift SmartConfig.bsReadU1

/-- The loop of `bs_read_u`. -/
def bsReadULoop : Nat → UInt32 → Traced BsT BsAct UInt32
  | 0, r => pure r
  | k + 1, r => do
    let bit ← bsReadU1
    note fun _ => [BsAct.shift k]
    bsReadULoop k (r ||| shiftLeft32 bit k)

/-- `bs_read_u`. -/
def bsReadU (n : Int) : Traced BsT BsAct UInt32 := bsReadULoop n.toNat 0

/-- `bs_read_u8`: the fast path loads the byte and shifts nothing. -/
def bsReadU8 : Traced BsT BsAct UInt32 := fun b =>
  if b.bits_left = 8 ∧ ¬ bsEof b then
    ((SmartConfig.bsReadU8 b).1, (SmartConfig.bsReadU8 b).2, [BsAct.load b.p])
  else bsReadU 8 b

/-- `bs_read_u8n`. -/
def bsReadU8n (n : Int) : Traced BsT BsAct UInt32 := bsReadU (8 * n)

/-! ## The same reads -/

theorem traces_bsReadU1 : Traces bsReadU1 SmartConfig.bsReadU1 :=
  (traces_lift SmartConfig.bsReadU1).note_bind _

theorem traces_bsReadULoop (k : Nat) :
    ∀ r, Traces (bsReadULoop k r) (SmartConfig.bsReadULoop k r) := by
  induction k with
  | zero => exact fun r => traces_pure r
  | succ k ih => exact fun r => traces_bsReadU1.bind fun bit => (ih _).note_bind _

theorem traces_bsReadU (n : Int) : Traces (bsReadU n) (SmartConfig.bsReadU n) :=
  traces_bsReadULoop _ _

theorem traces_bsReadU8 : Traces bsReadU8 SmartConfig.bsReadU8 :=
  (traces_bsReadU 8).shortcut (fun _ => rfl) fun b h => by rw [SmartConfig.bsReadU8, dif_neg h]

theorem traces_bsReadU8n (n : Int) : Traces (bsReadU8n n) (SmartConfig.bsReadU8n n) :=
  traces_bsReadU _

end Noted

/-! ## What may happen -/

/-- What reads do that stay before byte `hi`, in counts of at most `n` bits: they load bytes of the
buffer only, they make up bits only when the buffer ends before `hi`, and they shift by less than
`n`. -/
def ReadEvent (buf : List UInt8) (hi n : Nat) : BsAct → Prop
  | .load p => p < buf.length
  | .pad => buf.length < hi
  | .shift k => k < n
  | .store _ => False
  | .add _ _ => False

section Emits

variable {buf : List UInt8} {p hi n : Nat} {b : BsT}

theorem BsT.Wf.emits_bsReadU1 (h : b.Wf) (hpos : b.bitPos < 8 * hi) (hn : 8 ≤ n) :
    Emits (ReadEvent b.buf hi n) Noted.bsReadU1 b := by
  refine Emits.bind (emits_note fun e he => ?_) (emits_lift _ _)
  obtain ⟨h1, h8⟩ := h
  rw [BsT.bitPos] at hpos
  rw [BsT.fetch] at he
  split at he
  · next heof =>
    rw [List.mem_singleton.mp he]
    show b.buf.length < hi
    rw [bsEof] at heof
    omega
  · next heof =>
    rcases List.mem_pair.mp he with rfl | rfl
    · exact Nat.lt_of_not_le heof
    · show b.bits_left - 1 < n
      omega

/-- Bit by bit: the loop stays before byte `hi`, and its shifts are below its count. -/
theorem BsT.Wf.emits_bsReadULoop (h : b.Wf) {k : Nat} (hpos : b.bitPos + k ≤ 8 * hi) (hk : k ≤ n)
    (hn : 8 ≤ n) (r : UInt32) :
    Emits (ReadEvent b.buf hi n) (Noted.bsReadULoop k r) b := by
  induction k generalizing b r with
  | zero => exact emits_pure r b
  | succ k ih =>
      obtain ⟨hbuf, hwf, hnext⟩ := h.next
      refine Emits.bind (h.emits_bsReadU1 (by omega) hn) (Emits.bind (emits_note fun e he => ?_) ?_)
      · rw [List.mem_singleton.mp he]
        exact hk
      · rw [final_note, Noted.traces_bsReadU1.final_eq, ← hbuf]
        exact ih hwf (by rw [hnext]; omega) (by omega) _

/-- Whole bytes: reading `k` of them from byte `p` on. -/
theorem AtByte.emits_bsReadU8n (h : AtByte buf p b) {k : Int} (hp : p + k.toNat ≤ hi)
    (hk : 8 * k.toNat ≤ n) (hn : 8 ≤ n) :
    Emits (ReadEvent buf hi n) (Noted.bsReadU8n k) b := by
  obtain ⟨rfl, rfl, haligned⟩ := h
  have hwf : b.Wf := by rw [BsT.Wf, haligned]; decide
  refine hwf.emits_bsReadULoop ?_ (by omega) hn 0
  rw [BsT.bitPos, haligned]
  omega

theorem AtByte.emits_bsReadU8 (h : AtByte buf p b) (hp : p + 1 ≤ hi) (hn : 8 ≤ n) :
    Emits (ReadEvent buf hi n) Noted.bsReadU8 b := by
  have hslow : Emits (ReadEvent buf hi n) (Noted.bsReadU8n 1) b := h.emits_bsReadU8n hp hn hn
  intro e he
  rw [Traced.events, Noted.bsReadU8] at he
  split at he
  · next hfast =>
    rw [List.mem_singleton.mp he, ← h.buf]
    exact Nat.lt_of_not_le hfast.2
  · exact hslow e he

/-- The first shift of a read of `k` bytes has the whole count before it. -/
theorem shift_mem_bsReadU8n {k : Int} (hk : 0 < k) (b : BsT) :
    BsAct.shift (8 * k.toNat - 1) ∈ (Noted.bsReadU8n k).events b := by
  have hcount : (8 * k).toNat = 8 * k.toNat - 1 + 1 := by omega
  rw [Noted.bsReadU8n, Noted.bsReadU, hcount, Noted.bsReadULoop, mem_events_bind,
    mem_events_bind]
  exact Or.inr (Or.inl (List.mem_singleton.mpr rfl))

end Emits

end SmartConfig
