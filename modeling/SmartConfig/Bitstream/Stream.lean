import SmartConfig.Bitstream.Acts

/-!
# `bitstream.h`: a stream of operations

Sixteen operations share one cursor, which may run past the end of the buffer. Whatever counts they
are given, they keep to one discipline (`streaming`): `bits_left` stays between 1 and 8, the cursor
never goes back, the buffer keeps its size, and every byte that is touched is inside it. So does
every sequence of them (`stream_within`).
-/

namespace SmartConfig

open Traced Discipline

/-- One operation on a stream, with its arguments. -/
inductive BsOp where
  | read_u1
  | skip_u1
  | peek_u1
  | read_u (n : Int)
  | skip_u (n : Int)
  | read_u8
  | read_ue
  | write_u1 (v : UInt32)
  | write_u (n : Int) (v : UInt32)
  | write_u8 (v : UInt32)
  | read_bytes (len : Int)
  | write_bytes (bytes : Nat → UInt8) (len : Int)
  | skip_bytes (len : Int)
  | next_bytes (nbytes : Int)
  | read_ru (n : Int)
  | read_string (str_size : Int) (null : Bool) (size : Int)

/-- Run a program for what it does, and not for what it returns. -/
def discard {α : Type} (x : Traced BsT BsAct α) : Traced BsT BsAct Unit := do
  let _ ← x
  pure ()

/-- What an operation does. -/
def BsOp.run : BsOp → Traced BsT BsAct Unit
  | read_u1 => discard Noted.bsReadU1
  | skip_u1 => Noted.bsSkipU1
  | peek_u1 => discard Noted.bsPeekU1
  | read_u n => discard (Noted.bsReadU n)
  | skip_u n => Noted.bsSkipU n
  | read_u8 => discard Noted.bsReadU8
  | read_ue => discard Noted.bsReadUe
  | write_u1 v => Noted.bsWriteU1 v
  | write_u n v => Noted.bsWriteU n v
  | write_u8 v => Noted.bsWriteU8 v
  | read_bytes len => discard (Noted.bsReadBytes len)
  | write_bytes bytes len => discard (Noted.bsWriteBytes bytes len)
  | skip_bytes len => discard (Noted.bsSkipBytes len)
  | next_bytes nbytes => discard (Noted.bsNextBytes nbytes)
  | read_ru n => discard (Noted.bsReadRu n)
  | read_string str_size null size => discard (Noted.bsReadString str_size null size)

/-- A sequence of operations. -/
def runOps (ops : List BsOp) : Traced BsT BsAct Unit := runAll (ops.map BsOp.run)

/-- The bytes that an act touches are before offset `size`. -/
def BsAct.Within (size : Nat) : BsAct → Prop
  | .load offset => offset < size
  | .pad => True
  | .store offset => offset < size
  | .shift _ => True
  | .add _ _ => True

theorem BsAct.Within.mono {m n : Nat} (hmn : m ≤ n) {act : BsAct} (h : act.Within m) :
    act.Within n := by
  cases act with
  | load offset => exact Nat.lt_of_lt_of_le h hmn
  | pad => trivial
  | store offset => exact Nat.lt_of_lt_of_le h hmn
  | shift distance => trivial
  | add x y => trivial

/-- What the operations on a stream keep to. -/
def streaming : Discipline BsT BsAct where
  inv b := b.Wf
  move b b' := b'.buf.length = b.buf.length ∧ b.bitPos ≤ b'.bitPos
  allows b act := act.Within b.buf.length
  refl _ := ⟨rfl, Nat.le_refl _⟩
  trans h h' := ⟨h'.1.trans h.1, Nat.le_trans h.2 h'.2⟩
  mono h hact := h.1 ▸ hact

theorem Moved.streaming {n : Nat} {b b' : BsT} (h : Moved n b b') :
    streaming.inv b' ∧ streaming.move b b' :=
  ⟨h.wf, congrArg List.length h.buf, by rw [h.bitPos]; omega⟩

/-! ## The operations on bits -/

section Bits

/-- A note of acts on the byte of the cursor, before the end. -/
theorem keeps_note_byte {past : List BsAct} {acts : BsT → List BsAct}
    (hpast : ∀ act ∈ past, act.Within 0) (hacts : ∀ b, ∀ act ∈ acts b, act.Within (b.p + 1)) :
    streaming.Keeps (note fun b => if bsEof b then past else acts b) :=
  keeps_note_ite (fun _ _ _ act hact => (hpast act hact).mono (Nat.zero_le _))
    fun b _ heof act hact => (hacts b act hact).mono (Nat.lt_of_not_le heof)

/-- A note that touches no byte. -/
theorem keeps_note_pure {acts : List BsAct} (hacts : ∀ act ∈ acts, act.Within 0) :
    streaming.Keeps (note fun _ => acts) :=
  keeps_note fun _ _ act hact => (hacts act hact).mono (Nat.zero_le _)

/-- A fast path: at the start of a byte, an operation that touches this one byte. -/
theorem keeps_fast {α : Type} {fast : StateM BsT α} {slow : Traced BsT BsAct α}
    {act : Nat → BsAct} (hact : ∀ p, (act p).Within (p + 1))
    (hfast : ∀ b, b.Wf → streaming.inv (fast b).2 ∧ streaming.move b (fast b).2)
    (hslow : streaming.Keeps slow) :
    streaming.Keeps fun b =>
      if b.bits_left = 8 ∧ ¬ bsEof b then ((fast b).1, (fast b).2, [act b.p]) else slow b := by
  apply keeps_of_agree
  intro b h
  by_cases hcond : b.bits_left = 8 ∧ ¬ bsEof b
  · refine ⟨do note fun b => if bsEof b then [] else [act b.p]; lift fast,
      (keeps_note_byte (by simp) fun b a ha => ?_).bind fun _ =>
        keeps_lift fun c hc => hfast c hc, ?_⟩
    · rw [List.mem_singleton.mp ha]
      exact hact b.p
    · rw [if_pos hcond]
      show _ = (_, _, (if bsEof b then [] else [act b.p]) ++ [])
      rw [if_neg hcond.2]
      rfl
  · exact ⟨slow, hslow, by rw [if_neg hcond]⟩

theorem keeps_discard {α : Type} {x : Traced BsT BsAct α} (h : streaming.Keeps x) :
    streaming.Keeps (discard x) :=
  h.bind fun _ => keeps_pure ()

theorem keeps_fetch : streaming.Keeps (note BsT.fetch) :=
  keeps_note_byte (by simp [BsAct.Within]) fun b => by simp [BsAct.Within]

theorem keeps_bsReadU1 : streaming.Keeps Noted.bsReadU1 :=
  keeps_fetch.bind fun _ => keeps_lift fun _ h => h.next.streaming

theorem keeps_bsPeekU1 : streaming.Keeps Noted.bsPeekU1 :=
  keeps_fetch.bind fun _ => keeps_lift fun b h => ⟨h, streaming.refl b⟩

theorem keeps_bsSkipU (n : Int) : streaming.Keeps (Noted.bsSkipU n) :=
  keeps_lift fun _ h => (bsSkipULoop_moved h n.toNat).streaming

theorem keeps_bsReadULoop (k : Nat) : ∀ r, streaming.Keeps (Noted.bsReadULoop k r) := by
  induction k with
  | zero => exact fun r => keeps_pure r
  | succ k ih =>
      exact fun r => keeps_bsReadU1.bind fun _ =>
        (keeps_note_pure (by simp [BsAct.Within])).bind fun _ => ih _

theorem keeps_bsReadU8 : streaming.Keeps Noted.bsReadU8 :=
  keeps_fast (fun p => Nat.lt_succ_self p)
    (fun b h => by rw [h.bsReadU8_eq]; exact (bsReadU_moved h 8).streaming) (keeps_bsReadULoop _ _)

theorem keeps_bsReadUeLoop (k : Nat) : streaming.Keeps (Noted.bsReadUeLoop k) := by
  induction k with
  | zero => exact keeps_bsReadU1.bind fun _ => keeps_pure 32
  | succ k ih =>
      refine keeps_bsReadU1.bind fun bit =>
        (keeps_lift fun b h => ⟨h, streaming.refl b⟩).bind fun b => ?_
      split
      · exact (keeps_note_pure (by simp [BsAct.Within])).bind fun _ => ih
      · exact keeps_pure _

theorem keeps_bsReadUe : streaming.Keeps Noted.bsReadUe :=
  (keeps_bsReadUeLoop 32).bind fun _ => (keeps_bsReadULoop _ 0).bind fun _ =>
    (keeps_note_pure (by simp [BsAct.Within])).bind fun _ => keeps_pure _

/-- Looking ahead: what the loop of `bs_read_u` does, and back. -/
theorem keeps_bsReadRu (n : Int) : streaming.Keeps (Noted.bsReadRu n) where
  inv h := h
  move h := ⟨((keeps_bsReadULoop n.toNat 0).move h).1, Nat.le_refl _⟩
  emits h := (keeps_bsReadULoop n.toNat 0).emits h

theorem bsWriteU1_streaming {b : BsT} (h : b.Wf) (v : UInt32) :
    streaming.inv (bsWriteU1 v b).2 ∧ streaming.move b (bsWriteU1 v b).2 := by
  rw [bsWriteU1]
  split
  · exact h.next.streaming
  · next heof =>
    have hstore : (b.store (writeBit (b.byte heof) (b.bits_left - 1) v)).Wf := h
    obtain ⟨hwf, hlen, hpos⟩ := hstore.next.streaming
    exact ⟨hwf, hlen.trans List.length_set, hpos⟩

theorem keeps_bsWriteU1 (v : UInt32) : streaming.Keeps (Noted.bsWriteU1 v) :=
  (keeps_note_byte (by simp) fun b => by simp [BsAct.Within]).bind fun _ =>
    keeps_lift fun _ h => bsWriteU1_streaming h v

theorem keeps_bsWriteULoop (k : Nat) (v : UInt32) : streaming.Keeps (Noted.bsWriteULoop k v) := by
  induction k with
  | zero => exact keeps_pure ()
  | succ k ih =>
      exact (keeps_note_pure (by simp [BsAct.Within])).bind fun _ =>
        (keeps_bsWriteU1 _).bind fun _ => ih

theorem bsWriteU_streaming {b : BsT} (h : b.Wf) (n : Int) (v : UInt32) :
    streaming.inv (bsWriteU n v b).2 ∧ streaming.move b (bsWriteU n v b).2 := by
  have hkeeps : streaming.Keeps (Noted.bsWriteU n v) := keeps_bsWriteULoop n.toNat v
  rw [← (Noted.traces_bsWriteU n v).final_eq]
  exact ⟨hkeeps.inv h, hkeeps.move h⟩

theorem keeps_bsWriteU8 (v : UInt32) : streaming.Keeps (Noted.bsWriteU8 v) :=
  keeps_fast (fun p => Nat.lt_succ_self p)
    (fun b h => by rw [h.bsWriteU8_eq]; exact bsWriteU_streaming h 8 v) (keeps_bsWriteULoop _ _)

end Bits

/-! ## The operations on bytes -/

section Bytes

/-- The bytes that are copied are in the buffer. -/
theorem toNat_actualLen_le (b : BsT) (len : Int) :
    (actualLen b len).toNat ≤ b.buf.length - b.p := by
  rw [actualLen, bsBytesLeft]
  split <;> split <;> omega

theorem within_ahead (act : Nat → BsAct) {b : BsT} {n : Nat} (hn : n ≤ b.buf.length - b.p)
    (hact : ∀ offset < b.buf.length, (act offset).Within b.buf.length) :
    ∀ a ∈ b.ahead act n, streaming.allows b a := by
  intro a ha
  obtain ⟨i, hi, rfl⟩ := List.mem_map.mp ha
  have hlt := List.mem_range.mp hi
  exact hact _ (by omega)

theorem advance_streaming {b : BsT} (h : b.Wf) (len : Int) :
    streaming.inv (b.advance len) ∧ streaming.move b (b.advance len) := by
  refine ⟨h, rfl, ?_⟩
  show 8 * b.p + (8 - b.bits_left) ≤ 8 * (b.p + (if len < 0 then 0 else len).toNat) + _
  exact Nat.add_le_add_right (Nat.mul_le_mul_left 8 (Nat.le_add_right _ _)) _

theorem keeps_bsReadBytes (len : Int) : streaming.Keeps (Noted.bsReadBytes len) :=
  (keeps_note fun b _ => within_ahead .load (toNat_actualLen_le b len) fun _ h => h).bind fun _ =>
    keeps_lift fun _ h => advance_streaming h len

theorem keeps_bsSkipBytes (len : Int) : streaming.Keeps (Noted.bsSkipBytes len) :=
  keeps_lift fun _ h => advance_streaming h len

theorem length_copyIn (b : BsT) (bytes : Nat → UInt8) (len : Int) :
    (b.copyIn bytes (actualLen b len).toNat).buf.length = b.buf.length := by
  have hle := toNat_actualLen_le b len
  rw [BsT.copyIn]
  simp only [List.length_append, List.length_take, List.length_map, List.length_range,
    List.length_drop]
  omega

theorem keeps_bsWriteBytes (bytes : Nat → UInt8) (len : Int) :
    streaming.Keeps (Noted.bsWriteBytes bytes len) := by
  refine (keeps_note fun b _ => within_ahead .store (toNat_actualLen_le b len)
    fun _ h => h).bind fun _ => keeps_lift fun b h => ?_
  have hcopied : (b.copyIn bytes (actualLen b len).toNat).Wf := h
  obtain ⟨hwf, hlen, hpos⟩ := advance_streaming hcopied len
  exact ⟨hwf, hlen.trans (length_copyIn b bytes len), hpos⟩

theorem keeps_bsNextBytes (nbytes : Int) : streaming.Keeps (Noted.bsNextBytes nbytes) := by
  refine (keeps_note fun b _ act hact => ?_).bind fun _ => keeps_lift fun b h => ?_
  · split at hact
    · cases hact
    · split at hact
      · cases hact
      · next hfit => exact within_ahead .load (by omega) (fun _ h => h) act hact
  · have hsame : (bsNextBytes nbytes b).2 = b := by
      rw [bsNextBytes]
      split
      · rfl
      · split <;> rfl
    rw [hsame]
    exact ⟨h, streaming.refl b⟩

theorem keeps_bsReadStringLoop (k : Nat) : streaming.Keeps (Noted.bsReadStringLoop k) := by
  induction k with
  | zero => exact keeps_pure []
  | succ k ih => exact keeps_bsReadU8.bind fun _ => ih.bind fun _ => keeps_pure _

theorem keeps_bsReadString (str_size : Int) (null : Bool) (size : Int) :
    streaming.Keeps (Noted.bsReadString str_size null size) := by
  apply keeps_of_agree
  intro b h
  rw [Noted.bsReadString]
  split
  · exact ⟨pure (-1, []), keeps_pure _, rfl⟩
  · split
    · exact ⟨pure (-1, []), keeps_pure _, rfl⟩
    · refine ⟨do
          let rs ← Noted.bsReadStringLoop str_size.toNat
          pure (str_size, rs), (keeps_bsReadStringLoop _).bind fun _ => keeps_pure _, ?_⟩
      show _ = (_, _, (Noted.bsReadStringLoop str_size.toNat).events b ++ [])
      rw [List.append_nil]
      rfl

end Bytes

/-! ## Every sequence -/

/-- **Each of the sixteen operations keeps to the discipline**, with whatever arguments. -/
theorem BsOp.keeps (op : BsOp) : streaming.Keeps op.run := by
  cases op with
  | read_u1 => exact keeps_discard keeps_bsReadU1
  | skip_u1 => exact keeps_lift fun _ h => h.next.streaming
  | peek_u1 => exact keeps_discard keeps_bsPeekU1
  | read_u n => exact keeps_discard (keeps_bsReadULoop _ _)
  | skip_u n => exact keeps_bsSkipU n
  | read_u8 => exact keeps_discard keeps_bsReadU8
  | read_ue => exact keeps_discard keeps_bsReadUe
  | write_u1 v => exact keeps_bsWriteU1 v
  | write_u n v => exact keeps_bsWriteULoop _ v
  | write_u8 v => exact keeps_bsWriteU8 v
  | read_bytes len => exact keeps_discard (keeps_bsReadBytes len)
  | write_bytes bytes len => exact keeps_discard (keeps_bsWriteBytes bytes len)
  | skip_bytes len => exact keeps_discard (keeps_bsSkipBytes len)
  | next_bytes nbytes => exact keeps_discard (keeps_bsNextBytes nbytes)
  | read_ru n => exact keeps_discard (keeps_bsReadRu n)
  | read_string str_size null size => exact keeps_discard (keeps_bsReadString str_size null size)

theorem keeps_runOps (ops : List BsOp) : streaming.Keeps (runOps ops) := by
  refine keeps_runAll fun x hx => ?_
  obtain ⟨op, -, rfl⟩ := List.mem_map.mp hx
  exact op.keeps

/-- The whole bytes before the cursor. -/
theorem BsT.Wf.p_le {b c : BsT} (hb : b.Wf) (hc : c.Wf) (h : b.bitPos ≤ c.bitPos) :
    b.p ≤ c.p := by
  rw [← hb.bitPos_div.1, ← hc.bitPos_div.1]
  exact Nat.div_le_div_right h

/-- `bs_pos` is between the two ends of the buffer. -/
theorem bsPos_bounds (b : BsT) : 0 ≤ (bsPos b).1 ∧ (bsPos b).1 ≤ b.buf.length := by
  rw [bsPos]
  dsimp only
  split <;> omega

/-- **A stream stays in its buffer**, whatever is done to it: after any sequence of operations
`bits_left` is between 1 and 8 and `bs_pos` inside the buffer, the cursor has not gone back since
any point of the sequence, and no byte outside the buffer has been read or written. -/
theorem stream_within (buf : List UInt8) (size : Nat) (ops : List BsOp) :
    ((runOps ops).final (bsInit buf size)).Wf ∧
      (∀ done todo, ops = done ++ todo →
        ((runOps done).final (bsInit buf size)).bitPos ≤
            ((runOps ops).final (bsInit buf size)).bitPos ∧
          ((runOps done).final (bsInit buf size)).p ≤ ((runOps ops).final (bsInit buf size)).p) ∧
      (∀ act ∈ (runOps ops).events (bsInit buf size), act.Within size) ∧
      0 ≤ (bsPos ((runOps ops).final (bsInit buf size))).1 ∧
      (bsPos ((runOps ops).final (bsInit buf size))).1 ≤ size := by
  have hinit : streaming.inv (bsInit buf size) := wf_bsInit buf size
  have hsize : (bsInit buf size).buf.length ≤ size := List.length_take_le _ _
  have hkeeps := keeps_runOps ops
  have hwf := hkeeps.inv hinit
  have hpos := bsPos_bounds ((runOps ops).final (bsInit buf size))
  rw [(hkeeps.move hinit).1] at hpos
  refine ⟨hwf, fun done todo hops => ?_, fun act hact => ?_, hpos.1, by omega⟩
  · have hdone := (keeps_runOps done).inv hinit
    have hmove := (keeps_runOps todo).move hdone
    have hsplit : (runOps todo).final ((runOps done).final (bsInit buf size)) =
        (runOps ops).final (bsInit buf size) := by
      rw [hops, runOps, runOps, runOps, List.map_append, final_runAll_append]
    rw [hsplit] at hmove
    exact ⟨hmove.2, BsT.Wf.p_le hdone hwf hmove.2⟩
  · exact BsAct.Within.mono hsize (hkeeps.emits hinit act hact)

end SmartConfig
