import SmartConfig.Lib.BitLayout
import SmartConfig.Bitstream.Bytes

/-!
# `bitstream.h`: what is written and read back

A `BsCodec` is an operation that writes a value, the operation that reads it, and the layout of the
value in the buffer on which the two agree. Both round trips follow for every codec: what has been
written is read (`read_written`), and to write what has been read changes nothing (`write_read`).
Codecs one after the other are a codec again (`seq`).
-/

namespace SmartConfig

open BitString

/-- `b'` is `b` with the fields laid down from the cursor on, and the cursor behind them. -/
structure Laid (xs : List Field) (b b' : BsT) : Prop where
  length : b'.buf.length = b.buf.length
  wf : b'.Wf
  bitPos : b'.bitPos = b.bitPos + span xs
  bits : b'.bits = lay b.bits b.bitPos xs

theorem Laid.append {xs ys : List Field} {b c d : BsT} (h : Laid xs b c) (h' : Laid ys c d) :
    Laid (xs ++ ys) b d where
  length := h'.length.trans h.length
  wf := h'.wf
  bitPos := by rw [h'.bitPos, h.bitPos, span_append, Nat.add_assoc]
  bits := by rw [h'.bits, h.bits, h.bitPos, lay_append]

/-- A write of one field. -/
theorem Wrote.laid {n v : Nat} {b c : BsT} (h : Wrote n v b c) : Laid [⟨n, v⟩] b c :=
  ⟨h.length, h.wf, h.bitPos, h.bits⟩

/-- There are `n` bits left. -/
def BsT.Room (b : BsT) (n : Nat) : Prop := b.bitPos + n ≤ 8 * b.buf.length

/-- Two operations and a layout; `valid s` says of which values the layout is right at bit `s`, and
`complete` in which states there is a value to be read. -/
structure BsFormat (α : Type) where
  write : α → StateM BsT Unit
  read : StateM BsT α
  fields : α → List Field
  valid : Nat → α → Prop
  complete : BsT → Prop

namespace BsFormat

variable {α : Type}

/-- The value can be written here. -/
structure Writable (F : BsFormat α) (b : BsT) (a : α) : Prop where
  wf : b.Wf
  valid : F.valid b.bitPos a
  room : b.Room (span (F.fields a))

/-- The value stands here. -/
structure Stands (F : BsFormat α) (b : BsT) (a : α) : Prop extends F.Writable b a where
  holds : HoldsFields b.bits b.bitPos (F.fields a)

end BsFormat

/-- A format that its two operations keep to. -/
structure BsCodec (α : Type) extends BsFormat α where
  fits : ∀ {s a}, valid s a → ∀ x ∈ fields a, x.Fits
  write_laid : ∀ {b a}, toBsFormat.Writable b a → Laid (fields a) b (write a b).2
  read_stands : ∀ {b a}, toBsFormat.Stands b a →
    (read b).1 = a ∧ Moved (span (fields a)) b (read b).2
  stands_of_complete : ∀ {b}, b.Wf → complete b → toBsFormat.Stands b (read b).1

namespace BsCodec

variable {α β : Type} {b : BsT} {a : α}

/-- What has been written stands where it was written. -/
theorem stands_written (C : BsCodec α) (h : C.Writable b a) :
    C.Stands ((C.write a b).2.seek b) a where
  wf := h.wf
  valid := h.valid
  room := by
    show _ ≤ 8 * (C.write a b).2.buf.length
    rw [(C.write_laid h).length]
    exact h.room
  holds := by
    rw [BsT.bits_congr (show ((C.write a b).2.seek b).buf = (C.write a b).2.buf from rfl),
      (C.write_laid h).bits]
    exact holdsFields_lay _ _ (C.fits h.valid)

/-- **What is written is read back**, and the reader ends where the writer did. -/
theorem read_written (C : BsCodec α) (h : C.Writable b a) :
    C.read ((C.write a b).2.seek b) = (a, (C.write a b).2) := by
  have hlaid := C.write_laid h
  obtain ⟨hval, hmoved⟩ := C.read_stands (C.stands_written h)
  exact Prod.ext hval
    (hmoved.wf.ext hlaid.wf hmoved.buf (hmoved.bitPos.trans hlaid.bitPos.symm))

/-- **What is read can be written back** without a change of the buffer, and the writer ends where
the reader did. -/
theorem write_read (C : BsCodec α) (h : b.Wf) (hcomplete : C.complete b) :
    (C.write (C.read b).1 b).2 = (C.read b).2 := by
  have hstands := C.stands_of_complete h hcomplete
  have hlaid := C.write_laid hstands.toWritable
  obtain ⟨-, hmoved⟩ := C.read_stands hstands
  have hbits : (C.write (C.read b).1 b).2.bits = b.bits := by
    rw [hlaid.bits, lay_eq_self hstands.holds]
  exact hlaid.wf.ext hmoved.wf ((BsT.buf_eq hlaid.length hbits).trans hmoved.buf.symm)
    (hlaid.bitPos.trans hmoved.bitPos.symm)

/-! ## One after the other -/

/-- Nothing. -/
def nothing : BsCodec Unit where
  write _ := pure ()
  read := pure ()
  fields _ := []
  valid _ _ := True
  complete b := b.Room 0
  fits _ _ hx := absurd hx List.not_mem_nil
  write_laid h := ⟨rfl, h.wf, rfl, rfl⟩
  read_stands h := ⟨rfl, rfl, h.wf, rfl⟩
  stands_of_complete h hroom := ⟨⟨h, trivial, hroom⟩, trivial⟩

/-- Two formats, one after the other. -/
def seqFormat (C : BsFormat α) (D : BsFormat β) : BsFormat (α × β) where
  write v := do
    C.write v.1
    D.write v.2
  read := do
    let a ← C.read
    let d ← D.read
    pure (a, d)
  fields v := C.fields v.1 ++ D.fields v.2
  valid s v := C.valid s v.1 ∧ D.valid (s + span (C.fields v.1)) v.2
  complete b := C.complete b ∧ D.complete (C.read b).2

section Seq

variable {C : BsCodec α} {D : BsCodec β} {v : α × β}

theorem Writable.of_seq (h : (seqFormat C.toBsFormat D.toBsFormat).Writable b v) :
    C.Writable b v.1 ∧ D.Writable (C.write v.1 b).2 v.2 := by
  obtain ⟨hwf, ⟨hvalid, hvalid'⟩, hroom⟩ := h
  have hspan : span ((seqFormat C.toBsFormat D.toBsFormat).fields v) =
      span (C.fields v.1) + span (D.fields v.2) := span_append
  rw [BsT.Room, hspan] at hroom
  have hfirst : C.Writable b v.1 := ⟨hwf, hvalid, by rw [BsT.Room]; omega⟩
  have hlaid := C.write_laid hfirst
  refine ⟨hfirst, hlaid.wf, ?_, ?_⟩
  · rw [hlaid.bitPos]
    exact hvalid'
  · rw [BsT.Room, hlaid.bitPos, hlaid.length]
    omega

theorem Stands.of_seq (h : (seqFormat C.toBsFormat D.toBsFormat).Stands b v) :
    C.Stands b v.1 ∧ D.Stands (C.read b).2 v.2 := by
  obtain ⟨⟨hwf, ⟨hvalid, hvalid'⟩, hroom⟩, hholds⟩ := h
  obtain ⟨hfirst, hrest⟩ := holdsFields_append.mp hholds
  have hspan : span ((seqFormat C.toBsFormat D.toBsFormat).fields v) =
      span (C.fields v.1) + span (D.fields v.2) := span_append
  rw [BsT.Room, hspan] at hroom
  have hstands : C.Stands b v.1 := ⟨⟨hwf, hvalid, by rw [BsT.Room]; omega⟩, hfirst⟩
  obtain ⟨-, hmoved⟩ := C.read_stands hstands
  refine ⟨hstands, ⟨hmoved.wf, ?_, ?_⟩, ?_⟩
  · rw [hmoved.bitPos]
    exact hvalid'
  · rw [BsT.Room, hmoved.bitPos, hmoved.buf]
    omega
  · rw [hmoved.bits, hmoved.bitPos]
    exact hrest

/-- What stands behind the first value makes a pair of it. -/
theorem Stands.seq {a : α} {d : β} (h : C.Stands b a) (h' : D.Stands (C.read b).2 d) :
    (seqFormat C.toBsFormat D.toBsFormat).Stands b (a, d) := by
  obtain ⟨-, hmoved⟩ := C.read_stands h
  obtain ⟨⟨-, hvalid, hroom⟩, hholds⟩ := h'
  rw [hmoved.bitPos] at hvalid hholds
  rw [BsT.Room, hmoved.bitPos, hmoved.buf] at hroom
  rw [hmoved.bits] at hholds
  refine ⟨⟨h.wf, ⟨h.valid, hvalid⟩, ?_⟩, holdsFields_append.mpr ⟨h.holds, hholds⟩⟩
  show _ + span (C.fields a ++ D.fields d) ≤ _
  rw [span_append]
  omega

end Seq

/-- Two codecs, one after the other. -/
def seq (C : BsCodec α) (D : BsCodec β) : BsCodec (α × β) where
  toBsFormat := seqFormat C.toBsFormat D.toBsFormat
  fits h := List.forall_mem_append.mpr ⟨C.fits h.1, D.fits h.2⟩
  write_laid h := by
    obtain ⟨hfirst, hrest⟩ := Writable.of_seq h
    exact (C.write_laid hfirst).append (D.write_laid hrest)
  read_stands {b v} h := by
    obtain ⟨hfirst, hrest⟩ := Stands.of_seq h
    obtain ⟨hval, hmoved⟩ := C.read_stands hfirst
    obtain ⟨hval', hmoved'⟩ := D.read_stands hrest
    refine ⟨Prod.ext hval hval', hmoved'.buf.trans hmoved.buf, hmoved'.wf, ?_⟩
    have hpos : (D.read (C.read b).2).2.bitPos =
        b.bitPos + (span (C.fields v.1) + span (D.fields v.2)) := by
      rw [hmoved'.bitPos, hmoved.bitPos, Nat.add_assoc]
    exact hpos.trans (congrArg _ span_append.symm)
  stands_of_complete h hcomplete := by
    have hfirst := C.stands_of_complete h hcomplete.1
    obtain ⟨-, hmoved⟩ := C.read_stands hfirst
    exact Stands.seq hfirst (D.stands_of_complete hmoved.wf hcomplete.2)

end BsCodec

end SmartConfig
