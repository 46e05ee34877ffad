import SmartConfig.SmartCode
import SmartConfig.SmartLinkRx.Basic

/-!
# What the decoder is for: collecting nibbles

The decoder keeps two counters and a buffer that it only ever ORs into. What they stand for is a
list of nibbles, the ones accepted so far, and this file states the decoder's purpose on that list:

* `Received` — the nibbles accepted so far, and what abandoned START bytes have left behind in the
  first cell.
* `Received.step` — a frame with the expected check value appends its nibble; a complete byte equal
  to `END_FLAGS`, from the third on, delivers the bytes before it; a mismatch on the second nibble
  of all goes back to the start.
* `Holds` — the context that stands for a `Received`; `rxStep_refines`: as long as the byte counter
  has not wrapped, every step of the decoder is the step of `Received` it stands for.
-/

namespace SmartConfig

open Nibble

/-- The nibbles accepted so far. `stale` is what the abandoned attempts at a first byte have left
in the high half of `buffer[0]`; it counts only while there are no nibbles. -/
structure Received where
  stale : Nibble
  nibs : List Nibble
  deriving DecidableEq

namespace Received

/-- Nothing received. -/
def idle : Received where
  stale := 0
  nibs := []

/-- The nibbles in the buffer. -/
def content (r : Received) : List Nibble := if r.nibs = [] then [r.stale] else r.nibs

/-- The last byte of `xs` is complete, is not one of the first two, and closes the message. -/
def Terminated (xs : List Nibble) : Prop :=
  xs.length % 2 = 0 ∧ 6 ≤ xs.length ∧ cell xs (xs.length / 2 - 1) = END_FLAGS

instance (xs : List Nibble) : Decidable (Terminated xs) := inferInstanceAs (Decidable (_ ∧ _ ∧ _))

/-- The last two nibbles of a terminated stream are the halves of `END_FLAGS`. -/
theorem Terminated.eq_concat {xs : List Nibble} {d : Nibble} (h : Terminated (xs ++ [d])) :
    ∃ ys, xs = ys ++ [hi END_FLAGS] ∧ d = lo END_FLAGS ∧ ys.length % 2 = 0 ∧ 4 ≤ ys.length := by
  obtain ⟨he, h6, hend⟩ := h
  rw [List.length_append, List.length_singleton] at he h6 hend
  obtain ⟨ys, x, rfl⟩ := (List.eq_nil_or_concat' xs).resolve_left (by rintro rfl; simp at h6)
  have hys : (ys ++ [x]).length = ys.length + 1 := by simp
  rw [hys] at he h6 hend
  have hcell : cell (ys ++ [x] ++ [d]) ((ys.length + 1 + 1) / 2 - 1) =
      join ((ys ++ [x]).getD (2 * ((ys.length + 1 + 1) / 2 - 1)) 0) d :=
    cell_concat_odd (by omega) d
  have hlast : (ys ++ [x]).getD (2 * ((ys.length + 1 + 1) / 2 - 1)) 0 = x := by
    rw [show 2 * ((ys.length + 1 + 1) / 2 - 1) = ys.length from by omega]
    simp
  rw [hend, hlast] at hcell
  have hx : x = hi END_FLAGS := by rw [hcell, hi_join]
  have hd : d = lo END_FLAGS := by rw [hcell, lo_join]
  exact ⟨ys, by rw [hx], hd, by omega, by omega⟩

/-- The bytes between the first and the last one. -/
def payload (xs : List Nibble) : List UInt8 :=
  (List.range (xs.length / 2 - 2)).map fun i => cell xs (i + 1)

@[simp] theorem length_payload (xs : List Nibble) : (payload xs).length = xs.length / 2 - 2 := by
  simp [payload]

/-- Take a nibble; a delivered terminator stays behind as a zero byte. -/
def accept (r : Received) (d : Nibble) : Received × Option (List UInt8) :=
  if r.nibs = [] then ({ r with nibs := [merge r.stale d] }, none)
  else if Terminated (r.nibs ++ [d]) then
    ({ r with nibs := r.nibs.dropLast ++ [0, 0] }, some (payload (r.nibs ++ [d])))
  else ({ r with nibs := r.nibs ++ [d] }, none)

/-- One frame: its check value and its nibble. -/
def step (r : Received) (f : UInt8 × Nibble) : Received × Option (List UInt8) :=
  if f.1 = smartCode.expected r.nibs then r.accept f.2
  else if r.nibs.length = 1 ∧ f.2.val ≠ 0x7 then ({ stale := r.nibs.headD 0, nibs := [] }, none)
  else (r, none)

end Received

/-! ## The contexts that stand for a `Received` -/

/-- The counters count the nibbles and the buffer holds them, zero from there on. -/
structure Holds (r : Received) (ctx : SmartLinkRx) : Prop where
  index : ctx.u32Index.toNat = r.nibs.length / 2
  sequence : ctx.u32Sequence.toNat = r.nibs.length % 256
  cells : ∀ (i : Nat) (h : i < BUFFER_MAX), ctx.buffer[i] = cell r.content i

theorem holds_idle : Holds Received.idle smartLinkRxStart where
  index := rfl
  sequence := rfl
  cells i h := by
    have hzero : cell Received.idle.content i = 0 := by
      rcases i with - | i
      · rfl
      · exact cell_of_length_le (by simp [Received.content, Received.idle]; omega)
    rw [hzero]
    exact Vector.getElem_replicate h

/-- The nibble of a frame, with its bound. -/
def airNibble (sendlen : Int) : Nibble := ⟨rxData sendlen, and_lt _⟩

/-- What a length says: check value and nibble. -/
def airFrame (sendlen : Int) : UInt8 × Nibble := (rxFlag sendlen, airNibble sendlen)

@[simp] theorem airFrame_fst (sendlen : Int) : (airFrame sendlen).1 = rxFlag sendlen := rfl

@[simp] theorem airFrame_snd (sendlen : Int) : (airFrame sendlen).2 = airNibble sendlen := rfl

@[simp] theorem airNibble_val (sendlen : Int) : (airNibble sendlen).val = rxData sendlen := rfl

theorem toNat_ofInt (x : Int) : (UInt8.ofInt x).toNat = (x % 256).toNat := by
  have h : (x % 2 ^ 8).toNat < 2 ^ 8 := by omega
  rw [UInt8.ofInt, UInt8.toNat_ofNat', Nat.mod_eq_of_lt h]
  rfl

theorem toNat_rxFlag (sendlen : Int) :
    (rxFlag sendlen).toNat = ((sendlen - 24) / 16 % 256).toNat := by
  rw [rxFlag, toNat_ofInt, Int.shiftRight_eq_div_pow]
  rfl

theorem toNat_rxData (sendlen : Int) : (rxData sendlen).toNat = ((sendlen - 24) % 16).toNat := by
  rw [rxData, toNat_lo, toNat_ofInt, Int.shiftRight_zero]
  omega

/-- The callback that delivers `m` from the frame `f`. -/
structure CallFor (f : Frame) (m : List UInt8) (c : RxCall) : Prop where
  mac : c.mac = f.saddr
  mac_len : c.mac_len = MAC_LEN
  len : c.len = m.length + 2
  delivers : c.Delivers m

/-! ## The buffer -/

theorem RxBuffer.at_eq (buffer : RxBuffer) (i : UInt8) (h : i.toNat < BUFFER_MAX) :
    buffer.at i = buffer[i.toNat] := rfl

theorem RxBuffer.getElem_put (buffer : RxBuffer) (i v : UInt8) (j : Nat) (hj : j < BUFFER_MAX) :
    (buffer.put i v)[j] = if i.toNat = j then v else buffer[j] := Vector.getElem_set ..

/-! ## The decoder, branch by branch -/

section Branches

variable {ctx : SmartLinkRx} {f : Frame}

theorem rxStep_reject (hrej : ¬ rxAccepts ctx f.sendlen) :
    rxStep ctx f =
      (if ctx.u32Sequence % 2 ≠ 0 ∧ ctx.u32Index = 0x00 ∧ rxData f.sendlen ≠ 0x7 then
        { ctx with u32Sequence := 0x00 } else ctx, none) := by
  have hne : rxExpected ctx ≠ rxFlag f.sendlen := fun h => hrej h.symm
  unfold rxExpected at hne
  unfold rxStep smartlinkRxDecode
  by_cases he : ctx.u32Sequence % 2 = 0
  · simp only [he, if_true] at hne
    simp [he, hne]
  · simp only [he, if_false] at hne
    simp only [he, hne, if_false, if_true, ne_eq, not_false_eq_true, true_and]
    split <;> rfl

theorem rxStep_accept_even (he : ctx.u32Sequence % 2 = 0) (hacc : rxAccepts ctx f.sendlen) :
    rxStep ctx f =
      ({ ctx with
          buffer := ctx.buffer.put ctx.u32Index
            (ctx.buffer.at ctx.u32Index ||| rxData f.sendlen <<< 4)
          u32Sequence := ctx.u32Sequence + 1 }, none) := by
  have heq : rxExpected ctx = rxFlag f.sendlen := hacc.symm
  unfold rxExpected at heq
  simp only [he, if_true] at heq
  simp [rxStep, smartlinkRxDecode, he, heq]

/-- The buffer after the low half of a byte. -/
def rxCompleted (ctx : SmartLinkRx) (sendlen : Int) : RxBuffer :=
  ctx.buffer.put ctx.u32Index (ctx.buffer.at ctx.u32Index ||| rxData sendlen)

theorem rxStep_accept_odd (ho : ctx.u32Sequence % 2 ≠ 0) (hacc : rxAccepts ctx f.sendlen) :
    rxStep ctx f =
      if ctx.u32Index + 1 > 0x02 ∧
          (rxCompleted ctx f.sendlen).at (ctx.u32Index + 1 - 1) = END_FLAGS then
        ({ u32Index := ctx.u32Index + 1, u32Sequence := ctx.u32Sequence + 1, sourceAddr := f.saddr,
           buffer := (rxCompleted ctx f.sendlen).put (ctx.u32Index + 1 - 1) 0x00 },
         some {
           mac := f.saddr, mac_len := MAC_LEN, len := (ctx.u32Index + 1).toNat,
           buf := ((rxCompleted ctx f.sendlen).put (ctx.u32Index + 1 - 1) 0x00).toList.drop 1 })
      else
        ({ u32Index := ctx.u32Index + 1, u32Sequence := ctx.u32Sequence + 1,
           sourceAddr := if ctx.u32Index + 1 > 0x02 then f.saddr else ctx.sourceAddr,
           buffer := rxCompleted ctx f.sendlen }, none) := by
  have heq : rxExpected ctx = rxFlag f.sendlen := hacc.symm
  unfold rxExpected at heq
  simp only [ho, if_false] at heq
  simp only [rxStep, smartlinkRxDecode, ho, heq, if_false, ne_eq, not_true_eq_false]
  by_cases ht : ctx.u32Index + 1 > 0x02 ∧
      (rxCompleted ctx f.sendlen).at (ctx.u32Index + 1 - 1) = END_FLAGS
  · have ht' := ht
    unfold rxCompleted at ht'
    rw [if_pos ht, if_pos ht', if_pos ht.1]
    rfl
  · have ht' := ht
    unfold rxCompleted at ht'
    rw [if_neg ht, if_neg ht']
    rfl

/-- The counters after the low half of a byte. -/
theorem rxStep_odd_counters (ho : ctx.u32Sequence % 2 ≠ 0) (hacc : rxAccepts ctx f.sendlen) :
    (rxStep ctx f).1.u32Index = ctx.u32Index + 1 ∧
      (rxStep ctx f).1.u32Sequence = ctx.u32Sequence + 1 := by
  rw [rxStep_accept_odd ho hacc]
  split
  · exact ⟨rfl, rfl⟩
  · exact ⟨rfl, rfl⟩

/-- A step that calls back is the acceptance of the low half of a byte behind the first two. -/
theorem rxStep_call {c : RxCall} (h : (rxStep ctx f).2 = some c) :
    ctx.u32Sequence % 2 ≠ 0 ∧ rxAccepts ctx f.sendlen ∧ ctx.u32Index + 1 > 0x02 ∧
      c.mac = f.saddr := by
  by_cases hacc : rxAccepts ctx f.sendlen
  · by_cases he : ctx.u32Sequence % 2 = 0
    · rw [rxStep_accept_even he hacc] at h
      cases h
    · rw [rxStep_accept_odd he hacc] at h
      split at h
      · next hterm =>
        obtain rfl := Option.some.inj h
        exact ⟨he, hacc, hterm.1, rfl⟩
      · cases h
  · rw [rxStep_reject hacc] at h
    cases h

/-- The length handed over is the index. -/
theorem rxStep_call_len {c : RxCall} (h : (rxStep ctx f).2 = some c) :
    c.len = (rxStep ctx f).1.u32Index.toNat := by
  obtain ⟨ho, hacc, -, -⟩ := rxStep_call h
  rw [rxStep_accept_odd ho hacc] at h ⊢
  split at h
  · next hterm =>
    obtain rfl := Option.some.inj h
    rw [if_pos hterm]
  · cases h

end Branches

/-! ## Reading the context -/

namespace Holds

variable {r : Received} {ctx : SmartLinkRx} {f : Frame}

theorem at_eq (h : Holds r ctx) (i : UInt8) : ctx.buffer.at i = cell r.content i.toNat :=
  h.cells i.toNat (toNat_lt_BUFFER_MAX i)

theorem sequence_eq (h : Holds r ctx) : ctx.u32Sequence = UInt8.ofNat r.nibs.length := by
  apply UInt8.toNat_inj.mp
  rw [h.sequence, UInt8.toNat_ofNat']

theorem even_iff (h : Holds r ctx) : ctx.u32Sequence % 2 = 0 ↔ r.nibs.length % 2 = 0 := by
  rw [mod_two_eq_zero_iff, h.sequence]
  omega

theorem length_lt (h : Holds r ctx) : r.nibs.length < 512 := by
  have := h.index
  have := ctx.u32Index.toNat_lt
  omega

theorem content_of_ne (hne : r.nibs ≠ []) : r.content = r.nibs := if_neg hne

/-- The check value the decoder waits for is the one its nibbles predict. -/
theorem expected_eq (h : Holds r ctx) : rxExpected ctx = smartCode.expected r.nibs := by
  have hidx := h.index
  rcases List.eq_nil_or_concat' r.nibs with hnil | ⟨xs, x, hx⟩
  · have hzero : ctx.u32Index = 0 := by
      apply UInt8.toNat_inj.mp; rw [hidx, hnil]; rfl
    have hseq : ctx.u32Sequence = 0 := by rw [h.sequence_eq, hnil]; rfl
    simp [rxExpected, rxLowBefore, hzero, hseq, hnil, expected_nil]
  · have hlen : r.nibs.length = xs.length + 1 := by rw [hx]; simp
    have hcont : r.content = xs ++ [x] := by rw [content_of_ne (by simp [hx]), hx]
    have hpdata :
        (if ctx.u32Sequence % 2 = 0 then rxLowBefore ctx else rxHighHere ctx) = x.val := by
      by_cases he : r.nibs.length % 2 = 0
      · -- the byte before this one is complete, and its low half is the last nibble
        have hne : ctx.u32Index ≠ 0 := by
          rintro h0
          rw [h0] at hidx
          change 0 = _ at hidx
          omega
        have hcell : cell (xs ++ [x]) (ctx.u32Index - 1).toNat =
            join (xs.getD (2 * (ctx.u32Index - 1).toNat) 0) x :=
          cell_concat_odd (by rw [toNat_sub_one hne]; omega) x
        rw [if_pos (h.even_iff.mpr he), rxLowBefore, if_neg hne, h.at_eq, hcont, hcell, ← lo_val,
          lo_join]
      · -- this byte is open, and its high half is the last nibble
        have hcell : cell (xs ++ [x]) ctx.u32Index.toNat = join x 0 :=
          cell_concat_even (by omega) x
        rw [if_neg (fun h' => he (h.even_iff.mp h')), rxHighHere, h.at_eq, hcont, hcell, ← hi_val,
          hi_join]
    rw [rxExpected, hpdata, hx, expected_concat, h.sequence_eq, hlen]

/-! ## One step -/

theorem accepts_iff (h : Holds r ctx) :
    rxAccepts ctx f.sendlen ↔ (airFrame f.sendlen).1 = smartCode.expected r.nibs := by
  rw [rxAccepts, h.expected_eq, airFrame]

theorem index_eq_zero_iff (h : Holds r ctx) : ctx.u32Index = 0 ↔ r.nibs.length < 2 := by
  have hidx := h.index
  rw [← UInt8.toNat_inj, hidx]
  show r.nibs.length / 2 = 0 ↔ _
  omega

/-- A frame with another check value is ignored, except by a decoder one nibble into the message. -/
theorem reject (h : Holds r ctx) (hrej : ¬ rxAccepts ctx f.sendlen) :
    Holds (r.step (airFrame f.sendlen)).1 (rxStep ctx f).1 ∧
      (r.step (airFrame f.sendlen)).2 = none ∧ (rxStep ctx f).2 = none := by
  have hne : ¬ (airFrame f.sendlen).1 = smartCode.expected r.nibs := fun h' =>
    hrej (h.accepts_iff.mpr h')
  have hcond : (ctx.u32Sequence % 2 ≠ 0 ∧ ctx.u32Index = 0x00 ∧ rxData f.sendlen ≠ 0x7) ↔
      (r.nibs.length = 1 ∧ (airFrame f.sendlen).2.val ≠ 0x7) := by
    rw [Ne, h.even_iff, h.index_eq_zero_iff, airFrame, airNibble]
    constructor
    · rintro ⟨h1, h2, h3⟩; exact ⟨by omega, h3⟩
    · rintro ⟨h1, h2⟩; exact ⟨by omega, by omega, h2⟩
  rw [rxStep_reject hrej, Received.step, if_neg hne]
  by_cases hc : r.nibs.length = 1 ∧ (airFrame f.sendlen).2.val ≠ 0x7
  · -- back to the start; the nibble stays in the buffer
    obtain ⟨x, hx⟩ := List.length_eq_one_iff.mp hc.1
    rw [if_pos hc, if_pos (hcond.mpr hc)]
    refine ⟨⟨?_, rfl, fun i hi => ?_⟩, rfl, rfl⟩
    · simp only [h.index, hc.1]; rfl
    · exact (h.cells i hi).trans (by simp [Received.content, hx])
  · rw [if_neg hc, if_neg (fun h' => hc (hcond.mp h'))]
    exact ⟨h, rfl, rfl⟩

theorem ne_nil_of_odd {xs : List Nibble} (ho : xs.length % 2 = 1) : xs ≠ [] := by
  rintro rfl
  simp at ho

theorem sequence_succ (h : Holds r ctx) :
    (ctx.u32Sequence + 1).toNat = (r.nibs.length + 1) % 256 := by
  have hs := h.sequence
  rw [UInt8.toNat_add, hs, UInt8.toNat_one]
  omega

/-- The first half of a byte. -/
theorem accept_even (h : Holds r ctx) (hacc : rxAccepts ctx f.sendlen)
    (he : r.nibs.length % 2 = 0) :
    Holds (r.step (airFrame f.sendlen)).1 (rxStep ctx f).1 ∧
      (r.step (airFrame f.sendlen)).2 = none ∧ (rxStep ctx f).2 = none := by
  have hidx := h.index
  have hlt := h.length_lt
  have hseq := h.sequence_succ
  rw [rxStep_accept_even (h.even_iff.mpr he) hacc, Received.step, if_pos (h.accepts_iff.mp hacc),
    Received.accept]
  by_cases hnil : r.nibs = []
  · -- the first nibble of all is ORed onto what abandoned attempts have left
    rw [if_pos hnil]
    have hzero : ctx.u32Index = 0 := h.index_eq_zero_iff.mpr (by simp [hnil])
    have hold : ctx.buffer.at 0 = join r.stale 0 := by
      rw [h.at_eq, Received.content, if_pos hnil]; rfl
    refine ⟨⟨by simp [hidx, hnil], by simpa [hnil] using hseq, fun i hi => ?_⟩, rfl, rfl⟩
    rw [RxBuffer.getElem_put, hzero, hold]
    rcases i with - | i
    · exact join_or_shiftLeft r.stale (airNibble f.sendlen)
    · rw [if_neg (by simp), h.cells _ hi, Received.content, if_pos hnil, Received.content,
        if_neg (by simp), cell_of_length_le (by simp; omega), cell_of_length_le (by simp; omega)]
  · have hodd : ¬ Received.Terminated (r.nibs ++ [(airFrame f.sendlen).2]) := by
      intro ht
      have := ht.1
      simp at this
      omega
    rw [if_neg hnil, if_neg hodd]
    refine ⟨⟨?_, by simpa using hseq, fun i hi => ?_⟩, rfl, rfl⟩
    · simp only [hidx, List.length_append, List.length_singleton]; omega
    · rw [RxBuffer.getElem_put, h.at_eq, h.cells i hi, content_of_ne hnil,
        content_of_ne (by simp)]
      split
      · next heq =>
        have hlen : r.nibs.length = 2 * i := by omega
        rw [heq, cell_of_length_le (by omega), cell_concat_even hlen]
        exact (join_or_shiftLeft 0 (airNibble f.sendlen)).trans (by rw [zero_merge]; rfl)
      · next hne => rw [cell_concat_of_ne (by omega)]

/-- The cells once the second half of a byte is in. -/
theorem completed_getElem (h : Holds r ctx) (ho : r.nibs.length % 2 = 1) (i : Nat)
    (hi : i < BUFFER_MAX) :
    (rxCompleted ctx f.sendlen)[i] = cell (r.nibs ++ [airNibble f.sendlen]) i := by
  have hidx := h.index
  have hnil := ne_nil_of_odd ho
  rw [rxCompleted, RxBuffer.getElem_put, h.at_eq, h.cells i hi, content_of_ne hnil]
  split
  · next heq =>
    obtain ⟨xs, x, hx⟩ := (List.eq_nil_or_concat' r.nibs).resolve_left hnil
    have hlen : r.nibs.length = 2 * i + 1 := by omega
    have hxs : xs.length = 2 * i := by rw [hx] at hlen; simpa using hlen
    rw [heq, cell_concat_odd hlen, hx, cell_concat_even hxs, ← hxs]
    rw [show (xs ++ [x]).getD xs.length 0 = x from by simp]
    exact join_or x (airNibble f.sendlen)
  · next hne => rw [cell_concat_of_ne (by omega)]

/-- A buffer that holds the bytes of a terminated stream, the terminator cleared, delivers them. -/
theorem delivers_payload {buffer : RxBuffer} {xs : List Nibble} {d : Nibble}
    (ho : xs.length % 2 = 1) (h6 : 6 ≤ xs.length + 1) (hlt : xs.length < 511)
    (hcells : ∀ (i : Nat) (hi : i < BUFFER_MAX), buffer[i] = cell (xs.dropLast ++ [0, 0]) i)
    (mac : Mac) (mac_len len : Nat) :
    RxCall.Delivers ⟨mac, mac_len, buffer.toList.drop 1, len⟩ (Received.payload (xs ++ [d])) := by
  have hlen : (Received.payload (xs ++ [d])).length = xs.length / 2 - 1 := by
    rw [Received.length_payload, List.length_append, List.length_singleton]
    omega
  have hmax : BUFFER_MAX = 512 := rfl
  rw [RxCall.Delivers, hlen]
  apply List.ext_getElem
  · simp only [List.length_take, List.length_drop, Vector.length_toList, List.length_append, hlen,
      List.length_singleton]
    omega
  · intro i h1 h2
    have hi : i < xs.length / 2 := by
      simp only [List.length_append, hlen, List.length_singleton] at h2
      omega
    have hlt1 : 1 + i < BUFFER_MAX := by omega
    have hlt2 : 1 + i < buffer.toList.length := by simpa using hlt1
    have hbuf : buffer.toList[1 + i] = buffer[1 + i] := by simp
    rw [List.getElem_take, List.getElem_drop, hbuf, hcells _ (by omega),
      cell_dropLast_append_zeros ho d]
    rcases Nat.lt_or_ge i (xs.length / 2 - 1) with hlast | hlast
    · rw [if_neg (by omega), List.getElem_append_left (by omega)]
      simp [Received.payload, Nat.add_comm]
    · rw [if_pos (by omega), List.getElem_append_right (by omega)]
      simp

theorem index_succ (h : Holds r ctx) (ho : r.nibs.length % 2 = 1) (hlt : r.nibs.length < 511) :
    (ctx.u32Index + 1).toNat = (r.nibs.length + 1) / 2 := by
  have hidx := h.index
  rw [toNat_add_one (by omega)]
  omega

/-- The END byte is complete for the decoder when the stream is terminated. -/
theorem terminated_iff (h : Holds r ctx) (ho : r.nibs.length % 2 = 1)
    (hlt : r.nibs.length < 511) :
    (ctx.u32Index + 1 > 0x02 ∧
      (rxCompleted ctx f.sendlen).at (ctx.u32Index + 1 - 1) = END_FLAGS) ↔
      Received.Terminated (r.nibs ++ [airNibble f.sendlen]) := by
  have hidx := h.index
  rw [add_one_sub_one, RxBuffer.at_eq _ _ (toNat_lt_BUFFER_MAX _), h.completed_getElem ho,
    gt_iff_lt, UInt8.lt_iff_toNat_lt, h.index_succ ho hlt, hidx, Received.Terminated,
    List.length_append, List.length_singleton]
  rw [show (r.nibs.length + 1) / 2 - 1 = r.nibs.length / 2 from by omega]
  show 2 < _ ∧ _ ↔ _
  constructor
  · rintro ⟨h2, hend⟩
    exact ⟨by omega, by omega, hend⟩
  · rintro ⟨-, h6, hend⟩
    exact ⟨by omega, hend⟩

/-- The second half of a byte. -/
theorem accept_odd (h : Holds r ctx) (hacc : rxAccepts ctx f.sendlen)
    (ho : r.nibs.length % 2 = 1) (hlt : r.nibs.length < 511) :
    Holds (r.step (airFrame f.sendlen)).1 (rxStep ctx f).1 ∧
      Option.Rel (CallFor f) (r.step (airFrame f.sendlen)).2 (rxStep ctx f).2 := by
  have hidx := h.index
  have hnil := ne_nil_of_odd ho
  have hseq := h.sequence_succ
  have hidx' := h.index_succ ho hlt
  have hterm := h.terminated_iff (f := f) ho hlt
  have hodd : ctx.u32Sequence % 2 ≠ 0 := fun h' => by
    have := h.even_iff.mp h'
    omega
  rw [rxStep_accept_odd hodd hacc, Received.step, if_pos (h.accepts_iff.mp hacc),
    Received.accept, if_neg hnil, airFrame_snd]
  by_cases ht : Received.Terminated (r.nibs ++ [airNibble f.sendlen])
  · -- the terminator: it is cleared again, so the last two nibbles held are zero
    rw [if_pos (hterm.mpr ht), if_pos ht]
    have h6 : 6 ≤ r.nibs.length + 1 := by simpa using ht.2.1
    have hcells : ∀ (i : Nat) (hi : i < BUFFER_MAX),
        ((rxCompleted ctx f.sendlen).put (ctx.u32Index + 1 - 1) 0x00)[i] =
          cell (r.nibs.dropLast ++ [0, 0]) i := by
      intro i hi
      rw [RxBuffer.getElem_put, add_one_sub_one, hidx, h.completed_getElem ho,
        cell_dropLast_append_zeros ho]
    refine ⟨⟨?_, ?_, fun i hi => ?_⟩, .some ⟨rfl, rfl, ?_, ?_⟩⟩
    · simp only [hidx', List.length_append, List.length_dropLast, List.length_cons,
        List.length_nil]
      omega
    · simp only [hseq, List.length_append, List.length_dropLast, List.length_cons,
        List.length_nil]
      omega
    · rw [content_of_ne (by simp)]
      exact hcells i hi
    · simp only [hidx', Received.length_payload, List.length_append, List.length_singleton]
      omega
    · exact delivers_payload ho h6 hlt hcells _ _ _
  · rw [if_neg (fun h' => ht (hterm.mp h')), if_neg ht]
    refine ⟨⟨by simpa using hidx', by simpa using hseq, fun i hi => ?_⟩, .none⟩
    rw [content_of_ne (by simp)]
    exact h.completed_getElem ho i hi

end Holds

/-- **The decoder refines `Received`**: as long as the byte counter has not wrapped, a step of the
decoder is a step on the list of nibbles, and it calls back exactly what that step delivers. -/
theorem rxStep_refines {r : Received} {ctx : SmartLinkRx} (h : Holds r ctx)
    (hlt : r.nibs.length < 511) (f : Frame) :
    Holds (r.step (airFrame f.sendlen)).1 (rxStep ctx f).1 ∧
      Option.Rel (CallFor f) (r.step (airFrame f.sendlen)).2 (rxStep ctx f).2 := by
  by_cases hacc : rxAccepts ctx f.sendlen
  · rcases Nat.mod_two_eq_zero_or_one r.nibs.length with he | ho
    · obtain ⟨hH, h1, h2⟩ := h.accept_even hacc he
      rw [h1, h2]
      exact ⟨hH, .none⟩
    · exact h.accept_odd hacc ho hlt
  · obtain ⟨hH, h1, h2⟩ := h.reject hacc
    rw [h1, h2]
    exact ⟨hH, .none⟩

theorem call_of_none {f : Frame} {o : Option RxCall} (h : Option.Rel (CallFor f) none o) :
    o = none := by
  cases h; rfl

theorem call_of_some {f : Frame} {m : List UInt8} {o : Option RxCall}
    (h : Option.Rel (CallFor f) (some m) o) : ∃ c, o = some c ∧ CallFor f m c := by
  cases h with
  | some hc => exact ⟨_, rfl, hc⟩

/-- The decoder calls back exactly when the step on the nibbles delivers. -/
theorem call_cases {f : Frame} {o : Option (List UInt8)} {o' : Option RxCall}
    (h : Option.Rel (CallFor f) o o') :
    (o = none ∧ o' = none) ∨ ∃ m c, o = some m ∧ o' = some c ∧ CallFor f m c := by
  cases h with
  | none => exact Or.inl ⟨rfl, rfl⟩
  | some hc => exact Or.inr ⟨_, _, rfl, rfl, hc⟩

/-- A delivery is the acceptance of the nibble that completes a terminator. -/
theorem Received.step_delivers {r : Received} {f : UInt8 × Nibble} {m : List UInt8}
    (h : (r.step f).2 = some m) :
    f.1 = smartCode.expected r.nibs ∧ Terminated (r.nibs ++ [f.2]) ∧
      m = payload (r.nibs ++ [f.2]) := by
  unfold Received.step Received.accept at h
  split_ifs at h with hacc hnil hterm
  · exact ⟨hacc, hterm, (Option.some.inj h).symm⟩

/-- An accepted nibble is counted. -/
theorem Received.length_step_accept {r : Received} {f : UInt8 × Nibble}
    (h : f.1 = smartCode.expected r.nibs) : (r.step f).1.nibs.length = r.nibs.length + 1 := by
  rw [Received.step, if_pos h, Received.accept]
  by_cases hnil : r.nibs = []
  · simp [hnil]
  · have hpos := List.length_pos_iff.mpr hnil
    rw [if_neg hnil]
    split
    · simp; omega
    · simp

/-- A rejected one is not. -/
theorem Received.length_step_reject {r : Received} {f : UInt8 × Nibble}
    (h : f.1 ≠ smartCode.expected r.nibs) :
    (r.step f).1.nibs.length = r.nibs.length ∨
      (r.nibs.length = 1 ∧ (r.step f).1.nibs.length = 0) := by
  rw [Received.step, if_neg h]
  split
  · next hone => exact Or.inr ⟨hone.1, rfl⟩
  · exact Or.inl rfl

/-- A step adds at most one nibble. -/
theorem Received.length_step_le (r : Received) (f : UInt8 × Nibble) :
    (r.step f).1.nibs.length ≤ r.nibs.length + 1 := by
  by_cases h : f.1 = smartCode.expected r.nibs
  · exact Nat.le_of_eq (length_step_accept h)
  · have := length_step_reject h
    omega

/-- What a sequence of frames says. -/
def airFrames (fs : List Frame) : List (UInt8 × Nibble) := fs.map fun f => airFrame f.sendlen

/-- The refinement over runs: too short a run to wrap the byte counter makes the calls that the
list of nibbles delivers. -/
theorem run_refines {r : Received} {ctx : SmartLinkRx} (h : Holds r ctx) (fs : List Frame)
    (hlt : r.nibs.length + fs.length ≤ 511) :
    Holds (Mealy.run Received.step r (airFrames fs)).1 (Mealy.run rxStep ctx fs).1 ∧
      List.Forall₂ (fun m c => RxCall.Delivers c m) (Mealy.run Received.step r (airFrames fs)).2
        (Mealy.run rxStep ctx fs).2 := by
  induction fs generalizing r ctx with
  | nil => exact ⟨h, .nil⟩
  | cons f fs ih =>
      rw [List.length_cons] at hlt
      have hlen := Received.length_step_le r (airFrame f.sendlen)
      obtain ⟨hholds, hcall⟩ := rxStep_refines h (by omega) f
      obtain ⟨hH, hcalls⟩ := ih hholds (by omega)
      rw [airFrames, List.map_cons, ← airFrames, Mealy.run_cons, Mealy.run_cons]
      have hcall' := (Mealy.rel_toList hcall).imp fun _ _ hfor => hfor.delivers
      exact ⟨hH, List.rel_append hcall' hcalls⟩

end SmartConfig
