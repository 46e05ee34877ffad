import SmartConfig.Link.Roundtrip

/-!
# Loss, repetition and reordering

What the check values protect against, for a message without an inner terminator: every run over
frames of its transmission, in whatever order and however often, stays consistent with the message
exactly when its check code separates, i.e. when no two of its frames with the same check value
carry different nibbles.
-/

namespace SmartConfig

open Nibble Received

/-- The bytes assembled so far are the first bytes of `b`, and so is the open high half. -/
def Consistent (b : List UInt8) (ctx : SmartLinkRx) : Prop :=
  ctx.buffer.toList.take ctx.u32Index.toNat = b.take ctx.u32Index.toNat ∧
  (ctx.u32Sequence % 2 ≠ 0 →
    b[ctx.u32Index.toNat]?.map hi = some (hi (ctx.buffer.at ctx.u32Index)))

/-! ## Consistency on the nibble stream -/

theorem Holds.take_buffer {r : Received} {ctx : SmartLinkRx} (h : Holds r ctx) :
    ctx.buffer.toList.take ctx.u32Index.toNat =
      (List.range (r.nibs.length / 2)).map (cell r.nibs) := by
  have hlt := h.length_lt
  have hmax : BUFFER_MAX = 512 := rfl
  rw [h.index]
  apply List.ext_getElem
  · simp; omega
  · intro i h1 h2
    have hi : i < r.nibs.length / 2 := by simpa using h2
    have hne : r.nibs ≠ [] := by rintro h0; simp [h0] at hi
    have hcell := h.cells i (by omega)
    rw [content_of_ne hne] at hcell
    simpa using hcell

/-- A stream of whole bytes, as a prefix of the nibbles of a byte string. -/
theorem prefix_nibbles_iff {xs : List Nibble} {k : Nat} (h : xs.length = 2 * k) (b : List UInt8) :
    xs <+: nibbles b ↔ (List.range k).map (cell xs) = b.take k := by
  constructor
  · intro hp
    have hlen := hp.length_le
    rw [h, length_nibbles] at hlen
    have hxs := List.prefix_iff_eq_take.mp hp
    rw [h, nibbles_take] at hxs
    have hk : (b.take k).length = k := by rw [List.length_take]; omega
    have hcells := cells_nibbles (b.take k)
    rwa [hk, ← hxs] at hcells
  · intro heq
    have hcells := nibbles_cells h
    rw [heq, ← nibbles_take] at hcells
    rw [← hcells]
    exact List.take_prefix _ _

/-- Consistency of the context is the prefix relation on the nibbles it stands for. -/
theorem consistent_iff {r : Received} {ctx : SmartLinkRx} (h : Holds r ctx) (b : List UInt8) :
    Consistent b ctx ↔ r.nibs <+: nibbles b := by
  have hidx := h.index
  rw [Consistent, h.take_buffer, Ne, h.even_iff, h.at_eq, hidx]
  rcases Nat.mod_two_eq_zero_or_one r.nibs.length with he | ho
  · -- whole bytes
    rw [prefix_nibbles_iff (k := r.nibs.length / 2) (by omega)]
    simp [he]
  · -- whole bytes and an open high half
    obtain ⟨ys, x, hys⟩ := (List.eq_nil_or_concat' r.nibs).resolve_left
      (by intro h0; simp [h0] at ho)
    have hlen : r.nibs.length = ys.length + 1 := by rw [hys]; simp
    have hk : r.nibs.length / 2 = ys.length / 2 := by omega
    have hcells : (List.range (ys.length / 2)).map (cell r.nibs) =
        (List.range (ys.length / 2)).map (cell ys) := by
      apply List.map_congr_left
      intro i hi
      rw [hys, cell_concat_of_ne (Nat.ne_of_gt (List.mem_range.mp hi))]
    have hopen : cell r.content (ys.length / 2) = join x 0 := by
      rw [Holds.content_of_ne (by simp [hys]), hys, cell_concat_even (by omega)]
    have hget : (nibbles b)[ys.length]? = b[ys.length / 2]?.map hi := by
      rw [← getElem?_nibbles_even, show 2 * (ys.length / 2) = ys.length from by omega]
    rw [hk, hcells, hopen, hi_join, hys, ChainCode.concat_prefix_iff, hget,
      prefix_nibbles_iff (k := ys.length / 2) (by omega)]
    simp [show (ys.length + 1) % 2 = 1 from by omega]

/-! ## Frames out of order -/

section Reordered

variable {tx : SmartLinkTx} {m : Message}

theorem airFrame_mem_encode {s : Int} (hs : s ∈ m.send tx) :
    airFrame s ∈ smartCode.encode m.air := by
  rw [m.send_eq] at hs
  obtain ⟨f, hf, rfl⟩ := List.mem_map.mp hs
  rwa [airFrame_frameLength]

theorem frameLength_mem_send (tx : SmartLinkTx) {f : UInt8 × Nibble}
    (hf : f ∈ smartCode.encode m.air) : frameLength f ∈ m.send tx := by
  rw [m.send_eq]
  exact List.mem_map_of_mem hf

/-- The condition on the lengths is that the stream separates. -/
theorem separates_iff :
    (∀ s ∈ m.send tx, ∀ s' ∈ m.send tx, rxFlag s = rxFlag s' → rxData s = rxData s') ↔
      smartCode.Separates m.air := by
  constructor
  · intro h f hf g hg heq
    have hfl := airFrame_frameLength f
    have hgl := airFrame_frameLength g
    have hdata := h _ (frameLength_mem_send tx hf) _ (frameLength_mem_send tx hg)
      (by rw [← airFrame_fst, ← airFrame_fst, hfl, hgl, heq])
    rw [← airNibble_val, ← airNibble_val, ← airFrame_snd, ← airFrame_snd, hfl, hgl] at hdata
    exact Subtype.ext hdata
  · intro h s hs s' hs' heq
    have hsep := h _ (airFrame_mem_encode hs) _ (airFrame_mem_encode hs') heq
    exact congrArg Subtype.val hsep

/-- The receiver holds a proper prefix of the message, over nothing that would show under START. -/
structure Partial (m : Message) (r : Received) : Prop where
  nibs : r.nibs <+: m.air
  short : r.nibs.length < m.air.length
  stale : merge r.stale (hi START_FLAGS) = hi START_FLAGS

/-- On a separating stream, a nibble that is accepted extends the prefix, or completes the
message. -/
theorem Partial.accept (hplain : m.Plain) (hsep : smartCode.Separates m.air) {r : Received}
    (h : Partial m r) {g : UInt8 × Nibble} (hg : g ∈ smartCode.encode m.air)
    (hacc : g.1 = smartCode.expected r.nibs) :
    ((r.accept g.2).2 = none → Partial m (r.accept g.2).1) ∧
      ∀ p, (r.accept g.2).2 = some p → p = m.bytes := by
  have hair := m.length_air
  have hstop := hplain.stop_eq
  have hext := ChainCode.accept_prefix hsep h.nibs h.short hg hacc
  have htake := List.prefix_iff_eq_take.mp hext
  rw [Received.accept]
  split
  · next hnil =>
    -- the nibble of the first frame, whichever frame it came with
    have hd : g.2 = hi START_FLAGS := by
      rw [hnil] at htake
      exact List.head_eq_of_cons_eq htake
    refine ⟨fun _ => ⟨?_, ?_, h.stale⟩, fun p hp => by simp at hp⟩
    · rw [hd, h.stale]
      exact ⟨m.air.tail, rfl⟩
    · simp [hair]; omega
  · next hne =>
    have hterm : Terminated (r.nibs ++ [g.2]) ↔ r.nibs.length + 1 = m.air.length := by
      have hshort := h.short
      rw [htake, terminated_take_iff m (by simp; omega), hair, hstop]
      simp
    split
    · next ht =>
      refine ⟨fun hn => by simp at hn, fun p hp => ?_⟩
      have hall : r.nibs ++ [g.2] = m.air.take (2 * (m.stop + 2)) := by
        rw [htake, List.length_append, List.length_singleton, hterm.mp ht, hair, hstop]
      rw [← Option.some.inj hp, hall, payload_take_stop, hstop, List.take_length]
    · next ht =>
      refine ⟨fun _ => ⟨hext, ?_, h.stale⟩, fun p hp => by simp at hp⟩
      have hshort := h.short
      have := mt hterm.mpr ht
      simp only [List.length_append, List.length_singleton]
      omega

/-- On a separating stream, any frame of it keeps a proper prefix, or delivers the message. -/
theorem Partial.step (hplain : m.Plain) (hsep : smartCode.Separates m.air) {r : Received}
    (h : Partial m r) {g : UInt8 × Nibble} (hg : g ∈ smartCode.encode m.air) :
    ((r.step g).2 = none → Partial m (r.step g).1) ∧
      ∀ p, (r.step g).2 = some p → p = m.bytes := by
  have hair := m.length_air
  rw [Received.step]
  split
  · next hacc => exact h.accept hplain hsep hg hacc
  · split
    · next hrestart =>
      -- what the restart leaves behind is the nibble of START itself
      refine ⟨fun _ => ⟨List.nil_prefix, by simp [hair], ?_⟩, fun p hp => by simp at hp⟩
      have hone := List.prefix_iff_eq_take.mp h.nibs
      rw [hrestart.1] at hone
      rw [hone]
      show merge (hi START_FLAGS) (hi START_FLAGS) = hi START_FLAGS
      decide
    · exact ⟨fun _ => h, fun p hp => by simp at hp⟩

/-- Until something is delivered the receiver holds a proper prefix; the first delivery is right. -/
theorem reordered_inv (hplain : m.Plain) (hsep : smartCode.Separates m.air) (fs : List Frame)
    (hfs : ∀ f ∈ fs, f.sendlen ∈ m.send tx) :
    (rxCalls fs = [] → ∃ r, Holds r (rxAfter fs) ∧ Partial m r) ∧
      ∀ c cs, rxCalls fs = c :: cs → c.Delivers m.bytes := by
  -- on the last frame: once something is delivered, nothing later matters
  induction fs using List.reverseRecOn with
  | nil =>
      refine ⟨fun _ => ⟨idle, holds_idle, List.nil_prefix, ?_, zero_merge _⟩, fun c cs hc => ?_⟩
      · simp [idle]
      · simp [rxCalls] at hc
  | append_singleton fs f ih =>
      obtain ⟨hpart0, hfirst⟩ := ih fun g hg => hfs g (List.mem_append_left _ hg)
      rw [rxAfter_concat, rxCalls_concat]
      cases hcalls : rxCalls fs with
      | cons c0 cs0 =>
          refine ⟨fun h => by simp at h, fun c cs hc => ?_⟩
          obtain ⟨rfl, -⟩ := List.cons.inj hc
          exact hfirst _ _ hcalls
      | nil =>
          obtain ⟨r, hr, hpart⟩ := hpart0 hcalls
          have hshort := hpart.short
          have h253 := m.le_253
          rw [m.length_air] at hshort
          obtain ⟨hholds, hcall⟩ := rxStep_refines hr (by omega) f
          obtain ⟨hkeep, hdeliver⟩ :=
            hpart.step hplain hsep (airFrame_mem_encode (hfs f (by simp)))
          obtain ⟨hd, hnone⟩ | ⟨p, c0, hd, hc0, hfor⟩ := call_cases hcall
          · rw [hnone]
            exact ⟨fun _ => ⟨_, hholds, hkeep hd⟩, fun c cs hc => by simp at hc⟩
          · rw [hc0]
            refine ⟨fun h => by simp at h, fun c cs hc => ?_⟩
            obtain ⟨rfl, -⟩ := List.cons.inj hc
            rw [← hdeliver p hd]
            exact hfor.delivers

/-- After the first `t` frames, nothing lost, the receiver holds the first `t` nibbles. -/
theorem take_send_inv (tx : SmartLinkTx) (hplain : m.Plain) {t : Nat} (ht : t < m.air.length) :
    rxCalls (framesFrom macZero ((m.send tx).take t)) = [] ∧
      ∃ r, Holds r (rxAfter (framesFrom macZero ((m.send tx).take t))) ∧ r.nibs = m.air.take t ∧
        (t = 0 → r.stale = 0) := by
  rcases Nat.eq_zero_or_pos t with rfl | hpos
  · exact ⟨rfl, idle, holds_idle, rfl, fun _ => rfl⟩
  have hair := m.length_air
  have hstop := hplain.stop_eq
  have hframes : airFrames (framesFrom macZero ((m.send tx).take t)) =
      (smartCode.encode m.air).take t := by
    rw [airFrames_framesFrom, List.map_take, map_airFrame_send]
  have hlen : (framesFrom macZero ((m.send tx).take t)).length = t := by
    have := congrArg List.length hframes
    rw [airFrames, List.length_map, List.length_take, ChainCode.length_encode] at this
    omega
  have hpre : airFrames (framesFrom macZero ((m.send tx).take t)) <+: smartCode.encode m.air := by
    rw [hframes]
    exact List.take_prefix _ _
  obtain ⟨⟨r, hr, hnibs, -⟩, hcalls⟩ := (inStep_start m).run hpre (by omega)
  rw [Nat.zero_add, hlen] at hnibs
  exact ⟨hcalls, r, hr, hnibs, fun h0 => by omega⟩

/-- A call that delivers a message and something shorter found the NUL inside the message. -/
theorem RxCall.Delivers.shorter {c : RxCall} {p b : List UInt8} (hp : c.Delivers p)
    (hb : c.Delivers b) (hlt : p.length < b.length) : b[p.length]? = some 0 := by
  have hget : (c.buf.take (p.length + 1))[p.length]? = (c.buf.take (b.length + 1))[p.length]? := by
    rw [List.getElem?_take_of_lt (by omega), List.getElem?_take_of_lt (by omega)]
  rw [hp, hb, List.getElem?_concat_length, List.getElem?_append_left hlt] at hget
  exact hget.symm

/-- A wrong nibble in place of nibble `t` shows in the nibbles, or in what it delivers. -/
theorem accept_wrong {r : Received} {t : Nat} {x d : Nibble} (hnibs : r.nibs = m.air.take t)
    (hstale : t = 0 → r.stale = 0) (hx : m.air[t]? = some x) (hne : d ≠ x) :
    ((r.accept d).2 = none → ¬ (r.accept d).1.nibs <+: m.air) ∧
      ∀ p, (r.accept d).2 = some p → ∀ c : RxCall, c.Delivers p → ¬ c.Delivers m.bytes := by
  have ht : t < m.air.length := (List.getElem?_eq_some_iff.mp hx).1
  have hair := m.length_air
  have hlen : r.nibs.length = t := by rw [hnibs, List.length_take]; omega
  have hwrong : ¬ r.nibs ++ [d] <+: m.air := by
    rw [ChainCode.concat_prefix_iff, hlen, hx]
    exact fun h => hne (Option.some.inj h.2).symm
  rw [accept]
  split
  · next hnil =>
    refine ⟨fun _ => ?_, fun p hp => by simp at hp⟩
    rw [hnil] at hwrong hlen
    rwa [hstale hlen.symm, zero_merge]
  · split
    · -- it delivers: either too early, at a byte that is no terminator, or with a wrong last half
      next hterm =>
      refine ⟨fun h => by simp at h, fun p hp c hcp hcm => ?_⟩
      obtain ⟨ys, hys, hd, heven, h4⟩ := hterm.eq_concat
      have hyt : ys.length + 1 = t := by rw [← hlen, hys]; simp
      have hhigh : m.air[t - 1]? = some (hi END_FLAGS) := by
        rw [← List.getElem?_take_of_lt (by omega : t - 1 < t), ← hnibs, hys,
          show t - 1 = ys.length from by omega, List.getElem?_concat_length]
      have hplen : p.length = (t + 1) / 2 - 2 := by
        rw [← Option.some.inj hp, payload, List.length_map, List.length_range, List.length_append,
          List.length_singleton, hlen]
      rcases Nat.lt_or_ge p.length m.bytes.length with hlt | hge
      · -- the NUL of the delivery stands for a byte of the message whose high half is not zero
        have hzero := hcp.shorter hcm hlt
        have hbyte : (framed m.bytes)[p.length + 1]? = some 0 := by
          rw [Message.getElem?_framed_succ, List.getElem?_append_left hlt, hzero]
        rw [show t - 1 = 2 * (p.length + 1) from by omega, Message.air, getElem?_nibbles_even,
          hbyte] at hhigh
        exact absurd (Option.some.inj hhigh) (by decide)
      · -- it is the terminator of the message itself
        have hlast : (framed m.bytes)[m.bytes.length + 1]? = some END_FLAGS := by
          rw [Message.getElem?_framed_succ, List.getElem?_concat_length]
        rw [show t = 2 * (m.bytes.length + 1) + 1 from by omega, Message.air,
          getElem?_nibbles_odd, hlast] at hx
        exact hne (hd.trans (Option.some.inj hx))
    · next hterm => exact ⟨fun _ => hwrong, fun p hp => by simp at hp⟩

/-- **The exact tolerance of the check code**: any loss, repetition and reordering leaves the
assembled bytes right and the first delivery whole if and only if equal check values in the
transmission come with equal nibbles. -/
theorem tolerates_iff_separates (tx : SmartLinkTx) (m : Message) (hplain : m.Plain) :
    (∀ fs : List Frame, (∀ f ∈ fs, f.sendlen ∈ m.send tx) →
      (rxCalls fs = [] → Consistent (framed m.bytes) (rxAfter fs)) ∧
      ∀ c cs, rxCalls fs = c :: cs → c.Delivers m.bytes) ↔
    ∀ s ∈ m.send tx, ∀ s' ∈ m.send tx, rxFlag s = rxFlag s' → rxData s = rxData s' := by
  rw [separates_iff]
  constructor
  · intro h
    by_contra hsep
    obtain ⟨t, x, hx, g, hg, hcheck, hne⟩ := ChainCode.exists_collision hsep
    have ht : t < m.air.length := (List.getElem?_eq_some_iff.mp hx).1
    obtain ⟨hcalls, r, hr, hnibs, hstale⟩ := take_send_inv tx hplain ht
    -- the first `t` frames, then the one that passes for the next
    obtain ⟨f, hf, hair⟩ : ∃ f : Frame, f.sendlen = frameLength g ∧ airFrame f.sendlen = g :=
      ⟨⟨frameLength g, macZero⟩, rfl, airFrame_frameLength g⟩
    obtain ⟨hkeep, hdeliver⟩ := h (framesFrom macZero ((m.send tx).take t) ++ [f]) (by
      intro e he
      rcases List.mem_append.mp he with he | he
      · have hmem : e.sendlen ∈ (framesFrom macZero ((m.send tx).take t)).map (·.sendlen) :=
          List.mem_map.mpr ⟨e, he, rfl⟩
        rw [map_sendlen_framesFrom] at hmem
        exact List.mem_of_mem_take hmem
      · rw [List.mem_singleton.mp he, hf]
        exact frameLength_mem_send tx hg)
    have hlen : r.nibs.length < 511 := by
      have := m.le_253
      rw [m.length_air] at ht
      rw [hnibs, List.length_take]
      omega
    obtain ⟨hholds, hcall⟩ := rxStep_refines hr hlen f
    have hstep : r.step (airFrame f.sendlen) = r.accept g.2 := by
      rw [hair, Received.step, hnibs, if_pos hcheck]
    obtain ⟨hnone, hsome⟩ := accept_wrong hnibs hstale hx hne
    rw [hstep] at hholds hcall
    rw [rxCalls_concat, hcalls, List.nil_append] at hkeep hdeliver
    rw [rxAfter_concat] at hkeep
    obtain ⟨hd, hquiet⟩ | ⟨p, c, hd, hc, hfor⟩ := call_cases hcall
    · rw [hquiet] at hkeep
      exact hnone hd ((consistent_iff hholds _).mp (hkeep rfl))
    · rw [hc] at hdeliver
      exact hsome p hd c hfor.delivers (hdeliver c [] rfl)
  · intro hsep fs hfs
    obtain ⟨hpart0, hfirst⟩ := reordered_inv hplain hsep fs hfs
    refine ⟨fun hnone => ?_, hfirst⟩
    obtain ⟨r, hr, hpart⟩ := hpart0 hnone
    exact (consistent_iff hr _).mpr hpart.nibs

/-- The check values of `A` are all different. -/
theorem tolerates_iff_separates_letterA :
    (∀ s ∈ Message.letterA.send ⟨0⟩, ∀ s' ∈ Message.letterA.send ⟨0⟩,
      rxFlag s = rxFlag s' → rxData s = rxData s') ∧
    ∀ fs : List Frame, (∀ f ∈ fs, f.sendlen ∈ Message.letterA.send ⟨0⟩) →
      (rxCalls fs = [] → Consistent (framed [0x41]) (rxAfter fs)) ∧
      ∀ c cs, rxCalls fs = c :: cs → c.Delivers [0x41] := by
  have hsep : ∀ s ∈ Message.letterA.send ⟨0⟩, ∀ s' ∈ Message.letterA.send ⟨0⟩,
      rxFlag s = rxFlag s' → rxData s = rxData s' := by
    rw [Message.letterA.send_eq]
    decide +kernel
  exact ⟨hsep, (tolerates_iff_separates ⟨0⟩ Message.letterA (by decide)).mpr hsep⟩

end Reordered

end SmartConfig
