import SmartConfig.Message
import SmartConfig.SmartLinkRx.Received

/-!
# Sender and receiver in step

The lengths the sender emits say to the receiver exactly the frames of `smartCode`
(`airFrame_frameLength`), so a receiver that holds the first `t` nibbles of a message accepts the
next frame and holds `t + 1` of them, up to the terminator (`InStep.own`). A frame it does not
expect leaves it where it is (`InStep.foreign`).
-/

namespace SmartConfig

open Nibble Received

/-! ## What a length says -/

/-- The receiver reads back the check value and the nibble that the sender put into a length. -/
theorem airFrame_frameLength (f : UInt8 × Nibble) : airFrame (frameLength f) = f := by
  have hx : f.2.val.toNat < 2 ^ 4 := UInt8.lt_iff_toNat_lt.mp f.2.property
  have hc := f.1.toNat_lt
  have hlen : frameLength f = ((f.1.toNat * 16 + f.2.val.toNat : Nat) : Int) + 24 := by
    rw [frameLength, txSendlen, ← Nat.shiftLeft_add_eq_or_of_lt hx, Nat.shiftLeft_eq]
  refine Prod.ext (UInt8.toNat_inj.mp ?_) (Subtype.ext (UInt8.toNat_inj.mp ?_))
  · rw [airFrame_fst, toNat_rxFlag, hlen]; omega
  · rw [airFrame_snd, airNibble_val, toNat_rxData, hlen]; omega

/-! ## The terminator on the nibble stream -/

theorem payload_nibbles (bs : List UInt8) :
    payload (nibbles bs) = (bs.drop 1).take (bs.length - 2) := by
  rw [payload, length_nibbles, show 2 * bs.length / 2 = bs.length from by omega]
  apply List.ext_getElem
  · simp; omega
  · intro i h1 h2
    have hi : i + 1 < bs.length := by simp at h1; omega
    simp [List.getElem?_eq_getElem hi]

/-- The stream is terminated by the byte at the stop, and not before. -/
theorem terminated_take_iff (m : Message) {u : Nat} (hu : u ≤ 2 * (m.stop + 2)) :
    Terminated (m.air.take u) ↔ u = 2 * (m.stop + 2) := by
  have hstop := m.stop_le
  have hlen : (m.air.take u).length = u := by rw [List.length_take, m.length_air]; omega
  have hcell : ∀ k, k < m.bytes.length + 2 →
      cell (m.air.take (2 * (k + 1))) k = (framed m.bytes).getD k 0 := by
    intro k hk
    rw [Message.air, nibbles_take, cell_nibbles, List.getD_eq_getElem?_getD,
      List.getElem?_take_of_lt (Nat.lt_succ_self k), List.getD_eq_getElem?_getD]
  rw [Terminated, hlen]
  constructor
  · rintro ⟨he, h6, hend⟩
    obtain ⟨k, rfl⟩ : ∃ k, u = 2 * (k + 1) := ⟨u / 2 - 1, by omega⟩
    rw [show 2 * (k + 1) / 2 - 1 = k from by omega, hcell k (by omega)] at hend
    by_contra hne
    have hk : k < (framed m.bytes).length := by rw [length_framed]; omega
    have hsome : (framed m.bytes)[k]? = some END_FLAGS := by
      rw [List.getD_eq_getElem?_getD, List.getElem?_eq_getElem hk] at hend
      rw [List.getElem?_eq_getElem hk]
      exact congrArg some hend
    exact m.framed_before_stop (by omega) (by omega) hsome
  · rintro rfl
    have := m.one_le_stop
    refine ⟨by omega, by omega, ?_⟩
    rw [show 2 * (m.stop + 2) / 2 - 1 = m.stop + 1 from by omega, hcell _ (by omega),
      List.getD_eq_getElem?_getD, m.framed_stop]
    rfl

theorem payload_take_stop (m : Message) :
    payload (m.air.take (2 * (m.stop + 2))) = m.bytes.take m.stop := by
  have hstop := m.stop_le
  rw [Message.air, nibbles_take, payload_nibbles, List.length_take, length_framed,
    show min (m.stop + 2) (m.bytes.length + 2) - 2 = m.stop from by omega, framed]
  rw [List.take_succ_cons, List.drop_succ_cons, List.drop_zero, List.take_take,
    show min m.stop (m.stop + 1) = m.stop from by omega, List.take_append_of_le_length hstop]

/-! ## In step -/

/-- The receiver holds exactly the first `t` nibbles of the message; at the start, what is left in
the first cell does not show under `START_FLAGS`. -/
def InStep (m : Message) (t : Nat) (ctx : SmartLinkRx) : Prop :=
  ∃ r, Holds r ctx ∧ r.nibs = m.air.take t ∧
    (t = 0 → merge r.stale (hi START_FLAGS) = hi START_FLAGS)

/-- The receiver has delivered: it holds the bytes before the stop, and zero in place of the
terminator. -/
def Finished (m : Message) (ctx : SmartLinkRx) : Prop :=
  ∃ r, Holds r ctx ∧ r.nibs = m.air.take (2 * (m.stop + 1)) ++ [0, 0]

theorem inStep_start (m : Message) : InStep m 0 smartLinkRxStart :=
  ⟨idle, holds_idle, rfl, fun _ => zero_merge _⟩

theorem Message.air_zero (m : Message) : m.air[0]? = some (hi START_FLAGS) := rfl

theorem take_append_next {m : Message} {t : Nat} {x : Nibble} (hx : m.air[t]? = some x) :
    m.air.take t ++ [x] = m.air.take (t + 1) := by
  rw [List.take_add_one, hx]; rfl

/-- What the next frame of the message makes of the nibbles before it. -/
theorem accept_next {m : Message} {t : Nat} {r : Received} {x : Nibble}
    (hnibs : r.nibs = m.air.take t)
    (hstale : t = 0 → merge r.stale (hi START_FLAGS) = hi START_FLAGS)
    (ht : t < 2 * (m.stop + 2)) (hx : m.air[t]? = some x) :
    if t + 1 < 2 * (m.stop + 2) then
      (r.accept x).1.nibs = m.air.take (t + 1) ∧ (r.accept x).2 = none
    else
      (r.accept x).1.nibs = m.air.take (2 * (m.stop + 1)) ++ [0, 0] ∧
        (r.accept x).2 = some (m.bytes.take m.stop) := by
  have hstop := m.stop_le
  rcases Nat.eq_zero_or_pos t with rfl | hpos
  · -- the first nibble of all goes over what is left in the first cell
    have hxs : x = hi START_FLAGS := Option.some.inj (hx.symm.trans m.air_zero)
    rw [if_pos (by omega), accept, if_pos (by simpa using hnibs)]
    refine ⟨?_, rfl⟩
    simp only [hxs, hstale rfl]
    rfl
  · have hne : r.nibs ≠ [] := by
      intro h0
      have hlen := congrArg List.length hnibs
      rw [h0, List.length_take, m.length_air, List.length_nil] at hlen
      omega
    rw [accept, if_neg hne, hnibs, take_append_next hx]
    simp only [terminated_take_iff m (by omega : t + 1 ≤ 2 * (m.stop + 2))]
    split
    · next hlt => rw [if_neg (by omega)]; exact ⟨rfl, rfl⟩
    · next hge =>
      have heq : t + 1 = 2 * (m.stop + 2) := by omega
      rw [if_pos heq, heq]
      refine ⟨?_, congrArg some (payload_take_stop m)⟩
      have hdrop : (m.air.take t).dropLast = m.air.take (t - 1) := by
        rw [List.dropLast_eq_take, List.length_take, m.length_air, List.take_take]
        congr 1
        omega
      simp only [hdrop, show t - 1 = 2 * (m.stop + 1) from by omega]

/-- **One more frame of the message**, before the terminator is complete: it is accepted, and it
completes the delivery exactly when it is the second frame of the stop byte. -/
theorem InStep.own {m : Message} {t : Nat} {ctx : SmartLinkRx} (h : InStep m t ctx)
    (ht : t < 2 * (m.stop + 2)) {f : Frame}
    (hf : (smartCode.encode m.air)[t]? = some (airFrame f.sendlen)) :
    rxAccepts ctx f.sendlen ∧
      (t + 1 < 2 * (m.stop + 2) → InStep m (t + 1) (rxStep ctx f).1 ∧ (rxStep ctx f).2 = none) ∧
      (t + 1 = 2 * (m.stop + 2) → Finished m (rxStep ctx f).1 ∧
        ∃ c, (rxStep ctx f).2 = some c ∧ CallFor f (m.bytes.take m.stop) c) := by
  obtain ⟨r, hr, hnibs, hstale⟩ := h
  have hstop := m.stop_le
  have h253 := m.le_253
  rw [ChainCode.getElem?_encode, Option.map_eq_some_iff] at hf
  obtain ⟨x, hx, hair⟩ := hf
  have hlen : r.nibs.length < 511 := by
    rw [hnibs, List.length_take]; omega
  have hstep : r.step (airFrame f.sendlen) = r.accept x := by
    rw [← hair, step, hnibs, if_pos rfl]
  obtain ⟨hholds, hcall⟩ := rxStep_refines hr hlen f
  rw [hstep] at hholds hcall
  have hnext := accept_next hnibs hstale ht hx
  refine ⟨hr.accepts_iff.mpr (by rw [← hair, hnibs]), fun hlt => ?_, fun heq => ?_⟩
  · rw [if_pos hlt] at hnext
    rw [hnext.2] at hcall
    exact ⟨⟨_, hholds, hnext.1, fun h0 => absurd h0 (Nat.succ_ne_zero t)⟩, call_of_none hcall⟩
  · rw [if_neg (by omega)] at hnext
    rw [hnext.2] at hcall
    exact ⟨⟨_, hholds, hnext.1⟩, call_of_some hcall⟩

/-- **A frame that is not expected** moves nothing once the first byte is complete. -/
theorem rxStep_foreign {r : Received} {ctx : SmartLinkRx} (h : Holds r ctx)
    (h2 : 2 ≤ r.nibs.length) {f : Frame} (hrej : ¬ rxAccepts ctx f.sendlen) :
    rxStep ctx f = (ctx, none) := by
  have hidx : ctx.u32Index ≠ 0 := fun h0 => by
    have := h.index_eq_zero_iff.mp h0
    omega
  rw [rxStep_reject hrej, if_neg (fun hc => hidx hc.2.1)]

theorem InStep.foreign {m : Message} {t : Nat} {ctx : SmartLinkRx} (h : InStep m t ctx)
    (h2 : 2 ≤ t) {f : Frame} (hrej : ¬ rxAccepts ctx f.sendlen) : rxStep ctx f = (ctx, none) := by
  obtain ⟨r, hr, hnibs, -⟩ := h
  have := m.one_le
  refine rxStep_foreign hr ?_ hrej
  rw [hnibs, List.length_take, m.length_air]
  omega

theorem Finished.foreign {m : Message} {ctx : SmartLinkRx} (h : Finished m ctx) {f : Frame}
    (hrej : ¬ rxAccepts ctx f.sendlen) : rxStep ctx f = (ctx, none) := by
  obtain ⟨r, hr, hnibs⟩ := h
  exact rxStep_foreign hr (by rw [hnibs]; simp) hrej

/-! ## Runs without foreign frames -/

theorem airFrames_eq (fs : List Frame) : airFrames fs = (fs.map (·.sendlen)).map airFrame := by
  rw [airFrames, List.map_map]; rfl

theorem map_airFrame_send (tx : SmartLinkTx) (m : Message) :
    (m.send tx).map airFrame = smartCode.encode m.air := by
  rw [m.send_eq, List.map_map]
  exact List.map_id'' airFrame_frameLength _

/-- Heard without loss, the end of a transmission says the frames of that end. -/
theorem airFrames_of_send {tx : SmartLinkTx} {m : Message} {fs : List Frame} {t : Nat}
    (h : fs.map (·.sendlen) = (m.send tx).drop t) :
    airFrames fs = (smartCode.encode m.air).drop t := by
  rw [airFrames_eq, h, List.map_drop, map_airFrame_send]

/-- Frames with the lengths in `ss`, all from the address `a`. -/
def framesFrom (a : Mac) (ss : List Int) : List Frame := ss.map fun s => ⟨s, a⟩

theorem map_sendlen_framesFrom (a : Mac) (ss : List Int) :
    (framesFrom a ss).map (·.sendlen) = ss := by
  rw [framesFrom, List.map_map]
  exact List.map_id _

theorem airFrames_framesFrom (a : Mac) (ss : List Int) :
    airFrames (framesFrom a ss) = ss.map airFrame := by
  rw [airFrames_eq, map_sendlen_framesFrom]

theorem framesFrom_append (a : Mac) (ss ts : List Int) :
    framesFrom a (ss ++ ts) = framesFrom a ss ++ framesFrom a ts := List.map_append

/-- In step, and fed the next frames of the message in order, the receiver stays in step. -/
theorem InStep.run {m : Message} {t : Nat} {ctx : SmartLinkRx} (h : InStep m t ctx)
    {fs : List Frame} (hfs : airFrames fs <+: (smartCode.encode m.air).drop t)
    (hlt : t + fs.length < 2 * (m.stop + 2)) :
    InStep m (t + fs.length) (Mealy.run rxStep ctx fs).1 ∧ (Mealy.run rxStep ctx fs).2 = [] := by
  induction fs generalizing t ctx with
  | nil => exact ⟨h, rfl⟩
  | cons f fs ih =>
      rw [List.length_cons] at hlt
      have hget : (smartCode.encode m.air)[t]? = some (airFrame f.sendlen) := by
        obtain ⟨ys, hys⟩ := hfs
        have := congrArg (·[0]?) hys
        simpa [airFrames] using this.symm
      have htail : airFrames fs <+: (smartCode.encode m.air).drop (t + 1) := by
        obtain ⟨ys, hys⟩ := hfs
        exact ⟨ys, by rw [← List.tail_drop, ← hys]; rfl⟩
      obtain ⟨hin, hnone⟩ := (h.own (by omega) hget).2.1 (by omega)
      obtain ⟨hrun, hcalls⟩ := ih hin htail (by omega)
      have hlen : t + (f :: fs).length = t + 1 + fs.length := by
        rw [List.length_cons]
        omega
      rw [Mealy.run_cons, hnone, hcalls, hlen]
      exact ⟨hrun, rfl⟩

/-- In step with a plain message, and fed the rest of it in order, the receiver delivers it once,
on the last frame. -/
theorem InStep.run_rest {m : Message} (hplain : m.Plain) {t : Nat} {ctx : SmartLinkRx}
    (h : InStep m t ctx) (ht : t < m.air.length) {fs : List Frame}
    (hfs : airFrames fs = (smartCode.encode m.air).drop t) :
    Finished m (Mealy.run rxStep ctx fs).1 ∧
      ∃ f c, fs.getLast? = some f ∧ (Mealy.run rxStep ctx fs).2 = [c] ∧ CallFor f m.bytes c := by
  have hstop := hplain.stop_eq
  have hlen : fs.length = m.air.length - t := by
    have := congrArg List.length hfs
    simpa [airFrames] using this
  have hair := m.length_air
  -- all frames but the last keep the receiver in step
  obtain ⟨gs, f, rfl⟩ := (List.eq_nil_or_concat' fs).resolve_left
    (by rintro rfl; simp at hlen; omega)
  have hgs : gs.length + 1 = m.air.length - t := by simpa using hlen
  have hpre : airFrames gs <+: (smartCode.encode m.air).drop t := by
    rw [← hfs, airFrames, airFrames, List.map_append]
    exact List.prefix_append _ _
  obtain ⟨hin, hnone⟩ := h.run hpre (by omega)
  have hget : (smartCode.encode m.air)[t + gs.length]? = some (airFrame f.sendlen) := by
    rw [← List.getElem?_drop, ← hfs, airFrames]
    simp
  obtain ⟨hfin, c, hc, hfor⟩ := (hin.own (by omega) hget).2.2 (by omega)
  rw [hstop, List.take_length] at hfor
  rw [Mealy.run_concat, hnone, hc]
  exact ⟨hfin, f, c, by simp, rfl, hfor⟩

end SmartConfig
