import SmartConfig.Lib.Await
import SmartConfig.Link.Tolerance

/-!
# When a lossy channel delivers

A plain message whose check code separates is never delivered wrong (`tolerates_iff_separates`).
`delivers_iff` says when it is delivered at all, whatever the channel has lost, repeated and
reordered: the receiver waits for the frames of the transmission in order, and all it forgets is the
first one. So transmitters that send it at the same time do not disturb each other
(`transmitters_deliver`).
-/

namespace SmartConfig

open Nibble Received

section Delivery

variable {tx : SmartLinkTx} {m : Message} {r : Received} {g : UInt8 × Nibble}

/-- A frame that does not send a receiver back that holds one nibble. -/
def keepsOpening (g : UInt8 × Nibble) : Bool := g.2.val == 0x7

/-- The frames of the transmission heard in order. -/
def framesHeard (m : Message) (gs : List (UInt8 × Nibble)) : Nat :=
  Await.heard keepsOpening (smartCode.encode m.air) 0 gs

/-- On a separating stream the frame that is accepted is the one that is due. -/
theorem Partial.accepts_iff_due (hsep : smartCode.Separates m.air) (h : Partial m r)
    (hg : g ∈ smartCode.encode m.air) :
    g.1 = smartCode.expected r.nibs ↔ (smartCode.encode m.air)[r.nibs.length]? = some g := by
  have htake := List.prefix_iff_eq_take.mp h.nibs
  rw [ChainCode.getElem?_encode, ← htake]
  constructor
  · intro hacc
    have hext := ChainCode.accept_prefix hsep h.nibs h.short hg hacc
    rw [(ChainCode.concat_prefix_iff.mp hext).2, ← hacc]
    rfl
  · intro hdue
    obtain ⟨x, -, rfl⟩ := Option.map_eq_some_iff.mp hdue
    rfl

/-- A frame of the stream moves the receiver as it moves the listener. -/
theorem Partial.length_step (hsep : smartCode.Separates m.air) (h : Partial m r)
    (hg : g ∈ smartCode.encode m.air) :
    (r.step g).1.nibs.length =
      Await.next keepsOpening (smartCode.encode m.air) r.nibs.length g := by
  rw [Await.next]
  by_cases hacc : g.1 = smartCode.expected r.nibs
  · rw [if_pos ((h.accepts_iff_due hsep hg).mp hacc), Received.length_step_accept hacc]
  · rw [if_neg (mt (h.accepts_iff_due hsep hg).mpr hacc), Received.step, if_neg hacc]
    have hkeep : keepsOpening g = false ↔ g.2.val ≠ 0x7 := beq_eq_false_iff_ne
    by_cases hback : r.nibs.length = 1 ∧ g.2.val ≠ 0x7
    · rw [if_pos hback, if_pos ⟨hback.1, hkeep.mpr hback.2⟩]
      rfl
    · rw [if_neg hback, if_neg fun h => hback ⟨h.1, hkeep.mp h.2⟩]

/-- A delivery completes the stream. -/
theorem Partial.length_of_delivers (hplain : m.Plain) (hsep : smartCode.Separates m.air)
    (h : Partial m r) (hg : g ∈ smartCode.encode m.air) {p : List UInt8}
    (hp : (r.step g).2 = some p) : r.nibs.length + 1 = (smartCode.encode m.air).length := by
  obtain ⟨hacc, hterm, -⟩ := Received.step_delivers hp
  have hext := ChainCode.accept_prefix hsep h.nibs h.short hg hacc
  have hair := m.length_air
  have hstop := hplain.stop_eq
  have hshort := h.short
  rw [List.prefix_iff_eq_take.mp hext, terminated_take_iff m (by simp; omega)] at hterm
  rw [ChainCode.length_encode]
  simpa [hstop, hair] using hterm

/-- The receiver has heard what the listener has heard, until it has delivered. -/
theorem framesHeard_inv (hplain : m.Plain) (hsep : smartCode.Separates m.air) (fs : List Frame)
    (hfs : ∀ f ∈ fs, f.sendlen ∈ m.send tx) :
    (rxCalls fs = [] → ∃ r, Holds r (rxAfter fs) ∧ Partial m r ∧
      r.nibs.length = framesHeard m (airFrames fs)) ∧
    (rxCalls fs ≠ [] → framesHeard m (airFrames fs) = (smartCode.encode m.air).length) := by
  induction fs using List.reverseRecOn with
  | nil =>
      refine ⟨fun _ => ⟨idle, holds_idle, ⟨List.nil_prefix, ?_, zero_merge _⟩, rfl⟩,
        fun h => absurd rfl h⟩
      rw [m.length_air]
      exact Nat.mul_pos (by decide) (Nat.succ_pos _)
  | append_singleton fs f ih =>
      obtain ⟨hbegun, hdone⟩ := ih fun g hg => hfs g (List.mem_append_left _ hg)
      have hframes : airFrames (fs ++ [f]) = airFrames fs ++ [airFrame f.sendlen] := by
        rw [airFrames, List.map_append]
        rfl
      have hg := airFrame_mem_encode (hfs f (by simp))
      rw [rxAfter_concat, rxCalls_concat, hframes, framesHeard, Await.heard_concat]
      -- before the first callback both move alike, and after it neither does
      by_cases hcalls : rxCalls fs = []
      · obtain ⟨r, hr, hpart, hlen⟩ := hbegun hcalls
        have hshort := hpart.short
        have h253 := m.le_253
        rw [m.length_air] at hshort
        obtain ⟨hholds, hcall⟩ := rxStep_refines hr (by omega) f
        obtain ⟨hkeep, -⟩ := hpart.step hplain hsep hg
        have hnext := hpart.length_step hsep hg
        rw [framesHeard] at hlen
        rw [hcalls, ← hlen, List.nil_append]
        obtain ⟨hd, hnone⟩ | ⟨p, c, hd, hc, -⟩ := call_cases hcall
        · rw [hnone]
          exact ⟨fun _ => ⟨_, hholds, hkeep hd, hnext⟩, fun h => absurd rfl h⟩
        · have hall := hpart.length_of_delivers hplain hsep hg hd
          rw [hc]
          refine ⟨fun h => absurd h (List.cons_ne_nil _ _), fun _ => ?_⟩
          rw [← hnext, ← hall]
          exact Received.length_step_accept (Received.step_delivers hd).1
      · have hall := hdone hcalls
        have hair := m.length_air
        rw [framesHeard] at hall
        refine ⟨fun h => absurd (List.append_eq_nil_iff.mp h).1 hcalls, fun _ => ?_⟩
        rw [hall, Await.next, if_neg (by simp), if_neg]
        rw [ChainCode.length_encode]
        omega

/-- The transmission, taken apart. -/
theorem encode_air_eq (m : Message) : ∃ a b rest, smartCode.encode m.air = a :: b :: rest ∧
    keepsOpening a = true := by
  have hlen : (smartCode.encode m.air).length = 2 * (m.bytes.length + 2) := by
    rw [ChainCode.length_encode, m.length_air]
  obtain ⟨a, b, rest, heq⟩ : ∃ a b rest, smartCode.encode m.air = a :: b :: rest := by
    match h : smartCode.encode m.air with
    | [] => rw [h, List.length_nil] at hlen; omega
    | [_] => rw [h, List.length_singleton] at hlen; omega
    | a :: b :: rest => exact ⟨a, b, rest, rfl⟩
  refine ⟨a, b, rest, heq, ?_⟩
  have hfirst : (smartCode.encode m.air)[0]? = some a := by rw [heq]; rfl
  rw [ChainCode.getElem?_encode, m.air_zero] at hfirst
  rw [← Option.some.inj hfirst]
  rfl

theorem delivers_iff_found (hplain : m.Plain) (hsep : smartCode.Separates m.air) (fs : List Frame)
    (hfs : ∀ f ∈ fs, f.sendlen ∈ m.send tx) :
    rxCalls fs ≠ [] ↔ framesHeard m (airFrames fs) = (smartCode.encode m.air).length := by
  obtain ⟨hbegun, hdone⟩ := framesHeard_inv hplain hsep fs hfs
  refine ⟨hdone, fun hall hcalls => ?_⟩
  obtain ⟨r, -, hpart, hlen⟩ := hbegun hcalls
  have hshort := hpart.short
  rw [hlen, hall, ChainCode.length_encode] at hshort
  exact Nat.lt_irrefl _ hshort

/-- A length of the transmission is the one its frame is sent with. -/
theorem frameLength_airFrame_of_mem {s : Int} (hs : s ∈ m.send tx) :
    frameLength (airFrame s) = s := by
  rw [m.send_eq] at hs
  obtain ⟨f, -, rfl⟩ := List.mem_map.mp hs
  rw [airFrame_frameLength]

/-- **Exactly when a lossy channel delivers.** Of a transmission whose check code separates, any
frames may be lost, repeated and reordered: the receiver delivers if and only if the first frame is
heard, the second one after it with no frame between them whose nibble is not 7, and the others
after that, in order, with anything of the transmission between them. -/
theorem delivers_iff (tx : SmartLinkTx) (m : Message) (hplain : m.Plain)
    (hsep : ∀ s ∈ m.send tx, ∀ s' ∈ m.send tx, rxFlag s = rxFlag s' → rxData s = rxData s')
    (fs : List Frame) (hfs : ∀ f ∈ fs, f.sendlen ∈ m.send tx) :
    rxCalls fs ≠ [] ↔ ∃ s₀ s₁ rest u w v, m.send tx = s₀ :: s₁ :: rest ∧
      fs.map (·.sendlen) = u ++ s₀ :: w ++ s₁ :: v ∧ (∀ s ∈ w, rxData s = 0x7) ∧
      rest.Sublist v := by
  obtain ⟨a, b, rest, hword, ha⟩ := encode_air_eq m
  rw [delivers_iff_found hplain (separates_iff.mp hsep) fs hfs, framesHeard, hword,
    Await.await_iff ha]
  have hsend : m.send tx = frameLength a :: frameLength b :: rest.map frameLength := by
    rw [m.send_eq, hword]
    rfl
  have hlengths : (airFrames fs).map frameLength = fs.map (·.sendlen) := by
    rw [airFrames, List.map_map]
    exact List.map_congr_left fun f hf => frameLength_airFrame_of_mem (hfs f hf)
  -- lengths and frames of the transmission are the same thing, either way
  constructor
  · rintro ⟨u, w, v, heq, hw, hv⟩
    refine ⟨_, _, _, u.map frameLength, w.map frameLength, v.map frameLength, hsend, ?_, ?_,
      hv.map frameLength⟩
    · rw [← hlengths, heq, List.map_append, List.map_append]
      rfl
    · intro s hs
      obtain ⟨g, hg, rfl⟩ := List.mem_map.mp hs
      have hdata := congrArg (fun f : UInt8 × Nibble => f.2.val) (airFrame_frameLength g)
      exact hdata.trans (beq_iff_eq.mp (hw g hg))
  · rintro ⟨s₀, s₁, ss, u, w, v, hsend', heq, hw, hv⟩
    rw [hsend] at hsend'
    obtain ⟨rfl, htail⟩ := List.cons.inj hsend'
    obtain ⟨rfl, rfl⟩ := List.cons.inj htail
    refine ⟨u.map airFrame, w.map airFrame, v.map airFrame, ?_, ?_, ?_⟩
    · rw [airFrames_eq, heq, List.map_append, List.map_append, List.map_cons, List.map_cons,
        airFrame_frameLength, airFrame_frameLength]
    · intro g hg
      obtain ⟨s, hs, rfl⟩ := List.mem_map.mp hg
      exact beq_iff_eq.mpr (hw s hs)
    · have hrest : (rest.map frameLength).map airFrame = rest := by
        rw [List.map_map]
        exact List.map_id'' airFrame_frameLength _
      exact hrest ▸ hv.map airFrame

/-- `A`, out of order and with repetitions. -/
theorem delivers_letterA :
    rxCalls (framesFrom macZero [111, 31, 31, 135, 71, 236, 31, 137, 111, 71]) ≠ [] := by
  have hsend : Message.letterA.send ⟨0⟩ = [31, 135, 236, 137, 111, 71] := by
    rw [Message.letterA.send_eq]
    decide +kernel
  refine (delivers_iff ⟨0⟩ Message.letterA (by decide) ?_ _ ?_).mpr
    ⟨31, 135, [236, 137, 111, 71], [111], [31], [71, 236, 31, 137, 111, 71], hsend, rfl, ?_, ?_⟩
  · rw [hsend]
    decide
  · rw [hsend]
    decide
  · decide
  · decide

/-! ## Several transmitters -/

/-- The lengths of one transmitter, in what is heard of all. -/
def lengthsOf {κ : Type*} [DecidableEq κ] (k : κ) (fs : List (κ × Frame)) : List Int :=
  (Await.saidBy k fs).map (·.sendlen)

/-- **Transmitters of one message do not disturb each other**, if its check code separates: heard
in any interleaving, each of them in order and one of them to its end, they deliver it. -/
theorem transmitters_deliver {κ : Type*} [DecidableEq κ] (tx : κ → SmartLinkTx) (m : Message)
    (hplain : m.Plain) (k₀ : κ)
    (hsep : ∀ s ∈ m.send (tx k₀), ∀ s' ∈ m.send (tx k₀), rxFlag s = rxFlag s' →
      rxData s = rxData s')
    (fs : List (κ × Frame)) (hall : ∀ k, lengthsOf k fs <+: m.send (tx k))
    (hwhole : lengthsOf k₀ fs = m.send (tx k₀)) :
    ∃ c cs, rxCalls (fs.map Prod.snd) = c :: cs ∧ c.Delivers m.bytes := by
  have hsame : ∀ k, m.send (tx k) = m.send (tx k₀) := fun k => by rw [m.send_eq, m.send_eq]
  have hfs : ∀ f ∈ fs.map Prod.snd, f.sendlen ∈ m.send (tx k₀) := by
    intro f hf
    obtain ⟨x, hx, rfl⟩ := List.mem_map.mp hf
    rw [← hsame x.1]
    exact (hall x.1).subset (List.mem_map_of_mem (Await.mem_saidBy hx))
  have hsep' := separates_iff.mp hsep
  obtain ⟨a, b, rest, hword, ha⟩ := encode_air_eq m
  -- what they say, as frames of the stream
  have hsaid : ∀ k, Await.saidBy k (fs.map fun x => (x.1, airFrame x.2.sendlen)) =
      (lengthsOf k fs).map airFrame := by
    intro k
    rw [Await.saidBy_map fun f : Frame => airFrame f.sendlen, lengthsOf, List.map_map]
    rfl
  have hframes : (fs.map fun x => (x.1, airFrame x.2.sendlen)).map Prod.snd =
      airFrames (fs.map Prod.snd) := by
    rw [airFrames, List.map_map, List.map_map]
    rfl
  have hfound : Await.Found keepsOpening a b rest (airFrames (fs.map Prod.snd)) := by
    rw [← hframes]
    refine Await.found_of_speakers ha (fun k => ?_) k₀ ?_
    · rw [hsaid, ← hword, ← map_airFrame_send (tx k)]
      exact (hall k).map airFrame
    · rw [hsaid, ← hword, hwhole, map_airFrame_send]
  have hcalls : rxCalls (fs.map Prod.snd) ≠ [] := by
    rw [delivers_iff_found hplain hsep' _ hfs, framesHeard, hword]
    exact (Await.await_iff ha _).mpr hfound
  obtain ⟨c, cs, hcs⟩ := List.exists_cons_of_ne_nil hcalls
  exact ⟨c, cs, hcs, (reordered_inv hplain hsep' _ hfs).2 c cs hcs⟩

/-- Two transmitters of `A`, the second of them half-way. -/
def twoTransmitters : List (Bool × Frame) :=
  [(false, 31), (true, 31), (true, 135), (false, 135), (true, 236), (false, 236), (false, 137),
    (false, 111), (false, 71)].map fun x => (x.1, ⟨x.2, macZero⟩)

theorem transmitters_deliver_two :
    ∃ c cs, rxCalls (twoTransmitters.map Prod.snd) = c :: cs ∧
      c.Delivers Message.letterA.bytes := by
  have hsend : Message.letterA.send ⟨0⟩ = [31, 135, 236, 137, 111, 71] := by
    rw [Message.letterA.send_eq]
    decide +kernel
  refine transmitters_deliver (fun _ => ⟨0⟩) Message.letterA (by decide) false ?_ twoTransmitters
    ?_ ?_
  · rw [hsend]
    decide
  · rw [hsend]
    decide
  · rw [hsend]
    decide

end Delivery

end SmartConfig
