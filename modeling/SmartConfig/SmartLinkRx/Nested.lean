import SmartConfig.SmartLinkRx.Bounds

/-!
# The callbacks of one receiver

A delivery does not empty the buffer, and the next one hands it over from the same place on. So
every callback hands over the whole of what the earlier ones have, NUL included, and more behind it:
`calls_nested`. As a C string they all say the same.

The deliveries are compared on the nibbles first (`deliveries_nested`), then on the contexts that
stand for them.
-/

namespace SmartConfig

open Nibble Received

/-! ## On the nibbles -/

namespace Received

variable {r : Received} {f : UInt8 × Nibble} {base : List Nibble}

/-- The bytes behind the first one. -/
def tailCells (xs : List Nibble) : List UInt8 :=
  (List.range (xs.length / 2 - 1)).map fun i => cell xs (i + 1)

/-- The nibbles begin with `base`, which a restart cannot reach. -/
structure Keeps (base : List Nibble) (r : Received) : Prop where
  starts : base <+: r.nibs
  long : 6 ≤ base.length
  even : base.length % 2 = 0

theorem Keeps.step (h : Keeps base r) : Keeps base (r.step f).1 := by
  obtain ⟨hbase, hlong, heven⟩ := h
  have hle := hbase.length_le
  refine ⟨?_, hlong, heven⟩
  have hne : r.nibs ≠ [] := by
    rintro h0
    rw [h0, List.length_nil] at hle
    omega
  unfold Received.step Received.accept
  split_ifs with hacc hterm hback
  · -- the delivery replaces a nibble behind the base, and not the last of the base
    obtain ⟨ys, hys, -, hyseven, -⟩ := hterm.eq_concat
    show base <+: r.nibs.dropLast ++ [0, 0]
    rw [hys, List.dropLast_concat]
    rw [hys] at hbase hle
    have hshort : base.length ≤ ys.length := by
      rw [List.length_append, List.length_singleton] at hle
      omega
    exact (List.prefix_of_prefix_length_le hbase (List.prefix_append ys _) hshort).trans
      (List.prefix_append ys _)
  · exact hbase.trans (List.prefix_append _ _)
  · omega
  · exact hbase

/-- A cell of the base is a cell of everything that begins with it. -/
theorem cell_of_beginning {xs : List Nibble} (h : base <+: xs) {i : Nat}
    (hi : 2 * i + 1 < base.length) : cell xs i = cell base i := by
  obtain ⟨ys, rfl⟩ := h
  have hlt : 2 * i < base.length := by omega
  simp [cell, List.getElem?_append_left, hi, hlt]

/-- What is delivered behind the base begins with its bytes. -/
theorem Keeps.delivers (h : Keeps base r) {q : List UInt8} (hq : (r.step f).2 = some q) :
    tailCells base <+: q := by
  obtain ⟨-, hterm, rfl⟩ := Received.step_delivers hq
  obtain ⟨hbase, hlong, heven⟩ := h
  have hle := hbase.length_le
  have htotal := hterm.1
  rw [List.length_append, List.length_singleton] at htotal
  have hbase' : base <+: r.nibs ++ [f.2] := hbase.trans (List.prefix_append _ _)
  rw [List.prefix_iff_eq_take, payload, tailCells, List.length_map, List.length_range,
    ← List.map_take, List.take_range, List.length_append, List.length_singleton,
    Nat.min_eq_left (by omega)]
  refine List.map_congr_left fun i hi => (cell_of_beginning hbase' ?_).symm
  have := List.mem_range.mp hi
  omega

/-- A delivery leaves the bytes delivered behind, and the zero byte of the terminator. -/
theorem keeps_of_delivers {p : List UInt8} (hp : (r.step f).2 = some p) :
    ∃ base, Keeps base (r.step f).1 ∧ tailCells base = p ++ [0] := by
  obtain ⟨hacc, hterm, rfl⟩ := Received.step_delivers hp
  obtain ⟨ys, hys, -, heven, h4⟩ := hterm.eq_concat
  have hne : r.nibs ≠ [] := by simp [hys]
  have hnibs : (r.step f).1.nibs = ys ++ [0, 0] := by
    rw [Received.step, if_pos hacc, Received.accept, if_neg hne, if_pos hterm]
    show r.nibs.dropLast ++ [0, 0] = ys ++ [0, 0]
    rw [hys, List.dropLast_concat]
  refine ⟨ys ++ [0, 0], ⟨hnibs ▸ List.prefix_refl _, ?_, ?_⟩, ?_⟩
  · simp only [List.length_append, List.length_cons, List.length_nil]
    omega
  · simp only [List.length_append, List.length_cons, List.length_nil]
    omega
  · -- the cells are those of the delivery, but for the last, which is zero now
    have hodd : r.nibs.length % 2 = 1 := by
      rw [hys, List.length_append, List.length_singleton]
      omega
    have hlen : r.nibs.length / 2 = ys.length / 2 := by
      rw [hys, List.length_append, List.length_singleton]
      omega
    have hcell : ∀ i, cell (ys ++ [0, 0]) i =
        if r.nibs.length / 2 = i then 0 else cell (r.nibs ++ [f.2]) i := by
      intro i
      rw [← cell_dropLast_append_zeros hodd, hys, List.dropLast_concat]
    have hcount : (ys ++ [0, 0]).length / 2 - 1 = (r.nibs ++ [f.2]).length / 2 - 2 + 1 := by
      simp only [hys, List.length_append, List.length_cons, List.length_nil]
      omega
    have htotal : (r.nibs ++ [f.2]).length / 2 - 2 + 1 = r.nibs.length / 2 := by
      simp only [hys, List.length_append, List.length_cons, List.length_nil]
      omega
    rw [tailCells, hcount, List.range_succ, List.map_append, List.map_singleton, hcell,
      if_pos htotal.symm, payload]
    congr 1
    refine List.map_congr_left fun i hi => ?_
    have := List.mem_range.mp hi
    rw [hcell, if_neg (by omega)]

/-- What is delivered after something has been delivered begins with it. -/
theorem Keeps.deliveries (h : Keeps base r) (gs : List (UInt8 × Nibble)) :
    ∀ q ∈ (Mealy.run Received.step r gs).2, tailCells base <+: q := by
  induction gs generalizing r with
  | nil => exact fun q hq => absurd hq List.not_mem_nil
  | cons g gs ih =>
      intro q hq
      rw [Mealy.run_cons] at hq
      rcases List.mem_append.mp hq with hq | hq
      · exact h.delivers (Option.mem_toList.mp hq)
      · exact ih h.step q hq

/-- Of two deliveries, the later one begins with the earlier one and a zero byte. -/
theorem deliveries_nested (r : Received) (gs : List (UInt8 × Nibble)) :
    (Mealy.run Received.step r gs).2.Pairwise fun p q => p ++ [0] <+: q := by
  induction gs generalizing r with
  | nil => exact .nil
  | cons g gs ih =>
      rw [Mealy.run_cons]
      refine List.pairwise_append.mpr ⟨?_, ih _, fun p hp q hq => ?_⟩
      · cases (r.step g).2 with
        | none => exact .nil
        | some p => exact List.pairwise_singleton _ p
      · obtain ⟨base, hkeeps, hbase⟩ := keeps_of_delivers (Option.mem_toList.mp hp)
        exact hbase ▸ hkeeps.deliveries gs q hq

end Received

/-! ## On the contexts -/

/-- The C string that a callback hands over. -/
def RxCall.string (c : RxCall) : List UInt8 := c.buf.takeWhile (· ≠ 0x00)

/-- The second callback hands over what the first one has, and more. -/
structure RxCall.Extends (c c' : RxCall) : Prop where
  len : c.len < c'.len
  buf : c'.buf.take (c.len - 1) = c.buf.take (c.len - 1)
  string : c'.string = c.string

/-- A callback for `m`, as far as it does not depend on the frame. -/
def HandsOver (m : List UInt8) (c : RxCall) : Prop := c.len = m.length + 2 ∧ c.Delivers m

theorem takeWhile_append_zero (m rest : List UInt8) :
    (m ++ 0x00 :: rest).takeWhile (· ≠ 0x00) = m.takeWhile (· ≠ 0x00) := by
  induction m with
  | nil => rfl
  | cons b m ih =>
      rw [List.cons_append, List.takeWhile_cons, List.takeWhile_cons, ih]

/-- The C string ends within what is delivered. -/
theorem HandsOver.string_eq {m : List UInt8} {c : RxCall} (h : HandsOver m c) :
    c.string = m.takeWhile (· ≠ 0x00) := by
  have hbuf : c.buf = m ++ 0x00 :: c.buf.drop (m.length + 1) := by
    calc c.buf = c.buf.take (m.length + 1) ++ c.buf.drop (m.length + 1) :=
          (List.take_append_drop _ _).symm
      _ = m ++ 0x00 :: c.buf.drop (m.length + 1) := by
          rw [h.2, List.append_assoc]
          rfl
  rw [RxCall.string, hbuf, takeWhile_append_zero]

theorem HandsOver.extends {p q : List UInt8} {c c' : RxCall} (hp : HandsOver p c)
    (hq : HandsOver q c') (h : p ++ [0x00] <+: q) : c.Extends c' := by
  have hle : p.length + 1 ≤ q.length := by
    have := h.length_le
    rwa [List.length_append, List.length_singleton] at this
  have hcount : c.len - 1 = p.length + 1 := by
    rw [hp.1]
    rfl
  refine ⟨?_, ?_, ?_⟩
  · rw [hp.1, hq.1]
    exact Nat.add_lt_add_right hle 2
  · have htake : c'.buf.take (p.length + 1) = (c'.buf.take (q.length + 1)).take (p.length + 1) := by
      rw [List.take_take, Nat.min_eq_left (by omega)]
    have hpre := List.prefix_iff_eq_take.mp h
    rw [List.length_append, List.length_singleton] at hpre
    rw [hcount, hp.2, htake, hq.2, List.take_append_of_le_length hle, ← hpre]
  · obtain ⟨rest, rfl⟩ := h
    rw [hp.string_eq, hq.string_eq, List.append_assoc]
    exact takeWhile_append_zero p rest

/-! ## Every run -/

/-- The nibbles that a captured frame leaves. -/
theorem length_step_captured {r : Received} (hlen : r.nibs.length ≤ 96) {sendlen : Int}
    (hpos : 0 < sendlen) (hle : sendlen ≤ 1423) :
    (r.step (airFrame sendlen)).1.nibs.length ≤ 96 := by
  by_cases hacc : (airFrame sendlen).1 = smartCode.expected r.nibs
  · have hlt := (accepted_captured hlen hpos hle hacc).1
    rw [Received.length_step_accept hacc]
    exact hlt
  · have := Received.length_step_reject hacc
    omega

/-- A captured frame, and what it says. -/
def Says (g : UInt8 × Nibble) (f : Frame) : Prop :=
  g = airFrame f.sendlen ∧ 0 < f.sendlen ∧ f.sendlen ≤ 1423

theorem says_airFrames {fs : List Frame} (h : ∀ f ∈ fs, 0 < f.sendlen ∧ f.sendlen ≤ 1423) :
    List.Forall₂ Says (airFrames fs) fs := by
  induction fs with
  | nil => exact .nil
  | cons f fs ih =>
      obtain ⟨hf, hfs⟩ := List.forall_mem_cons.mp h
      exact .cons ⟨rfl, hf⟩ (ih hfs)

/-- What captured frames can deliver. -/
theorem length_delivered_captured {r : Received} (hlen : r.nibs.length ≤ 96) {sendlen : Int}
    (hpos : 0 < sendlen) (hle : sendlen ≤ 1423) {m : List UInt8}
    (hm : (r.step (airFrame sendlen)).2 = some m) : 1 ≤ m.length ∧ m.length ≤ 42 := by
  obtain ⟨hacc, hterm, rfl⟩ := Received.step_delivers hm
  obtain ⟨h96, -, h87⟩ := accepted_captured hlen hpos hle hacc
  have h88 := terminated_captured h96 h87 hterm
  have h6 := hterm.2.1
  rw [length_payload]
  rw [List.length_append, List.length_singleton] at h6 ⊢
  omega

/-- The callbacks on captured frames are for the deliveries on their nibbles. -/
theorem rxCalls_handsOver {fs : List Frame} (h : ∀ f ∈ fs, 0 < f.sendlen ∧ f.sendlen ≤ 1423) :
    List.Forall₂ (fun m c => HandsOver m c ∧ 1 ≤ m.length ∧ m.length ≤ 42)
      (Mealy.run Received.step idle (airFrames fs)).2 (rxCalls fs) := by
  refine (Mealy.run_rel (R := fun r ctx => Holds r ctx ∧ r.nibs.length ≤ 96) (I := Says)
    ?_ (says_airFrames h) ⟨holds_idle, Nat.zero_le _⟩).2
  rintro r ctx g f ⟨hr, hlen⟩ ⟨rfl, hpos, hle⟩
  obtain ⟨hholds, hcall⟩ := rxStep_refines hr (by omega) f
  refine ⟨⟨hholds, length_step_captured hlen hpos hle⟩, ?_⟩
  obtain ⟨hd, hc⟩ | ⟨m, c, hd, hc, hfor⟩ := call_cases hcall
  · rw [hd, hc]
    exact .none
  · rw [hd, hc]
    exact .some ⟨⟨hfor.len, hfor.delivers⟩, length_delivered_captured hlen hpos hle hd⟩

theorem exists_of_forall₂ {α β : Type} {R : α → β → Prop} {as : List α} {bs : List β}
    (h : List.Forall₂ R as bs) : ∀ b ∈ bs, ∃ a ∈ as, R a b := by
  induction h with
  | nil => exact fun b hb => absurd hb List.not_mem_nil
  | cons hab _ ih =>
      refine List.forall_mem_cons.mpr ⟨⟨_, List.mem_cons_self, hab⟩, fun b hb => ?_⟩
      obtain ⟨a, ha, hR⟩ := ih b hb
      exact ⟨a, List.mem_cons_of_mem _ ha, hR⟩

/-- What holds of any two deliveries in order holds of their callbacks. -/
theorem pairwise_of_handsOver {ms : List (List UInt8)} {cs : List RxCall}
    (h : List.Forall₂ HandsOver ms cs) (hms : ms.Pairwise fun p q => p ++ [0x00] <+: q) :
    cs.Pairwise RxCall.Extends := by
  induction h with
  | nil => exact .nil
  | cons hm hrest ih =>
      obtain ⟨hall, htail⟩ := List.pairwise_cons.mp hms
      refine List.pairwise_cons.mpr ⟨fun c' hc' => ?_, ih htail⟩
      obtain ⟨q, hq, hqc⟩ := exists_of_forall₂ hrest c' hc'
      exact hm.extends hqc (hall q hq)

/-- Increasing numbers from `lo` on and below `hi` are no more than these. -/
theorem length_le_of_increasing {ns : List Nat} {lo hi : Nat} (h : ns.Pairwise (· < ·))
    (hns : ∀ n ∈ ns, lo ≤ n ∧ n < hi) : ns.length ≤ hi - lo := by
  induction ns generalizing lo with
  | nil => exact Nat.zero_le _
  | cons n ns ih =>
      obtain ⟨hall, htail⟩ := List.pairwise_cons.mp h
      obtain ⟨hn, hrest⟩ := List.forall_mem_cons.mp hns
      have hlen : ns.length ≤ hi - (n + 1) := ih htail fun k hk => ⟨hall k hk, (hrest k hk).2⟩
      rw [List.length_cons]
      omega

/-- The callbacks on captured packets are for the deliveries on their nibbles. -/
theorem processCalls_handsOver (rs : List (Option (List UInt8))) :
    List.Forall₂ (fun m c => HandsOver m c ∧ 1 ≤ m.length ∧ m.length ≤ 42)
      (Mealy.run Received.step idle (airFrames (rs.filterMap capturedFrame))).2
      (processCalls rs) := by
  rw [(process_eq rs).2]
  refine rxCalls_handsOver fun f hf => ?_
  obtain ⟨received, -, hcap⟩ := List.mem_filterMap.mp hf
  exact capturedFrame_bounds hcap

theorem processCalls_extends (rs : List (Option (List UInt8))) :
    (processCalls rs).Pairwise RxCall.Extends :=
  pairwise_of_handsOver ((processCalls_handsOver rs).imp fun _ _ h => h.1) (deliveries_nested _ _)

/-- **All that one receiver ever calls back**: every callback hands over what the ones before it
have, NUL included, and more behind it, so that the C string is always the same; and there are at
most forty-two of them, however long the receiver runs. -/
theorem calls_nested (rs : List (Option (List UInt8))) :
    (processCalls rs).Pairwise RxCall.Extends ∧ (processCalls rs).length ≤ 42 := by
  have hpairwise := processCalls_extends rs
  have hlens : ((processCalls rs).map (·.len)).Pairwise (· < ·) :=
    List.pairwise_map.mpr (hpairwise.imp fun h => h.len)
  refine ⟨hpairwise, ?_⟩
  rw [← List.length_map (·.len)]
  refine (length_le_of_increasing hlens fun n hn => ?_ : _ ≤ 45 - 3)
  obtain ⟨c, hc, rfl⟩ := List.mem_map.mp hn
  obtain ⟨m, -, ⟨hlen, -⟩, hbounds⟩ := exists_of_forall₂ (processCalls_handsOver rs) c hc
  omega

end SmartConfig
