import SmartConfig.SmartLinkTx.Frames

/-!
# The sender against its comment and against its packet

* The comment above `smartlinkTxSend` gives the two lengths of every byte of the frame
  (`commentSendlen0`, `commentSendlen1`). `sends_whole_frame_iff`: the whole frame is sent exactly
  when `size + 2` still fits the `uint8_t` that counts the bytes.
* `_smartlinkTxSendto` sends each length out of an array of `PACKET_MAX` bytes.
  `lengths_within_packet_iff`: exactly which messages stay inside it.
-/

namespace SmartConfig

open Nibble

/-! ## The lengths the comment specifies -/

/-- `((L(n-1) ^ seq++) << 4) | H(n)`, plus 24, at byte `k` of the frame `b`. -/
def commentSendlen0 (b : List UInt8) (k : Nat) : Nat :=
  24 + 16 * ((if k = 0 then 0 else (b.getD (k - 1) 0).toNat % 16) ^^^ (2 * k % 256))
    + (b.getD k 0).toNat / 16

/-- `((H(n) ^ seq++) << 4) | L(n)`, plus 24, at byte `k` of the frame `b`. -/
def commentSendlen1 (b : List UInt8) (k : Nat) : Nat :=
  24 + 16 * ((b.getD k 0).toNat / 16 ^^^ ((2 * k + 1) % 256)) + (b.getD k 0).toNat % 16

/-- The lengths are the ones of the comment, two for each of the `size + 2` bytes of the frame. -/
structure SendsWholeFrame (sent : List Int) (input : List UInt8) : Prop where
  count : sent.length = 2 * (input.length + 2)
  pair : ∀ k < input.length + 2,
    sent[2 * k]? = some (commentSendlen0 (framed input) k : Int) ∧
    sent[2 * k + 1]? = some (commentSendlen1 (framed input) k : Int)

/-! ## The lengths the code sends -/

/-- A length is its check value times 16, its nibble, and the 24 bytes of header. -/
theorem txSendlen_eq (check : UInt8) (x : Nibble) :
    txSendlen check x.val = ((24 + 16 * check.toNat + x.val.toNat : Nat) : Int) := by
  have hx : x.val.toNat < 2 ^ 4 := UInt8.lt_iff_toNat_lt.mp x.property
  rw [txSendlen, ← Nat.shiftLeft_add_eq_or_of_lt hx, Nat.shiftLeft_eq]
  push_cast
  omega

theorem commentSendlen0_eq (b : List UInt8) (k : Nat) (hk : k < b.length) :
    frameLength (smartCode.expected (nibbles (b.take k)), hi (b.getD k 0)) =
      commentSendlen0 b k := by
  have hlen : (b.take k).length = k := by simp; omega
  have hlast : ((b.take k).getD (k - 1) 0 &&& 0xF).toNat =
      if k = 0 then 0 else (b.getD (k - 1) 0).toNat % 16 := by
    split
    · next hz => simp [hz]
    · next hnz =>
      rw [toNat_lo, List.getD_eq_getElem?_getD, List.getElem?_take_of_lt (by omega)]
      simp
  rw [frameLength, txSendlen_eq, expected_nibbles, hlen, UInt8.toNat_xor, hlast, hi_val, toNat_hi,
    UInt8.toNat_ofNat', commentSendlen0]

theorem commentSendlen1_eq (b : List UInt8) (k : Nat) (hk : k < b.length) :
    frameLength (smartCode.expected (nibbles (b.take k) ++ [hi (b.getD k 0)]), lo (b.getD k 0)) =
      commentSendlen1 b k := by
  have hlen : (b.take k).length = k := by simp; omega
  rw [frameLength, txSendlen_eq, expected_nibbles_hi, hlen, UInt8.toNat_xor, toNat_hi, lo_val,
    toNat_lo, UInt8.toNat_ofNat', commentSendlen1]

/-- The frames of the byte stream `b`, by byte position. -/
theorem getElem?_encode_even (b : List UInt8) (k : Nat) (hk : k < b.length) :
    ((smartCode.encode (nibbles b)).map frameLength)[2 * k]? =
      some (commentSendlen0 b k : Int) := by
  rw [List.getElem?_map, ChainCode.getElem?_encode, getElem?_nibbles_even_of_lt hk, nibbles_take]
  simp only [Option.map_some, commentSendlen0_eq b k hk]

theorem getElem?_encode_odd (b : List UInt8) (k : Nat) (hk : k < b.length) :
    ((smartCode.encode (nibbles b)).map frameLength)[2 * k + 1]? =
      some (commentSendlen1 b k : Int) := by
  rw [List.getElem?_map, ChainCode.getElem?_encode, getElem?_nibbles_odd_of_lt hk,
    List.take_add_one, getElem?_nibbles_even_of_lt hk, nibbles_take]
  simp only [Option.map_some, Option.toList_some, commentSendlen1_eq b k hk]

/-! ## The whole frame -/

theorem length_smartlinkTxSend (tx : SmartLinkTx) {input : List UInt8} {size : UInt8}
    (hsize : input.length = size.toNat) :
    (smartlinkTxSend tx input size).1.length = 2 * (size + 2).toNat := by
  rw [smartlinkTxSend_eq tx hsize, List.length_map, ChainCode.length_encode, length_nibbles,
    length_take_txBuffer hsize]

/-- **The whole framed message is sent exactly for the sizes up to 253.** -/
theorem sends_whole_frame_iff (tx : SmartLinkTx) (input : List UInt8) (size : UInt8)
    (hsize : input.length = size.toNat) :
    SendsWholeFrame (smartlinkTxSend tx input size).1 input ↔ size.toNat ≤ 253 := by
  constructor
  · -- past 253 the counter wraps, and the number of lengths is wrong already
    intro h
    have hcount := h.count
    rw [length_smartlinkTxSend tx hsize, hsize, UInt8.toNat_add] at hcount
    have := size.toNat_lt
    simp at hcount
    omega
  · intro hle
    have hlen := length_framed input
    rw [smartlinkTxSend_eq_of_le tx hsize hle]
    refine ⟨by simp, fun k hk => ?_⟩
    exact ⟨getElem?_encode_even _ k (by omega), getElem?_encode_odd _ k (by omega)⟩

theorem sends_whole_frame_iff_one :
    SendsWholeFrame (smartlinkTxSend ⟨0⟩ [0x41] 1).1 [0x41] ↔ (1 : UInt8).toNat ≤ 253 :=
  sends_whole_frame_iff ⟨0⟩ [0x41] 1 rfl

/-- At 254 bytes the counter is zero and nothing is sent. -/
theorem not_sends_whole_frame_254 :
    ¬ SendsWholeFrame (smartlinkTxSend ⟨0⟩ (List.replicate 254 0x41) 254).1
        (List.replicate 254 0x41) := by
  intro h
  have hcount := h.count
  have hsize : (List.replicate 254 (0x41 : UInt8)).length = (254 : UInt8).toNat :=
    List.length_replicate
  rw [length_smartlinkTxSend ⟨0⟩ hsize, List.length_replicate] at hcount
  exact absurd hcount (by decide)

/-! ## The packet -/

theorem commentSendlen0_take {b : List UInt8} {k n : Nat} (hk : k < n) :
    commentSendlen0 (b.take n) k = commentSendlen0 b k := by
  simp [commentSendlen0, hk, Nat.lt_of_le_of_lt (Nat.sub_le k 1) hk]

theorem commentSendlen1_take {b : List UInt8} {k n : Nat} (hk : k < n) :
    commentSendlen1 (b.take n) k = commentSendlen1 b k := by
  simp [commentSendlen1, hk]

/-- The lengths sent are the two of each byte that the wrapped `length` covers. -/
theorem mem_smartlinkTxSend_iff (tx : SmartLinkTx) {input : List UInt8} {size : UInt8}
    (hsize : input.length = size.toNat) {s : Int} :
    s ∈ (smartlinkTxSend tx input size).1 ↔
      ∃ k < (size + 2).toNat, s = commentSendlen0 (txBuffer input size) k ∨
        s = commentSendlen1 (txBuffer input size) k := by
  have hlen := length_smartlinkTxSend tx hsize
  have hcut := length_take_txBuffer hsize
  have heven : ∀ k < (size + 2).toNat, (smartlinkTxSend tx input size).1[2 * k]? =
      some (commentSendlen0 (txBuffer input size) k : Int) := by
    intro k hk
    rw [smartlinkTxSend_eq tx hsize, getElem?_encode_even _ k (by omega), commentSendlen0_take hk]
  have hodd : ∀ k < (size + 2).toNat, (smartlinkTxSend tx input size).1[2 * k + 1]? =
      some (commentSendlen1 (txBuffer input size) k : Int) := by
    intro k hk
    rw [smartlinkTxSend_eq tx hsize, getElem?_encode_odd _ k (by omega), commentSendlen1_take hk]
  rw [List.mem_iff_getElem?]
  constructor
  · rintro ⟨t, ht⟩
    have hlt : t < 2 * (size + 2).toNat := by
      rw [← hlen]; exact (List.getElem?_eq_some_iff.mp ht).1
    refine ⟨t / 2, by omega, ?_⟩
    -- the first length of its byte or the second
    rcases Nat.mod_two_eq_zero_or_one t with hmod | hmod
    · rw [show t = 2 * (t / 2) from by omega, heven _ (by omega)] at ht
      exact Or.inl (Option.some.inj ht).symm
    · rw [show t = 2 * (t / 2) + 1 from by omega, hodd _ (by omega)] at ht
      exact Or.inr (Option.some.inj ht).symm
  · rintro ⟨k, hk, rfl | rfl⟩
    · exact ⟨2 * k, heven k hk⟩
    · exact ⟨2 * k + 1, hodd k hk⟩

/-- A nibble leaves the block of 16 that a counter is in. -/
theorem nibble_xor {x : Nat} (t : Nat) (hx : x < 16) :
    x ^^^ t = 16 * (t / 16) + (x ^^^ t % 16) := by
  have hdiv : (x ^^^ t) / 2 ^ 4 = t / 16 := by
    rw [Nat.xor_div_two_pow, Nat.div_eq_of_lt (show x < 2 ^ 4 from hx), Nat.zero_xor]
  have hmod : (x ^^^ t) % 2 ^ 4 = x ^^^ t % 16 := by
    rw [Nat.xor_mod_two_pow, Nat.mod_eq_of_lt (show x < 2 ^ 4 from hx)]
  rw [← hdiv, ← hmod]
  exact (Nat.div_add_mod _ _).symm

theorem nibble_xor_mod_lt {x : Nat} (t : Nat) (hx : x < 16) : x ^^^ t % 16 < 16 :=
  Nat.xor_lt_two_pow (n := 4) hx (Nat.mod_lt t (by decide))

/-- A length by the block of its position: `q` blocks of 16 positions are `256 * q` bytes. -/
theorem commentSendlen0_block (b : List UInt8) {k : Nat} (hk : k < 128) :
    ∃ y < 16, (0 < k → y = (b.getD (k - 1) 0).toNat % 16 ^^^ 2 * k % 16) ∧
      commentSendlen0 b k = 24 + 256 * (2 * k / 16) + 16 * y + (b.getD k 0).toNat / 16 := by
  have hx : (if k = 0 then 0 else (b.getD (k - 1) 0).toNat % 16) < 16 := by
    split <;> omega
  refine ⟨_, nibble_xor_mod_lt (2 * k) hx, fun hpos => by rw [if_neg (by omega)], ?_⟩
  rw [commentSendlen0, Nat.mod_eq_of_lt (by omega : 2 * k < 256), nibble_xor _ hx]
  omega

theorem commentSendlen1_block (b : List UInt8) {k : Nat} (hk : k < 128) :
    ∃ y < 16, y = (b.getD k 0).toNat / 16 ^^^ (2 * k + 1) % 16 ∧
      commentSendlen1 b k =
        24 + 256 * ((2 * k + 1) / 16) + 16 * y + (b.getD k 0).toNat % 16 := by
  have hx : (b.getD k 0).toNat / 16 < 16 := by
    have := (b.getD k 0).toNat_lt
    omega
  refine ⟨_, nibble_xor_mod_lt (2 * k + 1) hx, rfl, ?_⟩
  rw [commentSendlen1, Nat.mod_eq_of_lt (by omega : 2 * k + 1 < 256), nibble_xor _ hx]
  omega

/-- The byte positions 40 to 47 are the ones whose lengths lie around the end of the packet: 196
bytes are left of it there for the low half of the check value and the data nibble. -/
def FitsPacketAt (b : List UInt8) (k : Nat) : Prop :=
  16 * ((b.getD (k - 1) 0).toNat % 16 ^^^ (2 * k - 80)) + (b.getD k 0).toNat / 16 ≤ 196 ∧
  16 * ((b.getD k 0).toNat / 16 ^^^ (2 * k - 79)) + (b.getD k 0).toNat % 16 ≤ 196

/-- Both lengths of byte position `k` stay inside the packet. -/
def PairWithin (b : List UInt8) (k : Nat) : Prop :=
  commentSendlen0 b k ≤ PACKET_MAX ∧ commentSendlen1 b k ≤ PACKET_MAX

theorem pairWithin_of_lt (b : List UInt8) {k : Nat} (hk : k < 40) : PairWithin b k := by
  obtain ⟨y0, hy0, -, h0⟩ := commentSendlen0_block b (by omega : k < 128)
  obtain ⟨y1, hy1, -, h1⟩ := commentSendlen1_block b (by omega : k < 128)
  have := (b.getD k 0).toNat_lt
  unfold PairWithin PACKET_MAX
  omega

theorem pairWithin_iff_fits (b : List UInt8) {k : Nat} (hlo : 40 ≤ k) (hhi : k < 48) :
    PairWithin b k ↔ FitsPacketAt b k := by
  obtain ⟨y0, -, hy0, h0⟩ := commentSendlen0_block b (by omega : k < 128)
  obtain ⟨y1, -, hy1, h1⟩ := commentSendlen1_block b (by omega : k < 128)
  rw [show 2 * k % 16 = 2 * k - 80 from by omega] at hy0
  rw [show (2 * k + 1) % 16 = 2 * k - 79 from by omega] at hy1
  rw [PairWithin, FitsPacketAt, h0, h1, ← hy0 (by omega), ← hy1, PACKET_MAX]
  omega

theorem not_pairWithin_48 (b : List UInt8) : ¬ PairWithin b 48 := by
  obtain ⟨y0, -, -, h0⟩ := commentSendlen0_block b (by omega : 48 < 128)
  rw [PairWithin, h0, PACKET_MAX]
  omega

/-- **No datagram is longer than its packet exactly when at most 48 bytes are sent and those at
positions 40 to 47 fit.** `length` is the wrapped `size + 2`. -/
theorem lengths_within_packet_iff (tx : SmartLinkTx) (input : List UInt8) (size : UInt8)
    (hsize : input.length = size.toNat) :
    (∀ s ∈ (smartlinkTxSend tx input size).1, s ≤ (PACKET_MAX : Int)) ↔
      (size + 2).toNat ≤ 48 ∧
        ∀ k, 40 ≤ k → k < (size + 2).toNat → FitsPacketAt (txBuffer input size) k := by
  have hpairs : (∀ s ∈ (smartlinkTxSend tx input size).1, s ≤ (PACKET_MAX : Int)) ↔
      ∀ k < (size + 2).toNat, PairWithin (txBuffer input size) k := by
    constructor
    · intro h k hk
      have h0 := h _ ((mem_smartlinkTxSend_iff tx hsize).mpr ⟨k, hk, Or.inl rfl⟩)
      have h1 := h _ ((mem_smartlinkTxSend_iff tx hsize).mpr ⟨k, hk, Or.inr rfl⟩)
      exact ⟨by exact_mod_cast h0, by exact_mod_cast h1⟩
    · intro h s hs
      obtain ⟨k, hk, rfl | rfl⟩ := (mem_smartlinkTxSend_iff tx hsize).mp hs
      · exact_mod_cast (h k hk).1
      · exact_mod_cast (h k hk).2
  rw [hpairs]
  constructor
  · intro h
    have hle : (size + 2).toNat ≤ 48 := by
      by_contra hgt
      exact not_pairWithin_48 _ (h 48 (by omega))
    exact ⟨hle, fun k hlo hk => (pairWithin_iff_fits _ hlo (by omega)).mp (h k hk)⟩
  · rintro ⟨hle, hfits⟩ k hk
    rcases Nat.lt_or_ge k 40 with hlt | hge
    · exact pairWithin_of_lt _ hlt
    · exact (pairWithin_iff_fits _ hge (by omega)).mpr (hfits k hge hk)

theorem lengths_within_packet_iff_one :
    (∀ s ∈ (smartlinkTxSend ⟨0⟩ [0x41] 1).1, s ≤ (PACKET_MAX : Int)) ↔
      ((1 : UInt8) + 2).toNat ≤ 48 ∧
        ∀ k, 40 ≤ k → k < ((1 : UInt8) + 2).toNat → FitsPacketAt (txBuffer [0x41] 1) k :=
  lengths_within_packet_iff ⟨0⟩ [0x41] 1 rfl

/-- At 60 bytes the 49th byte of the frame is already sent out of more than the packet holds. -/
theorem exists_length_beyond_packet :
    ∃ s ∈ (smartlinkTxSend ⟨0⟩ (List.replicate 60 0x41) 60).1, ¬ s ≤ (PACKET_MAX : Int) := by
  have hsize : (List.replicate 60 (0x41 : UInt8)).length = (60 : UInt8).toNat :=
    List.length_replicate
  refine ⟨_, (mem_smartlinkTxSend_iff ⟨0⟩ hsize).mpr ⟨48, by decide, Or.inl rfl⟩, ?_⟩
  decide

end SmartConfig
