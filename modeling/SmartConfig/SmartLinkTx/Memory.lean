import SmartConfig.SmartLinkTx.Frames

/-!
# The transmit buffer

`smartlinkTxSend` asks `malloc` for `sizeof(length)` bytes, writes the frame into them and reads it
back in the loop. This file lists the subscripts of both, and says how many bytes they need
(`accesses_within_iff`) and that these are never what was asked for (`not_accesses_within_malloc`).

The model of the loop reads a byte list; `txLoop_congr` ties the list of subscripts to it.
-/

namespace SmartConfig

open Nibble

/-- What `malloc` is asked for: the size of the `uint8_t` variable `length`, whatever it holds. -/
def txMalloc (_length : UInt8) : Nat := 1

/-- The subscripts that are written: `buffer[0]`, the `memcpy` of `size` bytes to `buffer+1`, and
`buffer[size+1]`, where `size+1` is an `int`. -/
def txWrites (size : UInt8) : List Nat :=
  0 :: ((List.range size.toNat).map (· + 1) ++ [size.toNat + 1])

/-- The subscripts that the loop reads, from iteration `u8Index` on: `buffer[u8Index]` for either
nibble, and `buffer[u8Index-1]` from the second iteration on. -/
def txLoopReads (length u8Index : UInt8) : List Nat :=
  if u8Index < length then
    [u8Index.toNat, u8Index.toNat] ++ (if u8Index ≠ 0 then [u8Index.toNat - 1] else []) ++
      txLoopReads length (u8Index + 1)
  else []
termination_by length.toNat - u8Index.toNat
decreasing_by
  next h =>
    have := UInt8.lt_iff_toNat_lt.mp h
    rw [toNat_succ_of_lt h]
    omega

/-- Every subscript of `buffer` in a call. -/
def txAccesses (size : UInt8) : List Nat := txWrites size ++ txLoopReads (size + 2) 0

/-! ## The subscripts are those of the model -/

/-- The frame is what the writes leave: they reach the bytes of `txBuffer` and no others. -/
theorem mem_txWrites_iff {input : List UInt8} {size : UInt8} (hsize : input.length = size.toNat)
    {k : Nat} : k ∈ txWrites size ↔ k < (txBuffer input size).length := by
  rw [length_txBuffer hsize, txWrites, List.mem_cons, List.mem_append, List.mem_map]
  simp only [List.mem_range, List.mem_singleton]
  constructor
  · rintro (rfl | ⟨j, hj, rfl⟩ | rfl) <;> omega
  · intro hk
    rcases Nat.eq_zero_or_pos k with rfl | hpos
    · exact Or.inl rfl
    · rcases Nat.lt_or_ge k (size.toNat + 1) with hlt | hge
      · exact Or.inr (Or.inl ⟨k - 1, by omega, by omega⟩)
      · exact Or.inr (Or.inr (by omega))

/-- The loop depends on the bytes at its subscripts only. -/
theorem txLoop_congr {buffer buffer' : List UInt8} {length u8Index : UInt8} (tx : SmartLinkTx)
    (h : ∀ k ∈ txLoopReads length u8Index, buffer.getD k 0 = buffer'.getD k 0) :
    txLoop buffer length u8Index tx = txLoop buffer' length u8Index tx := by
  induction u8Index using txLoopReads.induct length generalizing tx with
  | case1 i hlt ih =>
      rw [txLoopReads, if_pos hlt] at h
      have hhere : buffer.getD i.toNat 0 = buffer'.getD i.toNat 0 := h _ (by simp)
      have hlow : txLow0 buffer i tx.u32Sequence = txLow0 buffer' i tx.u32Sequence := by
        unfold txLow0
        split
        · next hne => rw [h (i.toNat - 1) (by simp [hne])]
        · rfl
      have hrest := ih ⟨tx.u32Sequence + 1 + 1⟩ fun k hk => h k (List.mem_append_right _ hk)
      conv_lhs => rw [txLoop, if_pos hlt]
      conv_rhs => rw [txLoop, if_pos hlt]
      simp only [hlow, txHighs, txSendlen0, txSendlen1, hhere, hrest]
  | case2 i hge =>
      conv_lhs => rw [txLoop, if_neg hge]
      conv_rhs => rw [txLoop, if_neg hge]

/-! ## How many bytes they need -/

/-- The loop stays below the wrapped `length`. -/
theorem lt_of_mem_txLoopReads {length u8Index : UInt8} {k : Nat}
    (h : k ∈ txLoopReads length u8Index) : k < length.toNat := by
  induction u8Index using txLoopReads.induct length with
  | case1 i hlt ih =>
      have hi := UInt8.lt_iff_toNat_lt.mp hlt
      rw [txLoopReads, if_pos hlt] at h
      rcases List.mem_append.mp h with hhere | hrest
      · rcases List.mem_append.mp hhere with hk | hk
        · simp at hk
          omega
        · split at hk
          · simp at hk
            omega
          · simp at hk
      · exact ih hrest
  | case2 i hge =>
      rw [txLoopReads, if_neg hge] at h
      simp at h

/-- **A buffer is large enough exactly from `size + 2` bytes on.** -/
theorem accesses_within_iff (size : UInt8) (n : Nat) :
    (∀ k ∈ txAccesses size, k < n) ↔ size.toNat + 2 ≤ n := by
  constructor
  · intro h
    exact h (size.toNat + 1) (by simp [txAccesses, txWrites])
  · intro hn k hk
    rcases List.mem_append.mp hk with hwrite | hread
    · rw [mem_txWrites_iff (List.length_replicate (n := size.toNat) (a := (0 : UInt8))),
        length_txBuffer List.length_replicate] at hwrite
      omega
    · have := lt_of_mem_txLoopReads hread
      have := toNat_add_two_le size
      omega

/-- **The allocation is never large enough.** -/
theorem not_accesses_within_malloc (size : UInt8) :
    ¬ ∀ k ∈ txAccesses size, k < txMalloc (size + 2) := by
  rw [accesses_within_iff, txMalloc]
  omega

/-- The terminator of the input `A` is written two bytes behind the allocation. -/
theorem exists_access_beyond_malloc : ∃ k ∈ txAccesses 1, ¬ k < txMalloc (1 + 2) :=
  ⟨2, by simp [txAccesses, txWrites], by decide⟩

end SmartConfig
