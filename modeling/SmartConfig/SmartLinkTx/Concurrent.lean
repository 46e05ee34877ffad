import SmartConfig.Lib.Linearizable
import SmartConfig.SmartLinkTx.Basic

/-!
# Concurrent calls of `smartlinkTxSend`

`smartlinkTxSend` computes its check values from `u32Sequence`, which all calls on one context
share. Between `MUTEX_LOCK` and `MUTEX_UNLOCK` a call is cut here into the steps that touch
something shared: the reset, each `u32Sequence++`, and each datagram. `sends_serialize`: however
these steps of any number of calls are interleaved, the datagrams come in whole blocks, one after
the other, as if every call had been alone.
-/

namespace SmartConfig

/-- The arguments of a call. -/
structure TxCall where
  input : List UInt8
  size : UInt8

/-- The lengths that the call emits when it is alone, from a context in any state. -/
def TxCall.alone (c : TxCall) (tx : SmartLinkTx) : List Int := (smartlinkTxSend tx c.input c.size).1

/-! ## The steps between lock and unlock -/

/-- Where a call is, with the locals that are still needed. -/
inductive TxPoint where
  | reset : TxPoint
  | low0 (u8Index : UInt8) : TxPoint
  | highs (u8Index low0 : UInt8) : TxPoint
  | send0 (u8Index low0 highs : UInt8) : TxPoint
  | send1 (u8Index highs : UInt8) : TxPoint
  deriving DecidableEq

/-- One step; the loop is left at its head. -/
def TxCall.step (c : TxCall) : TxPoint → SmartLinkTx → Option (TxPoint × SmartLinkTx × Option Int)
  | .reset, tx => some (.low0 0, { tx with u32Sequence := 0x00 }, none)
  | .low0 i, tx =>
    if i < c.size + 2 then
      some (.highs i (txLow0 (txBuffer c.input c.size) i tx.u32Sequence),
        { u32Sequence := tx.u32Sequence + 1 }, none)
    else none
  | .highs i low0, tx =>
    some (.send0 i low0 (txHighs (txBuffer c.input c.size) i tx.u32Sequence),
      { u32Sequence := tx.u32Sequence + 1 }, none)
  | .send0 i low0 highs, tx =>
    some (.send1 i highs, tx, some (txSendlen0 (txBuffer c.input c.size) i low0))
  | .send1 i highs, tx =>
    some (.low0 (i + 1), tx, some (txSendlen1 (txBuffer c.input c.size) i highs))

/-- Calls on one context. -/
def txCalls {ι : Type*} (call : ι → TxCall) : CriticalSection ι SmartLinkTx TxPoint Int where
  enter _ := .reset
  step i := (call i).step

/-! ## Alone -/

/-- What a call at this point is still going to send if nobody else moves. -/
def TxCall.rest (c : TxCall) : TxPoint → SmartLinkTx → List Int
  | .reset, tx => c.alone tx
  | .low0 i, tx => (txLoop (txBuffer c.input c.size) (c.size + 2) i tx).1
  | .highs i low0, tx =>
    txSendlen0 (txBuffer c.input c.size) i low0 ::
      txSendlen1 (txBuffer c.input c.size) i
        (txHighs (txBuffer c.input c.size) i tx.u32Sequence) ::
      (txLoop (txBuffer c.input c.size) (c.size + 2) (i + 1)
        { u32Sequence := tx.u32Sequence + 1 }).1
  | .send0 i low0 highs, tx =>
    txSendlen0 (txBuffer c.input c.size) i low0 ::
      txSendlen1 (txBuffer c.input c.size) i highs ::
      (txLoop (txBuffer c.input c.size) (c.size + 2) (i + 1) tx).1
  | .send1 i highs, tx =>
    txSendlen1 (txBuffer c.input c.size) i highs ::
      (txLoop (txBuffer c.input c.size) (c.size + 2) (i + 1) tx).1

/-- What is left in the counter by others does not matter to a call. -/
theorem TxCall.alone_eq (c : TxCall) (tx tx' : SmartLinkTx) : c.alone tx = c.alone tx' := rfl

/-- A step sends the next of the lengths that are left. -/
theorem TxCall.rest_step {c : TxCall} {l l' : TxPoint} {tx tx' : SmartLinkTx} {o : Option Int}
    (h : c.step l tx = some (l', tx', o)) : c.rest l tx = o.toList ++ c.rest l' tx' := by
  cases l with
  | reset =>
      cases h
      rfl
  | low0 i =>
      rw [TxCall.step] at h
      split at h
      · next hlt =>
        cases h
        rw [TxCall.rest, txLoop, if_pos hlt]
        rfl
      · cases h
  | highs i low0 =>
      cases h
      rfl
  | send0 i low0 highs =>
      cases h
      rfl
  | send1 i highs =>
      cases h
      rfl

/-- A call that cannot step has nothing left to send. -/
theorem TxCall.rest_stop {c : TxCall} {l : TxPoint} {tx : SmartLinkTx} (h : c.step l tx = none) :
    c.rest l tx = [] := by
  cases l with
  | low0 i =>
      rw [TxCall.step] at h
      split at h
      · cases h
      · next hge => rw [TxCall.rest, txLoop, if_neg hge]
  | reset => cases h
  | highs i low0 => cases h
  | send0 i low0 highs => cases h
  | send1 i highs => cases h

/-! ## Together -/

/-- **Concurrent calls do not mix**: after any interleaving of the steps of any number of calls,
what has been sent is the blocks of the finished calls, each as if it had been alone, and a
beginning of the block of the call that holds the lock. -/
theorem sends_serialize {ι : Type*} [DecidableEq ι] (call : ι → TxCall) (tx : SmartLinkTx)
    (s : CriticalSection.State ι SmartLinkTx TxPoint Int) (h : (txCalls call).Reachable tx s) :
    ∃ (order : List ι) (begun : List Int), order.Nodup ∧ (∀ i, i ∈ order ↔ s.phase i = .done) ∧
      s.out = order.flatMap (fun i => (call i).alone tx) ++ begun ∧
      (s.owner = none → begun = []) ∧ ∀ i, s.owner = some i → begun <+: (call i).alone tx := by
  have henter : ∀ i t, (call i).rest ((txCalls call).enter i) t = (call i).alone tx :=
    fun i t => (call i).alone_eq t tx
  exact CriticalSection.serial (fun i => (call i).rest) henter
    (fun _ _ _ _ _ _ => TxCall.rest_step) (fun _ _ _ => TxCall.rest_stop) h

/-- Two calls, with the inputs `A` and `B`. -/
def twoCalls (second : Bool) : TxCall where
  input := if second then [0x42] else [0x41]
  size := 1

/-- The first of them has finished, and the second one has the lock and has sent a length. -/
theorem exists_reachable_twoCalls :
    ∃ s, (txCalls twoCalls).Reachable ⟨7⟩ s ∧ s.phase false = .done ∧ s.owner = some true ∧
      s.out = (twoCalls false).alone ⟨7⟩ ++ [31] := by
  have hrun : (PartialRun.run (txCalls twoCalls).move (.init ⟨7⟩)
      (List.replicate 15 false ++ List.replicate 5 true)).map
        (fun s => (s.phase false, s.owner, s.out)) =
      some (.done, some true, (twoCalls false).alone ⟨7⟩ ++ [31]) := by decide +kernel
  obtain ⟨s, hs, hend⟩ := Option.map_eq_some_iff.mp hrun
  simp only [Prod.mk.injEq] at hend
  exact ⟨s, CriticalSection.reachable_of_run hs, hend⟩

theorem sends_serialize_twoCalls :
    ∃ s, (txCalls twoCalls).Reachable ⟨7⟩ s ∧ s.phase false = .done ∧ s.owner = some true ∧
      s.out = (twoCalls false).alone ⟨7⟩ ++ [31] ∧
      ∃ (order : List Bool) (begun : List Int), order.Nodup ∧
        (∀ i, i ∈ order ↔ s.phase i = .done) ∧
        s.out = order.flatMap (fun i => (twoCalls i).alone ⟨7⟩) ++ begun ∧
        (s.owner = none → begun = []) ∧
        ∀ i, s.owner = some i → begun <+: (twoCalls i).alone ⟨7⟩ := by
  obtain ⟨s, hs, hdone, howner, hout⟩ := exists_reachable_twoCalls
  exact ⟨s, hs, hdone, howner, hout, sends_serialize twoCalls ⟨7⟩ s hs⟩

end SmartConfig
