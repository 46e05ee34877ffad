import SmartConfig.Lib.Linearizable
import SmartConfig.SmartLinkTx.Concurrent
import SmartConfig.SmartLinkTx.Lifecycle

/-!
# `smartlinktx.c`: closing a transmitter that is in use

`smartlinkTxDeInt` closes the socket under the mutex that `smartlinkTxSend` holds for a whole
transmission, and `_smartlinkTxSendto` refuses a socket that has been closed, a result that nobody
looks at. `close_between_sends`: however the calls are interleaved, the close comes between two
transmissions, and nothing is sent after it. (What happens to the context after the close is another
matter: `smartlinkTxDeInt` frees it, whoever still waits for the mutex. The runs in which nobody
uses it any more are those of `TxStep`.)
-/

namespace SmartConfig

/-- What the calls on one context share. -/
structure TxContext where
  tx : SmartLinkTx
  sockfd : Int

/-- What they do with the socket. -/
inductive TxEvent where
  | sendto (sendlen : Int)
  | close
  deriving DecidableEq

/-- Where a call is between lock and unlock; `smartlinkTxDeInt` has the close to do. -/
inductive TxSharedPoint where
  | send (point : TxPoint)
  | deInt
  | closed
  deriving DecidableEq

/-! ## The steps -/

/-- `_smartlinkTxSendto`, as far as something is sent. -/
def smartlinkTxSendto (sockfd sendlen : Int) : Option TxEvent :=
  if sockfd ≤ 0 then none else some (.sendto sendlen)

/-- A step of `smartlinkTxSend` on the shared context. -/
def TxCall.stepShared (call : TxCall) (l : TxPoint) (c : TxContext) :
    Option (TxSharedPoint × TxContext × Option TxEvent) :=
  (call.step l c.tx).map fun (l', tx', o) =>
    (.send l', { c with tx := tx' }, o.bind (smartlinkTxSendto c.sockfd))

/-- `CLOSE_SOCKET(tx->sockfd)`. -/
def smartlinkTxClose (c : TxContext) : TxContext × Option TxEvent :=
  if c.sockfd > 0 then ({ c with sockfd := INVALID_SOCKET }, some .close) else (c, none)

variable {ι : Type*}

/-- Calls of `smartlinkTxSend`, and one of `smartlinkTxDeInt` (`none`), on one context. -/
def txClosing (call : ι → TxCall) : CriticalSection (Option ι) TxContext TxSharedPoint TxEvent where
  enter
    | some _ => .send .reset
    | none => .deInt
  step
    | some i, .send l, c => (call i).stepShared l c
    | none, .deInt, c => some (.closed, smartlinkTxClose c)
    | _, _, _ => none

variable {call : ι → TxCall}

/-! ## One call alone -/

/-- A step of a sending call keeps the socket and sends what is due, if the socket is open. -/
theorem TxCall.stepShared_eq {k : TxCall} {l : TxPoint} {c c' : TxContext} {p : TxSharedPoint}
    {o : Option TxEvent} (h : k.stepShared l c = some (p, c', o)) :
    ∃ l' due, p = .send l' ∧ c'.sockfd = c.sockfd ∧ k.rest l c.tx = due ++ k.rest l' c'.tx ∧
      o.toList = if c.sockfd ≤ 0 then [] else due.map .sendto := by
  obtain ⟨⟨l', tx', due⟩, hstep, heq⟩ := Option.map_eq_some_iff.mp h
  obtain ⟨rfl, hrest⟩ := Prod.mk.inj heq
  obtain ⟨rfl, rfl⟩ := Prod.mk.inj hrest
  refine ⟨l', due.toList, rfl, rfl, TxCall.rest_step hstep, ?_⟩
  cases due with
  | none => split <;> rfl
  | some sendlen =>
      show (smartlinkTxSendto c.sockfd sendlen).toList = _
      rw [smartlinkTxSendto]
      split
      · rfl
      · rfl

/-- So do all its steps. -/
theorem solo_send {i : ι} {l : TxPoint} {c c' : TxContext} {out : List TxEvent} {p : TxSharedPoint}
    (h : (txClosing call).Solo (some i) (.send l) c out p c') :
    ∃ l' due, p = .send l' ∧ c'.sockfd = c.sockfd ∧
      (call i).rest l c.tx = due ++ (call i).rest l' c'.tx ∧
      out = if c.sockfd ≤ 0 then [] else due.map .sendto := by
  induction h with
  | refl =>
      refine ⟨l, [], rfl, rfl, rfl, ?_⟩
      split <;> rfl
  | tail _ hstep ih =>
      obtain ⟨l', due, rfl, hfd, hrest, hout⟩ := ih
      obtain ⟨l'', due', rfl, hfd', hrest', ho⟩ := TxCall.stepShared_eq hstep
      refine ⟨l'', due ++ due', rfl, hfd'.trans hfd, ?_, ?_⟩
      · rw [hrest, hrest', List.append_assoc]
      · rw [hout, ho, hfd]
        split
        · rfl
        · rw [List.map_append]

/-- `smartlinkTxDeInt` has closed, or not yet. -/
theorem solo_close {c c' : TxContext} {out : List TxEvent} {p : TxSharedPoint}
    (h : (txClosing call).Solo none .deInt c out p c') :
    (p = .deInt ∧ c' = c ∧ out = []) ∨
      (p = .closed ∧ c' = (smartlinkTxClose c).1 ∧ out = (smartlinkTxClose c).2.toList) := by
  induction h with
  | refl => exact .inl ⟨rfl, rfl, rfl⟩
  | tail _ hstep ih =>
      rcases ih with ⟨rfl, rfl, rfl⟩ | ⟨rfl, -, -⟩
      · obtain ⟨rfl, heq⟩ := Prod.mk.inj (Option.some.inj hstep)
        obtain ⟨rfl, rfl⟩ := Prod.mk.inj heq
        exact .inr ⟨rfl, rfl, rfl⟩
      · cases hstep

/-- A whole transmission. -/
theorem whole_send {i : ι} {c c' : TxContext} {out : List TxEvent}
    (h : (txClosing call).Whole (some i) c out c') :
    c'.sockfd = c.sockfd ∧
      out = if c.sockfd ≤ 0 then [] else ((call i).alone c.tx).map .sendto := by
  obtain ⟨p, hsolo, hstop⟩ := h
  obtain ⟨l, due, rfl, hfd, hrest, hout⟩ := solo_send hsolo
  have hnone : (call i).step l c'.tx = none := Option.map_eq_none_iff.mp hstop
  rw [TxCall.rest_stop hnone, List.append_nil] at hrest
  refine ⟨hfd, hout.trans ?_⟩
  rw [← hrest]
  rfl

/-- A whole teardown. -/
theorem whole_close {c c' : TxContext} {out : List TxEvent}
    (h : (txClosing call).Whole none c out c') :
    c' = (smartlinkTxClose c).1 ∧ out = (smartlinkTxClose c).2.toList := by
  obtain ⟨p, hsolo, hstop⟩ := h
  rcases solo_close hsolo with ⟨rfl, -, -⟩ | ⟨-, hc, hout⟩
  · cases hstop
  · exact ⟨hc, hout⟩

/-! ## One call after the other -/

/-- The blocks of some calls, as they go to the socket. -/
def blocks (call : ι → TxCall) (tx : SmartLinkTx) (before : List ι) : List TxEvent :=
  (before.flatMap fun i => (call i).alone tx).map .sendto

theorem blocks_concat (tx : SmartLinkTx) (before : List ι) (i : ι) :
    blocks call tx (before ++ [i]) = blocks call tx before ++ ((call i).alone tx).map .sendto := by
  rw [blocks, blocks, List.flatMap_append, List.flatMap_singleton, List.map_append]

/-- Whole blocks have been sent through a socket that is open. -/
structure SentOpen (call : ι → TxCall) (c₀ : TxContext) (order : List (Option ι))
    (out : List TxEvent) (c : TxContext) (before : List ι) : Prop where
  order : order = before.map some
  sockfd : c.sockfd = c₀.sockfd
  out : out = blocks call c₀.tx before

/-- Whole blocks have been sent, then the socket has been closed. -/
structure SentClosed (call : ι → TxCall) (c₀ : TxContext) (order : List (Option ι))
    (out : List TxEvent) (c : TxContext) (before after : List ι) : Prop where
  order : order = before.map some ++ none :: after.map some
  sockfd : c.sockfd = INVALID_SOCKET
  out : out = blocks call c₀.tx before ++ [.close]

section OneByOne

variable {c₀ c t : TxContext} {order : List (Option ι)} {out own : List TxEvent}
  {before after : List ι}

theorem SentOpen.send (h : SentOpen call c₀ order out t before) (hfd : 0 < c₀.sockfd) {i : ι}
    (hwhole : (txClosing call).Whole (some i) t own c) :
    SentOpen call c₀ (order ++ [some i]) (out ++ own) c (before ++ [i]) := by
  obtain ⟨rfl, hsame, rfl⟩ := h
  obtain ⟨hkeep, hown⟩ := whole_send hwhole
  refine ⟨by simp, hkeep.trans hsame, ?_⟩
  rw [hown, hsame, if_neg (by omega), (call i).alone_eq t.tx c₀.tx, blocks_concat]

theorem SentClosed.send (h : SentClosed call c₀ order out t before after) {i : ι}
    (hwhole : (txClosing call).Whole (some i) t own c) :
    SentClosed call c₀ (order ++ [some i]) (out ++ own) c before (after ++ [i]) := by
  obtain ⟨rfl, hinvalid, rfl⟩ := h
  obtain ⟨hkeep, hown⟩ := whole_send hwhole
  refine ⟨by simp, hkeep.trans hinvalid, ?_⟩
  rw [hown, hinvalid, if_pos (by decide), List.append_nil]

theorem smartlinkTxClose_open (hfd : 0 < t.sockfd) :
    smartlinkTxClose t = ({ t with sockfd := INVALID_SOCKET }, some .close) := if_pos hfd

theorem SentOpen.close (h : SentOpen call c₀ order out t before) (hfd : 0 < c₀.sockfd)
    (hwhole : (txClosing call).Whole none t own c) :
    SentClosed call c₀ (order ++ [none]) (out ++ own) c before [] := by
  obtain ⟨rfl, hsame, rfl⟩ := h
  obtain ⟨rfl, rfl⟩ := whole_close hwhole
  rw [smartlinkTxClose_open (hsame ▸ hfd)]
  exact ⟨rfl, rfl, rfl⟩

theorem sent_of_oneByOne (hfd : 0 < c₀.sockfd) (h : (txClosing call).OneByOne c₀ order out c)
    (hnodup : order.Nodup) :
    (∃ before, SentOpen call c₀ order out c before) ∨
      ∃ before after, SentClosed call c₀ order out c before after := by
  induction h with
  | nil => exact .inl ⟨[], rfl, rfl, rfl⟩
  | @snoc order out own t u i h hwhole ih =>
      obtain ⟨hearlier, -, hdisjoint⟩ := List.nodup_append.mp hnodup
      rcases ih hearlier with ⟨before, hopen⟩ | ⟨before, after, hclosed⟩
      · cases i with
        | some i => exact .inl ⟨_, hopen.send hfd hwhole⟩
        | none => exact .inr ⟨_, _, hopen.close hfd hwhole⟩
      · cases i with
        | some i => exact .inr ⟨_, _, hclosed.send hwhole⟩
        | none =>
            have hmem : none ∈ order := by simp [hclosed.order]
            exact absurd rfl (hdisjoint none hmem none List.mem_cons_self)

end OneByOne

theorem nodup_of_map_some {before : List ι} (h : (before.map some).Nodup) : before.Nodup :=
  h.of_map some

/-- What has been sent after any interleaving, on a socket that is open at the beginning. -/
theorem sent_of_reachable [DecidableEq ι] {c₀ : TxContext} (hfd : 0 < c₀.sockfd)
    {s : CriticalSection.State (Option ι) TxContext TxSharedPoint TxEvent}
    (h : (txClosing call).Reachable c₀ s) :
    (∃ (before : List ι) (begun : List Int), before.Nodup ∧
      (∀ i, i ∈ before ↔ s.phase (some i) = .done) ∧ s.shared.sockfd = c₀.sockfd ∧
      s.out = blocks call c₀.tx before ++ begun.map .sendto ∧
      (∀ i, s.owner = some (some i) → begun <+: (call i).alone c₀.tx) ∧
      ((∀ i, s.owner ≠ some (some i)) → begun = [])) ∨
    ∃ before : List ι, before.Nodup ∧ (∀ i ∈ before, s.phase (some i) = .done) ∧
      s.shared.sockfd = INVALID_SOCKET ∧ s.out = blocks call c₀.tx before ++ [.close] := by
  obtain ⟨order, out, t, hlinear⟩ := CriticalSection.linearizable h
  have hfinished := hlinear.finished
  have hnodup := hlinear.nodup
  rcases sent_of_oneByOne hfd hlinear.whole hnodup with
    ⟨before, rfl, hsame, rfl⟩ | ⟨before, after, rfl, hinvalid, rfl⟩
  · -- open so far; the call that holds the mutex sends, or is the one that closes
    have hdone : ∀ i, i ∈ before ↔ s.phase (some i) = .done := by
      intro i
      rw [← hfinished, List.mem_map_of_injective fun _ _ => Option.some.inj]
    have hbefore := nodup_of_map_some hnodup
    cases howner : s.owner with
    | none =>
        obtain ⟨hshared, hout⟩ := hlinear.free howner
        refine .inl ⟨before, [], hbefore, hdone, hshared ▸ hsame, ?_, by simp, fun _ => rfl⟩
        rw [hout, List.map_nil, List.append_nil]
    | some j =>
        obtain ⟨l, hl⟩ := CriticalSection.inside_of_owner h j howner
        obtain ⟨begun, hsolo, hout⟩ := hlinear.held j l hl
        cases j with
        | some i =>
            obtain ⟨l', due, -, hkeep, hrest, hbegun⟩ := solo_send hsolo
            rw [hsame, if_neg (by omega)] at hbegun
            refine .inl ⟨before, due, hbefore, hdone, hkeep.trans hsame, ?_, ?_, ?_⟩
            · rw [hout, hbegun]
            · rintro i' hi'
              obtain rfl := Option.some.inj (Option.some.inj hi')
              exact ⟨_, hrest.symm⟩
            · exact fun hother => absurd rfl (hother i)
        | none =>
            rcases solo_close hsolo with ⟨-, hshared, hbegun⟩ | ⟨-, hshared, hbegun⟩
            · refine .inl ⟨before, [], hbefore, hdone, hshared ▸ hsame, ?_, ?_, fun _ => rfl⟩
              · rw [hout, hbegun]
                rfl
              · exact fun i hi => nomatch hi
            · rw [smartlinkTxClose_open (hsame ▸ hfd)] at hshared hbegun
              refine .inr ⟨before, hbefore, fun i hi => (hdone i).mp hi, ?_, ?_⟩
              · rw [hshared]
              · rw [hout, hbegun]
                rfl
  · -- closed; whoever holds the mutex now sends nothing
    have hbefore : before.Nodup := nodup_of_map_some (List.nodup_append.mp hnodup).1
    have hdone : ∀ i ∈ before, s.phase (some i) = .done := by
      intro i hi
      rw [← hfinished]
      exact List.mem_append_left _ (List.mem_map_of_mem hi)
    cases howner : s.owner with
    | none =>
        obtain ⟨hshared, hout⟩ := hlinear.free howner
        exact .inr ⟨before, hbefore, hdone, hshared ▸ hinvalid, hout⟩
    | some j =>
        obtain ⟨l, hl⟩ := CriticalSection.inside_of_owner h j howner
        obtain ⟨begun, hsolo, hout⟩ := hlinear.held j l hl
        cases j with
        | some i =>
            obtain ⟨l', due, -, hkeep, -, hbegun⟩ := solo_send hsolo
            rw [hinvalid, if_pos (by decide)] at hbegun
            refine .inr ⟨before, hbefore, hdone, hkeep.trans hinvalid, ?_⟩
            rw [hout, hbegun, List.append_nil]
        | none =>
            have hclosed : s.phase none = .done := (hfinished none).mp (by simp)
            rw [hl] at hclosed
            cases hclosed

/-- **The close comes between two transmissions** on a context that `smartlinktTxInit` has returned.
After any interleaving, either the socket is open, and what has been sent is the blocks of the
finished calls and a beginning of the block of the call that holds the mutex; or it has been closed,
and what has been sent is whole blocks of finished calls, then the close, and nothing after it. -/
theorem close_between_sends [DecidableEq ι] (call : ι → TxCall) (c₀ : TxContext) (n : Nat)
    (dev : Option String) (o : TxOutcome) (hinit : (smartlinktTxInit n dev o).2 = some c₀.sockfd)
    (s : CriticalSection.State (Option ι) TxContext TxSharedPoint TxEvent)
    (h : (txClosing call).Reachable c₀ s) :
    (∃ (before : List ι) (begun : List Int), before.Nodup ∧
      (∀ i, i ∈ before ↔ s.phase (some i) = .done) ∧ s.shared.sockfd = c₀.sockfd ∧
      s.out = blocks call c₀.tx before ++ begun.map .sendto ∧
      (∀ i, s.owner = some (some i) → begun <+: (call i).alone c₀.tx) ∧
      ((∀ i, s.owner ≠ some (some i)) → begun = [])) ∨
    ∃ before : List ι, before.Nodup ∧ (∀ i ∈ before, s.phase (some i) = .done) ∧
      s.shared.sockfd = INVALID_SOCKET ∧ s.out = blocks call c₀.tx before ++ [.close] :=
  sent_of_reachable (sockfd_pos_of_init hinit) h

/-- The first of two calls has finished, the socket has been closed, and the second call waits. -/
theorem exists_reachable_closing :
    ∃ s, (txClosing twoCalls).Reachable ⟨⟨7⟩, 3⟩ s ∧ s.phase none = .done ∧
      s.phase (some true) = .waiting ∧
      s.out = ((twoCalls false).alone ⟨7⟩).map .sendto ++ [.close] := by
  have hrun : (PartialRun.run (txClosing twoCalls).move (.init ⟨⟨7⟩, 3⟩)
      (List.replicate 15 (some false) ++ List.replicate 3 none)).map
        (fun s => (s.phase none, s.phase (some true), s.out)) =
      some (.done, .waiting, ((twoCalls false).alone ⟨7⟩).map .sendto ++ [.close]) := by
    decide +kernel
  obtain ⟨s, hs, hend⟩ := Option.map_eq_some_iff.mp hrun
  simp only [Prod.mk.injEq] at hend
  exact ⟨s, CriticalSection.reachable_of_run hs, hend⟩

theorem close_between_sends_twoCalls :
    ∃ s, (txClosing twoCalls).Reachable ⟨⟨7⟩, 3⟩ s ∧ s.phase none = .done ∧
      s.phase (some true) = .waiting ∧
      s.out = ((twoCalls false).alone ⟨7⟩).map .sendto ++ [.close] ∧
      ((∃ (before : List Bool) (begun : List Int), before.Nodup ∧
        (∀ i, i ∈ before ↔ s.phase (some i) = .done) ∧ s.shared.sockfd = 3 ∧
        s.out = blocks twoCalls ⟨7⟩ before ++ begun.map .sendto ∧
        (∀ i, s.owner = some (some i) → begun <+: (twoCalls i).alone ⟨7⟩) ∧
        ((∀ i, s.owner ≠ some (some i)) → begun = [])) ∨
      ∃ before : List Bool, before.Nodup ∧ (∀ i ∈ before, s.phase (some i) = .done) ∧
        s.shared.sockfd = INVALID_SOCKET ∧ s.out = blocks twoCalls ⟨7⟩ before ++ [.close]) := by
  obtain ⟨s, hs, hdone, hwaits, hout⟩ := exists_reachable_closing
  exact ⟨s, hs, hdone, hwaits, hout,
    close_between_sends twoCalls ⟨⟨7⟩, 3⟩ 0 (some "wlan0") txUpOutcome rfl s hs⟩

/-! ## The free -/

/-- The calls on a context, and whether `smartlinkTxDeInt` has freed it. -/
structure TxWorld (ι : Type*) where
  calls : CriticalSection.State (Option ι) TxContext TxSharedPoint TxEvent
  freed : Bool

variable [DecidableEq ι]

/-- A step of a call, or the `SMART_FREE(tx)` that `smartlinkTxDeInt` comes to when it has given the
mutex back. There are no steps on a context that has been freed: of these C says nothing. -/
inductive TxStep (call : ι → TxCall) : TxWorld ι → TxWorld ι → Prop where
  | call {s t : CriticalSection.State (Option ι) TxContext TxSharedPoint TxEvent}
      (hstep : (txClosing call).Step s t) : TxStep call ⟨s, false⟩ ⟨t, false⟩
  | free {s : CriticalSection.State (Option ι) TxContext TxSharedPoint TxEvent}
      (hdone : s.phase none = .done) : TxStep call ⟨s, false⟩ ⟨s, true⟩

/-- The worlds that some interleaving leads to in which nobody uses what has been freed. -/
def TxReached (call : ι → TxCall) (c₀ : TxContext) (w : TxWorld ι) : Prop :=
  Relation.ReflTransGen (TxStep call) ⟨.init c₀, false⟩ w

theorem TxReached.calls {c₀ : TxContext} {w : TxWorld ι} (h : TxReached call c₀ w) :
    (txClosing call).Reachable c₀ w.calls := by
  induction h with
  | refl => exact .refl
  | tail _ hstep ih =>
      cases hstep with
      | call hstep => exact ih.tail hstep
      | free => exact ih

/-- As long as nothing has been freed, every interleaving is one of these. -/
theorem TxReached.of_reachable {c₀ : TxContext}
    {s : CriticalSection.State (Option ι) TxContext TxSharedPoint TxEvent}
    (h : (txClosing call).Reachable c₀ s) : TxReached call c₀ ⟨s, false⟩ := by
  induction h with
  | refl => exact .refl
  | tail _ hstep ih => exact ih.tail (.call hstep)

end SmartConfig
