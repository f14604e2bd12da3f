import Quorums.BaseList
import Quorums.NodeSystem

/-! The send queue of a node over whole runs: every enqueued request is accounted for, in enqueue order,
as offered to a stream, in the sender's hand, or still queued; and an acknowledgement says what became
of the request. -/

namespace Quorums.Node

open Server ListUpdate

/-- The request that is dequeued and not yet offered to the wire. -/
def Phase.inHand : Phase → List OutboundRequest
  | .streaming (.dequeued req) | .streaming (.ready req) => [req]
  | _ => []

/-- The request whose send has returned, while its acknowledgement is due. -/
def Phase.offering : Phase → Option (OutboundRequest × Bool)
  | .streaming (.sent req ok) => some (req, ok)
  | _ => none

/-- `sender_loop` runs and no send of this stream has failed. -/
def Phase.sending : Phase → Bool
  | .streaming (.sent _ ok) => ok
  | .streaming _ => true
  | _ => false

/-- The calls whose message was offered to the stream's wire, in order. -/
def Stream.offered (st : Stream) : List Nat := st.handed ++ st.failed

def offered (streams : List Stream) : List Nat := streams.flatMap Stream.offered

/-- The calls whose request waits for the wire, in order. -/
def ahead (phase : Phase) (queue : List OutboundRequest) : List Nat :=
  (phase.inHand ++ queue).map OutboundRequest.call

/-- The request is the one its call enqueues. -/
def Belongs (calls : List Call) (req : OutboundRequest) : Prop :=
  ∃ call, calls[req.call]? = some call ∧ call.stage = .enqueued ∧ req = call.request req.call

theorem responseTx_request {call : Call} {id c : Nat} (h : (call.request id).responseTx = some c) :
    c = id ∧ call.kind = .oneShot := by
  dsimp only [Call.request] at h
  split at h
  · rename_i hkind
    exact ⟨(Option.some.inj h).symm, hkind⟩
  · cases h

theorem sendAck_request {call : Call} {id c : Nat} (h : (call.request id).sendAck = some c) :
    c = id ∧ call.kind = .oneWay := by
  dsimp only [Call.request] at h
  split at h
  · rename_i hkind
    exact ⟨(Option.some.inj h).symm, hkind⟩
  · cases h

/-- The calls of the second list are those of the first, some of them further on. Only a call that is
not yet enqueued changes. -/
def Extends (calls calls' : List Call) : Prop :=
  ∀ (c : Nat) (call : Call), calls[c]? = some call → call.stage = .enqueued → calls'[c]? = some call

theorem extends_refl (calls : List Call) : Extends calls calls := fun _ _ h _ => h

theorem extends_append (calls calls' : List Call) : Extends calls (calls ++ calls') :=
  fun _ _ h _ => getElem?_append_of_some h calls'

theorem extends_set {calls : List Call} {c : Nat} {call call' : Call} (hcall : calls[c]? = some call)
    (hstage : call.stage ≠ .enqueued) : Extends calls (calls.set c call') := by
  intro d x hd hx
  have hne : c ≠ d := by
    rintro rfl
    rw [Option.some.inj (hcall.symm.trans hd)] at hstage
    exact hstage hx
  rw [List.getElem?_set, if_neg hne]
  exact hd

theorem Belongs.mono {calls calls' : List Call} {req : OutboundRequest} (h : Belongs calls req)
    (hext : Extends calls calls') : Belongs calls' req := by
  obtain ⟨call, hcall, hstage, hreq⟩ := h
  exact ⟨call, hext req.call call hcall hstage, hstage, hreq⟩

/-- The stage from which a call is enqueued is an earlier one. -/
theorem ready_ne_enqueued {call : Call}
    (hstage : call.stage = if call.kind = .streaming then .registered else .numbered) :
    call.stage ≠ .enqueued := by
  rw [hstage]
  split <;> decide

/-- Where every enqueued request is. -/
structure Accounted (calls : List Call) (queue : List OutboundRequest) (log : List Nat) (phase : Phase)
    (streams : List Stream) : Prop where
  order : log = offered streams ++ ahead phase queue
  nodup : log.Nodup
  enqueued : ∀ c ∈ log, ∃ call, calls[c]? = some call ∧ call.stage = .enqueued
  waiting : ∀ req ∈ phase.inHand ++ queue, Belongs calls req
  offering : ∀ req ok, phase.offering = some (req, ok) → Belongs calls req ∧
    ∃ st ∈ streams, req.call ∈ if ok then st.handed else st.failed
  sending : phase.sending = true → ∀ st, streams[streams.length - 1]? = some st → st.failed = []
  failed : ∀ st ∈ streams, st.failed.length ≤ 1

namespace Accounted

variable {calls calls' : List Call} {queue : List OutboundRequest} {log : List Nat} {phase phase' : Phase}
  {streams : List Stream}

theorem mono (h : Accounted calls queue log phase streams) (hext : Extends calls calls') :
    Accounted calls' queue log phase streams where
  order := h.order
  nodup := h.nodup
  enqueued c hc := by
    obtain ⟨call, hcall, hstage⟩ := h.enqueued c hc
    exact ⟨call, hext c call hcall hstage, hstage⟩
  waiting req hreq := (h.waiting req hreq).mono hext
  offering req ok hphase := ⟨(h.offering req ok hphase).1.mono hext, (h.offering req ok hphase).2⟩
  sending := h.sending
  failed := h.failed

/-- The sender takes a step that touches neither a stream nor a request. -/
theorem withPhase (h : Accounted calls queue log phase streams) (hhand : phase'.inHand = phase.inHand)
    (hoffer : phase'.offering = none) (hsend : phase'.sending = true → phase.sending = true) :
    Accounted calls queue log phase' streams where
  order := by
    rw [ahead, hhand]
    exact h.order
  nodup := h.nodup
  enqueued := h.enqueued
  waiting := by
    rw [hhand]
    exact h.waiting
  offering req ok hphase := by
    rw [hoffer] at hphase
    cases hphase
  sending hphase := h.sending (hsend hphase)
  failed := h.failed

/-- A stream changes in what is not accounted here. -/
theorem setStream (h : Accounted calls queue log phase streams) {k : Nat} {st st' : Stream}
    (hst : streams[k]? = some st) (hhanded : st'.handed = st.handed) (hfailed : st'.failed = st.failed) :
    Accounted calls queue log phase (streams.set k st') where
  order := by
    have hoffered : st'.offered = st.offered := by rw [Stream.offered, hhanded, hfailed, Stream.offered]
    rw [offered, flatMap_set_of_eq hst hoffered]
    exact h.order
  nodup := h.nodup
  enqueued := h.enqueued
  waiting := h.waiting
  offering req ok hphase := by
    refine ⟨(h.offering req ok hphase).1, exists_mem_set hst ?_ (h.offering req ok hphase).2⟩
    rw [hhanded, hfailed]
    exact id
  sending hphase x hx := by
    rw [List.length_set] at hx
    rcases getElem?_set_cases hx with ⟨hk, rfl⟩ | ⟨-, hold⟩
    · rw [hfailed]
      exact h.sending hphase st (hk ▸ hst)
    · exact h.sending hphase x hold
  failed x hx := by
    rcases List.mem_or_eq_of_mem_set hx with hold | rfl
    · exact h.failed x hold
    · rw [hfailed]
      exact h.failed st (List.mem_of_getElem? hst)

theorem enqueue (h : Accounted calls queue log phase streams) {c : Nat} {call : Call}
    (hcall : calls[c]? = some call) (hstage : call.stage ≠ .enqueued) :
    Accounted (calls.set c { call with stage := .enqueued })
      (queue ++ [Call.request { call with stage := .enqueued } c]) (log ++ [c]) phase streams := by
  have hext : Extends calls (calls.set c { call with stage := .enqueued }) := extends_set hcall hstage
  have hnew := getElem?_set_of_some (y := { call with stage := .enqueued }) hcall
  have hfresh : c ∉ log := by
    intro hc
    obtain ⟨x, hx, henq⟩ := h.enqueued c hc
    rw [Option.some.inj (hx.symm.trans hcall)] at henq
    exact hstage henq
  have hm := h.mono hext
  constructor
  · rw [ahead, ← List.append_assoc, List.map_append, ← List.append_assoc]
    exact congrArg (· ++ [c]) hm.order
  · rw [List.nodup_append]
    refine ⟨hm.nodup, List.nodup_singleton c, ?_⟩
    intro a ha b hb
    rw [List.mem_singleton] at hb
    rw [hb]
    rintro rfl
    exact hfresh ha
  · intro d hd
    rcases List.mem_append.mp hd with hold | hc
    · exact hm.enqueued d hold
    · rw [List.mem_singleton] at hc
      rw [hc]
      exact ⟨_, hnew, rfl⟩
  · intro req hreq
    rw [← List.append_assoc] at hreq
    rcases List.mem_append.mp hreq with hold | hc
    · exact hm.waiting req hold
    · rw [List.mem_singleton] at hc
      rw [hc]
      exact ⟨_, hnew, rfl, rfl⟩
  · exact hm.offering
  · exact hm.sending
  · exact hm.failed

theorem recvRequest {req : OutboundRequest} {rest : List OutboundRequest}
    (h : Accounted calls (req :: rest) log (.streaming .waiting) streams) :
    Accounted calls rest log (.streaming (.dequeued req)) streams where
  order := h.order
  nodup := h.nodup
  enqueued := h.enqueued
  waiting := h.waiting
  offering r ok hphase := by cases hphase
  sending _ := h.sending rfl
  failed := h.failed

theorem failed_concat {pre : List Stream} {st st' : Stream} (h : Accounted calls queue log phase streams)
    (hpre : streams = pre ++ [st]) (hlast : st'.failed.length ≤ 1) : ∀ x ∈ pre ++ [st'], x.failed.length ≤ 1 := by
  intro x hx
  rcases List.mem_append.mp hx with hold | hx
  · exact h.failed x (by rw [hpre]; exact List.mem_append_left _ hold)
  · rw [List.mem_singleton.mp hx]
    exact hlast

/-- The message is accepted by the wire of the current stream. -/
theorem send {req : OutboundRequest} {st st' : Stream}
    (h : Accounted calls queue log (.streaming (.ready req)) streams)
    (hst : streams[streams.length - 1]? = some st) (hhanded : st'.handed = st.handed ++ [req.call])
    (hfailed : st'.failed = st.failed) :
    Accounted calls queue log (.streaming (.sent req true)) (streams.set (streams.length - 1) st') := by
  have hnone := h.sending rfl st hst
  obtain ⟨pre, hpre, hset⟩ := exists_set_last hst
  rw [hset]
  constructor
  · rw [h.order, hpre]
    simp [offered, ahead, Phase.inHand, Stream.offered, hhanded, hfailed, hnone]
  · exact h.nodup
  · exact h.enqueued
  · intro r hr
    exact h.waiting r (List.mem_append_right _ hr)
  · intro r ok hphase
    cases hphase
    refine ⟨h.waiting req (by simp [Phase.inHand]), st', by simp, ?_⟩
    simp [hhanded]
  · intro _ x hx
    have hxst : x = st' := by simpa using hx.symm
    rw [hxst, hfailed, hnone]
  · refine h.failed_concat hpre ?_
    rw [hfailed, hnone]
    exact Nat.zero_le 1

/-- The message is refused by the wire of the current stream. -/
theorem sendErr {req : OutboundRequest} {st st' : Stream}
    (h : Accounted calls queue log (.streaming (.ready req)) streams)
    (hst : streams[streams.length - 1]? = some st) (hhanded : st'.handed = st.handed)
    (hfailed : st'.failed = st.failed ++ [req.call]) :
    Accounted calls queue log (.streaming (.sent req false)) (streams.set (streams.length - 1) st') := by
  have hnone := h.sending rfl st hst
  obtain ⟨pre, hpre, hset⟩ := exists_set_last hst
  rw [hset]
  constructor
  · rw [h.order, hpre]
    simp [offered, ahead, Phase.inHand, Stream.offered, hhanded, hfailed, hnone]
  · exact h.nodup
  · exact h.enqueued
  · intro r hr
    exact h.waiting r (List.mem_append_right _ hr)
  · intro r ok hphase
    cases hphase
    refine ⟨h.waiting req (by simp [Phase.inHand]), st', by simp, ?_⟩
    simp [hfailed]
  · intro hphase
    cases hphase
  · refine h.failed_concat hpre ?_
    rw [hfailed, hnone]
    exact Nat.le_refl 1

theorem openStream (h : Accounted calls queue log .opening streams) (id : Nat) :
    Accounted calls queue log (.streaming .waiting) (streams ++ [Stream.open id]) where
  order := by
    rw [h.order]
    simp [offered, ahead, Phase.inHand, Stream.open, Stream.offered]
  nodup := h.nodup
  enqueued := h.enqueued
  waiting := h.waiting
  offering req ok hphase := by cases hphase
  sending _ st hst := by
    have hopen : st = Stream.open id := by simpa using hst.symm
    rw [hopen]
    rfl
  failed st hst := by
    rcases List.mem_append.mp hst with hold | hlast
    · exact h.failed st hold
    · rw [List.mem_singleton] at hlast
      rw [hlast]
      exact Nat.zero_le 1

end Accounted

def State.Accounted (s : State) : Prop := Node.Accounted s.calls s.queue s.log s.phase s.streams

variable {srv : Server} {peerAddr : Option String}

theorem accounted_init : init.Accounted where
  order := rfl
  nodup := List.nodup_nil
  enqueued c hc := by cases hc
  waiting req hreq := by cases hreq
  offering req ok hphase := by cases hphase
  sending hphase := by cases hphase
  failed st hst := by cases hst

theorem accounted_step (s : State) (a : Act) (t : State) (h : s.Accounted)
    (hstep : step srv peerAddr s a = some t) : t.Accounted := by
  rw [State.Accounted] at h ⊢
  cases moves_of_step hstep with
  | issue => exact h.mono (extends_append _ _)
  | nextSeq hcall hstage => exact h.mono (extends_set hcall (by rw [hstage]; decide))
  | registerStream hcall hkind hstage => exact h.mono (extends_set hcall (by rw [hstage]; decide))
  | refuse hcall hstage hphase => exact h.mono (extends_set hcall (ready_ne_enqueued hstage))
  | enqueue hcall hstage => exact h.enqueue hcall (ready_ne_enqueued hstage)
  | dropReceiver | dropHandles => exact h
  | recvRequest hphase hqueue =>
      rw [hphase, hqueue] at h
      exact h.recvRequest
  | send hphase hst hopen =>
      rw [hphase] at h
      exact h.send hst rfl rfl
  | sendErr hphase hst hopen =>
      rw [hphase] at h
      exact h.sendErr hst rfl rfl
  | @ack req c ok hphase htx =>
      rw [hphase] at h
      cases ok with
      | true => exact h.withPhase rfl rfl fun _ => rfl
      | false => exact h.withPhase rfl rfl fun hsend => by cases hsend
  | @skipAck req ok hphase htx =>
      rw [hphase] at h
      cases ok with
      | true => exact h.withPhase rfl rfl fun _ => rfl
      | false => exact h.withPhase rfl rfl fun hsend => by cases hsend
  | register hphase htx | pass hphase htx =>
      rw [hphase] at h
      exact h.withPhase rfl rfl fun _ => rfl
  | openOk hphase =>
      rw [hphase] at h
      exact h.openStream _
  | recvClosed hphase hqueue =>
      rw [hphase] at h
      exact h.withPhase rfl rfl fun hsend => by cases hsend
  | connectErr hphase | connectOk hphase | openErr hphase | retry hphase | announce hphase
  | cancel hphase =>
      rw [hphase] at h
      exact h.withPhase rfl rfl fun hsend => by cases hsend
  | abort hphase hst | close hphase hst =>
      rw [hphase] at h
      refine Accounted.setStream ?_ hst rfl rfl
      exact h.withPhase rfl rfl fun hsend => by cases hsend
  | closeWire hst | server hst hserver | fetch hst hmsg hrecv | fetchEnd hst hrecv
  | fetchErr hst hrecv | deliver hst hrecv | fail hst hrecv | stopRecv hst hrecv haborted =>
      exact h.setStream hst rfl rfl

/-! ### Acknowledgements -/

/-- An acknowledgement is `Ok` for a message handed over, `StreamDown` for one refused; the one of a
refused message is sent as soon as the sender has turned away from it. -/
structure Acked (kinds : List CallKind) (phase : Phase) (streams : List Stream)
    (acks : Nat → Mailbox (Except Error Unit)) : Prop where
  ok : ∀ c, .ok () ∈ (acks c).items → ∃ st ∈ streams, c ∈ st.handed
  error : ∀ c e, .error e ∈ (acks c).items → e = .streamDown
  down : ∀ (k : Nat) (st : Stream), streams[k]? = some st → ∀ c ∈ st.failed, kinds[c]? = some .oneWay →
    (k + 1 = streams.length ∧ ∃ req, phase.offering = some (req, false) ∧ req.call = c) ∨
      .error .streamDown ∈ (acks c).items ∨ (acks c).dropped = true

namespace Acked

variable {kinds kinds' : List CallKind} {phase phase' : Phase} {streams : List Stream}
  {acks : Nat → Mailbox (Except Error Unit)}

theorem withKinds (h : Acked kinds phase streams acks)
    (hkinds : ∀ c ∈ offered streams, kinds'[c]? = kinds[c]?) : Acked kinds' phase streams acks where
  ok := h.ok
  error := h.error
  down k st hst c hc hkind := by
    have hmem : c ∈ offered streams :=
      List.mem_flatMap.mpr ⟨st, List.mem_of_getElem? hst, List.mem_append_right _ hc⟩
    exact h.down k st hst c hc (hkinds c hmem ▸ hkind)

theorem withPhase (h : Acked kinds phase streams acks) (hoffer : phase.offering = none) :
    Acked kinds phase' streams acks where
  ok := h.ok
  error := h.error
  down k st hst c hc hkind := by
    rcases h.down k st hst c hc hkind with ⟨-, req, hreq, -⟩ | hdone
    · rw [hoffer] at hreq
      cases hreq
    · exact Or.inr hdone

/-- A stream changes: more was handed over on it, nothing else failed. -/
theorem setStream (h : Acked kinds phase streams acks) {k : Nat} {st st' : Stream}
    (hst : streams[k]? = some st) (hhanded : ∀ c ∈ st.handed, c ∈ st'.handed)
    (hfailed : st'.failed = st.failed) : Acked kinds phase (streams.set k st') acks where
  ok c hc := exists_mem_set hst (hhanded c) (h.ok c hc)
  error := h.error
  down j x hx c hc hkind := by
    rw [List.length_set]
    rcases getElem?_set_cases hx with ⟨rfl, rfl⟩ | ⟨-, hold⟩
    · rw [hfailed] at hc
      exact h.down j st hst c hc hkind
    · exact h.down j x hold c hc hkind

/-- The wire of the current stream refuses a message. -/
theorem sendErr {req : OutboundRequest} (h : Acked kinds (.streaming (.ready req)) streams acks)
    {st st' : Stream} (hst : streams[streams.length - 1]? = some st) (hhanded : st'.handed = st.handed)
    (hfailed : st'.failed = st.failed ++ [req.call]) :
    Acked kinds (.streaming (.sent req false)) (streams.set (streams.length - 1) st') acks where
  ok c hc := by
    refine exists_mem_set hst ?_ (h.ok c hc)
    rw [hhanded]
    exact id
  error := h.error
  down j x hx c hc hkind := by
    have hlt := (List.getElem?_eq_some_iff.mp hst).1
    have hold : Acked kinds (.streaming (.sent req false)) streams acks := h.withPhase rfl
    rw [List.length_set]
    rcases getElem?_set_cases hx with ⟨rfl, rfl⟩ | ⟨-, hx⟩
    · rw [hfailed, List.mem_append, List.mem_singleton] at hc
      rcases hc with hc | rfl
      · exact hold.down _ st hst c hc hkind
      · exact Or.inl ⟨by omega, req, rfl, rfl⟩
    · exact hold.down j x hx c hc hkind

theorem openStream (h : Acked kinds .opening streams acks) (id : Nat) :
    Acked kinds (.streaming .waiting) (streams ++ [Stream.open id]) acks where
  ok c hc := by
    obtain ⟨st, hst, hmem⟩ := h.ok c hc
    exact ⟨st, List.mem_append_left _ hst, hmem⟩
  error := h.error
  down k st hst c hc hkind := by
    rcases getElem?_append_cases hst with hold | ⟨-, rfl⟩
    · rcases h.down k st hold c hc hkind with ⟨-, req, hreq, -⟩ | hdone
      · cases hreq
      · exact Or.inr hdone
    · cases hc

theorem dropReceiver (h : Acked kinds phase streams acks) (d : Nat) :
    Acked kinds phase streams (Function.update acks d (acks d).drop) := by
  have hitems : ∀ c, (Function.update acks d (acks d).drop c).items = (acks c).items := by
    intro c
    by_cases hc : c = d
    · rw [hc, Function.update_self, Mailbox.items_drop]
    · rw [Function.update_of_ne hc]
  constructor
  · intro c hc
    rw [hitems] at hc
    exact h.ok c hc
  · intro c e hc
    rw [hitems] at hc
    exact h.error c e hc
  · intro k st hst c hc hkind
    rw [hitems]
    by_cases hcd : c = d
    · rw [hcd, Function.update_self]
      exact Or.inr (Or.inr rfl)
    · rw [Function.update_of_ne hcd]
      exact h.down k st hst c hc hkind

/-- The acknowledgement itself. -/
theorem ack {req : OutboundRequest} {ok : Bool} (h : Acked kinds (.streaming (.sent req ok)) streams acks)
    (hsent : ∃ st ∈ streams, req.call ∈ if ok then st.handed else st.failed) :
    Acked kinds phase' streams (Function.update acks req.call
      ((acks req.call).send (if ok then .ok () else .error .streamDown)).close) := by
  have hnew : ∀ c x, x ∈ (Function.update acks req.call
      ((acks req.call).send (if ok then .ok () else .error .streamDown)).close c).items →
      x ∈ (acks c).items ∨ (c = req.call ∧ x = if ok then .ok () else .error .streamDown) := by
    intro c x hx
    by_cases hc : c = req.call
    · rw [hc, Function.update_self, Mailbox.items_close] at hx
      rw [hc]
      exact (Mailbox.mem_items_send hx).imp_right fun h => ⟨rfl, h⟩
    · rw [Function.update_of_ne hc] at hx
      exact Or.inl hx
  constructor
  · intro c hc
    rcases hnew c _ hc with hold | ⟨rfl, hres⟩
    · exact h.ok c hold
    · cases ok with
      | true => exact hsent
      | false => cases hres
  · intro c e hc
    rcases hnew c _ hc with hold | ⟨rfl, hres⟩
    · exact h.error c e hold
    · cases ok with
      | true => cases hres
      | false =>
          cases hres
          rfl
  · intro k st hst c hc hkind
    right
    by_cases hcr : c = req.call
    · rw [hcr, Function.update_self, Mailbox.items_close, Mailbox.dropped_close]
      rw [hcr] at hc hkind
      rcases h.down k st hst req.call hc hkind with ⟨-, r, hr, -⟩ | hmem | hdrop
      · cases hr
        exact Mailbox.mem_items_send_self _ _
      · exact Or.inl (Mailbox.mem_items_send_of_mem _ hmem)
      · rw [Mailbox.dropped_send]
        exact Or.inr hdrop
    · rw [Function.update_of_ne hcr]
      rcases h.down k st hst c hc hkind with ⟨-, r, hr, hrc⟩ | hdone
      · cases hr
        exact absurd hrc.symm hcr
      · exact hdone

end Acked

def State.Acked (s : State) : Prop := Node.Acked (s.calls.map Call.kind) s.phase s.streams s.acks

theorem acked_init : init.Acked where
  ok c hc := by cases hc
  error c e hc := by cases hc
  down k st hst := by simp [init] at hst

/-- A call that was offered to a stream is there, and keeps its kind when others are added. -/
theorem State.Accounted.kinds_append {s : State} (hacc : s.Accounted) (calls : List Call) :
    ∀ c ∈ Node.offered s.streams,
      ((s.calls ++ calls).map Call.kind)[c]? = (s.calls.map Call.kind)[c]? := by
  intro c hc
  have hlog : c ∈ s.log := by
    rw [Node.Accounted.order hacc]
    exact List.mem_append_left _ hc
  obtain ⟨call, hcall, -⟩ := Node.Accounted.enqueued hacc c hlog
  rw [List.getElem?_map, List.getElem?_map, getElem?_append_of_some hcall, hcall]

theorem acked_step (s : State) (a : Act) (t : State) (hacc : s.Accounted) (h : s.Acked)
    (hstep : step srv peerAddr s a = some t) : t.Acked := by
  rw [State.Acked] at h ⊢
  cases moves_of_step hstep with
  | issue => exact h.withKinds (hacc.kinds_append _)
  | nextSeq hcall hstage | registerStream hcall hkind hstage | refuse hcall hstage hphase
  | enqueue hcall hstage =>
      refine h.withKinds fun c _ => congrArg (fun kinds => kinds[c]?) ?_
      exact map_set_of_eq hcall rfl
  | dropReceiver => exact h.dropReceiver _
  | dropHandles => exact h
  | send hphase hst hopen =>
      refine Acked.setStream ?_ hst (fun c hc => List.mem_append_left _ hc) rfl
      exact h.withPhase (by rw [hphase]; rfl)
  | sendErr hphase hst hopen =>
      rw [hphase] at h
      exact h.sendErr hst rfl rfl
  | @ack req c ok hphase htx =>
      rw [hphase] at h
      obtain ⟨⟨call, -, -, hreq⟩, hsent⟩ := Node.Accounted.offering hacc req ok (by rw [hphase]; rfl)
      rw [hreq] at htx
      rw [(sendAck_request htx).1]
      exact h.ack hsent
  | @skipAck req ok hphase htx =>
      obtain ⟨⟨call, hcall, -, hreq⟩, -⟩ := Node.Accounted.offering hacc req ok (by rw [hphase]; rfl)
      refine ⟨h.ok, h.error, fun k st hst c hc hkind => ?_⟩
      rcases h.down k st hst c hc hkind with ⟨-, r, hr, hrc⟩ | hdone
      · rw [hphase] at hr
        cases hr
        have honeWay : call.kind = .oneWay := by
          rw [← hrc, List.getElem?_map, hcall] at hkind
          exact Option.some.inj hkind
        rw [hreq, Call.request, if_pos honeWay] at htx
        cases htx
      · exact Or.inr hdone
  | openOk hphase =>
      rw [hphase] at h
      exact h.openStream _
  | recvRequest hphase hqueue | recvClosed hphase hqueue | register hphase htx | pass hphase htx =>
      exact h.withPhase (by rw [hphase]; rfl)
  | connectErr hphase | connectOk hphase | openErr hphase | retry hphase | announce hphase
  | cancel hphase =>
      exact h.withPhase (by rw [hphase]; rfl)
  | abort hphase hst | close hphase hst =>
      refine Acked.setStream ?_ hst (fun c hc => hc) rfl
      exact h.withPhase (by rw [hphase]; rfl)
  | closeWire hst | server hst hserver | fetch hst hmsg hrecv | fetchEnd hst hrecv
  | fetchErr hst hrecv | deliver hst hrecv | fail hst hrecv | stopRecv hst hrecv haborted =>
      exact h.setStream hst (fun c hc => hc) rfl

end Quorums.Node
