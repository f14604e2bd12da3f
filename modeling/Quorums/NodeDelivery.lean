import Quorums.NodeReplies

/-! The send queue and what becomes of its requests: handed over in enqueue order, each at most once, and
when the wire refuses one, its acknowledgement and its pending entry are resolved with an error before
the next stream is opened. -/

namespace Quorums.Node

open Server ListUpdate

/-- From a refused send to the end of `cancel_all`. -/
def Phase.dying : Phase → Bool
  | .streaming (.sent _ ok) => !ok
  | .died | .aborted | .cancelling => true
  | _ => false

/-- The calls whose messages were handed to the wire, stream after stream. -/
def handedOver (streams : List Stream) : List Nat := streams.flatMap Stream.handed

/-- The caller was sent an error, or has stopped looking. -/
def Failed (b : Mailbox Reply) : Prop := (∃ e, .error e ∈ b.items) ∨ b.dropped = true

/-- The registration of the call with the router has taken place. -/
def Registered (started : List Nat) (c : Nat) (call : Call) : Prop :=
  (call.kind = .oneShot ∧ c ∈ started) ∨
    (call.kind = .streaming ∧ call.stage ≠ .issued ∧ call.stage ≠ .numbered)

theorem failed_send_error (b : Mailbox Reply) (e : Error) : Failed (b.send (.error e)).close := by
  rcases Mailbox.mem_items_send_self b (.error e) with hmem | hdrop
  · exact Or.inl ⟨e, hmem⟩
  · exact Or.inr hdrop

/-- A registered call that was not handed over has its entry, or has failed. -/
def Kept (calls : List Call) (started handed : List Nat) (router : Router) : Prop :=
  ∀ (c : Nat) (call : Call), calls[c]? = some call → Registered started c call → c ∉ handed →
    (∃ p, router.inner.lookup call.seq = some p ∧ p.caller = c) ∨ Failed (router.boxes c)

namespace Kept

variable {calls calls' : List Call} {started started' handed handed' : List Nat} {router router' : Router}

theorem withCalls (h : Kept calls started handed router)
    (hcalls : ∀ (c : Nat) (call' : Call), calls'[c]? = some call' → Registered started c call' →
      ∃ call, calls[c]? = some call ∧ Registered started c call ∧ call.seq = call'.seq) :
    Kept calls' started handed router := by
  intro c call' hcall' hreg' hc
  obtain ⟨call, hcall, hreg, hseq⟩ := hcalls c call' hcall' hreg'
  rw [← hseq]
  exact h c call hcall hreg hc

theorem withStarted (h : Kept calls started handed router)
    (hstarted : ∀ (c : Nat) (call : Call), calls[c]? = some call → call.kind = .oneShot →
      c ∈ started' → c ∈ started)
    (hhanded : ∀ c ∈ handed, c ∈ handed') : Kept calls started' handed' router := by
  intro c call hcall hreg hc
  refine h c call hcall ?_ fun hmem => hc (hhanded c hmem)
  exact hreg.imp_left fun hone => ⟨hone.1, hstarted c call hcall hone.1 hone.2⟩

/-- The routers agree on every call that was not handed over. -/
theorem withRouter (h : Kept calls started handed router)
    (hrouter : ∀ c, c ∉ handed → Undisturbed c router router') : Kept calls started handed router' := by
  intro c call hcall hreg hc
  obtain ⟨hbox, hlookup⟩ := hrouter c hc
  rw [hbox]
  exact (h c call hcall hreg hc).imp_left fun ⟨p, hp, hpc⟩ => ⟨p, (hlookup _ p hpc).mpr hp, hpc⟩

/-- A call is registered under its own, free number. -/
theorem insert {c seq : Nat} {call : Call} {p : PendingCall} (hcall : calls[c]? = some call)
    (hseq : call.seq = seq) (hfree : router.inner.lookup seq = none) (hp : p.caller = c)
    (h : ∀ (d : Nat) (x : Call), d ≠ c → calls[d]? = some x → Registered started d x → d ∉ handed →
      (∃ q, router.inner.lookup x.seq = some q ∧ q.caller = d) ∨ Failed (router.boxes d)) :
    Kept calls started handed (router.insert seq p) := by
  intro d x hx hreg hd
  rw [Router.insert_of_lookup_none hfree]
  by_cases hdc : d = c
  · left
    rw [hdc, hcall, Option.some.injEq] at hx
    rw [← hx, hdc, hseq]
    exact ⟨p, AList.lookup_insert _, hp⟩
  · refine (h d x hdc hx hreg hd).imp_left ?_
    rintro ⟨q, hq, hqd⟩
    refine ⟨q, ?_, hqd⟩
    have hne : x.seq ≠ seq := by
      intro heq
      rw [heq, hfree] at hq
      cases hq
    rw [← hq]
    exact AList.lookup_insert_ne hne

theorem dropReceiver (h : Kept calls started handed router) (d : Nat) :
    Kept calls started handed (router.onBox d Mailbox.drop) := by
  intro c call hcall hreg hc
  refine (h c call hcall hreg hc).imp id fun hfailed => ?_
  by_cases hcd : c = d
  · rw [hcd, Router.boxes_onBox_self]
    exact Or.inr rfl
  · rw [Router.boxes_onBox_of_ne hcd]
    exact hfailed

theorem cancelAll (h : Kept calls started handed router) (hnodup : router.callers.Nodup) (err : Error) :
    Kept calls started handed (router.cancelAll err) := by
  intro c call hcall hreg hc
  right
  by_cases hmem : c ∈ router.callers
  · rw [Router.boxes_cancelAll_of_mem hnodup hmem]
    exact failed_send_error _ _
  · rw [Router.boxes_cancelAll_of_not_mem hmem]
    rcases h c call hcall hreg hc with ⟨p, hp, hpc⟩ | hfailed
    · exact absurd (Router.mem_callers.mpr ⟨_, p, hp, hpc⟩) hmem
    · exact hfailed

end Kept

theorem NotPending.receive {r : Router} {c : Nat} (h : NotPending r c) (msg : Message) :
    NotPending (r.receive msg) c := fun seq p hp => h seq p (Router.lookup_receive_some hp)

theorem NotPending.insert {r : Router} {c seq : Nat} {p : PendingCall} (h : NotPending r c)
    (hfree : r.inner.lookup seq = none) (hp : p.caller ≠ c) : NotPending (r.insert seq p) c := by
  intro seq' q hq
  rcases Router.lookup_insert_cases hfree hq with ⟨-, rfl⟩ | ⟨-, hold⟩
  · exact hp
  · exact h seq' q hold

theorem NotPending.cancelAll (r : Router) (c : Nat) (err : Error) : NotPending (r.cancelAll err) c := by
  intro seq p hp
  rw [Router.lookup_cancelAll] at hp
  cases hp

/-- A refused call has no entry left once `cancel_all` has run for its stream. -/
def Gone (streams : List Stream) (phase : Phase) (router : Router) : Prop :=
  ∀ (k : Nat) (st : Stream), streams[k]? = some st → ∀ c ∈ st.failed,
    (k + 1 = streams.length ∧ phase.dying = true) ∨ NotPending router c

namespace Gone

variable {streams : List Stream} {phase phase' : Phase} {router router' : Router}

theorem withPhase (h : Gone streams phase router)
    (hphase : phase.dying = true → phase'.dying = true) : Gone streams phase' router :=
  fun k st hst c hc => (h k st hst c hc).imp_left fun hlast => ⟨hlast.1, hphase hlast.2⟩

/-- Entries come and go; none is added for a call that was offered before. -/
theorem withRouter (h : Gone streams phase router)
    (hrouter : ∀ c ∈ offered streams, NotPending router c → NotPending router' c) :
    Gone streams phase router' := by
  intro k st hst c hc
  refine (h k st hst c hc).imp_right (hrouter c ?_)
  exact List.mem_flatMap.mpr ⟨st, List.mem_of_getElem? hst, List.mem_append_right _ hc⟩

theorem setStream (h : Gone streams phase router) {k : Nat} {st st' : Stream}
    (hst : streams[k]? = some st) (hfailed : st'.failed = st.failed) :
    Gone (streams.set k st') phase router := by
  intro j x hx c hc
  rw [List.length_set]
  rcases getElem?_set_cases hx with ⟨rfl, rfl⟩ | ⟨-, hold⟩
  · rw [hfailed] at hc
    exact h j st hst c hc
  · exact h j x hold c hc

theorem sendErr {req : OutboundRequest} (h : Gone streams (.streaming (.ready req)) router)
    {st st' : Stream} (hst : streams[streams.length - 1]? = some st)
    (hfailed : st'.failed = st.failed ++ [req.call]) :
    Gone (streams.set (streams.length - 1) st') (.streaming (.sent req false)) router := by
  intro j x hx c hc
  have hlt := (List.getElem?_eq_some_iff.mp hst).1
  rw [List.length_set]
  rcases getElem?_set_cases hx with ⟨rfl, rfl⟩ | ⟨-, hold⟩
  · exact Or.inl ⟨by omega, rfl⟩
  · rcases h j x hold c hc with ⟨-, hdying⟩ | hnot
    · cases hdying
    · exact Or.inr hnot

theorem openStream (h : Gone streams .opening router) (id : Nat) :
    Gone (streams ++ [Stream.open id]) (.streaming .waiting) router := by
  intro k st hst c hc
  rcases getElem?_append_cases hst with hold | ⟨-, rfl⟩
  · rcases h k st hold c hc with ⟨-, hdying⟩ | hnot
    · cases hdying
    · exact Or.inr hnot
  · cases hc

end Gone

/-! ### Every step -/

def State.Kept (s : State) : Prop :=
  Node.Kept s.calls (started s.phase s.streams) (handedOver s.streams) s.router

def State.Gone (s : State) : Prop := Node.Gone s.streams s.phase s.router

theorem kept_init : init.Kept := by
  intro c call hcall
  simp [init] at hcall

theorem gone_init : init.Gone := by
  intro k st hst
  simp [init] at hst

theorem mem_handedOver_set {streams : List Stream} {k c : Nat} {st st' : Stream}
    (hst : streams[k]? = some st) (hsub : c ∈ st.handed → c ∈ st'.handed)
    (hc : c ∈ handedOver streams) : c ∈ handedOver (streams.set k st') := by
  rw [handedOver, List.mem_flatMap] at hc ⊢
  exact exists_mem_set hst hsub hc

/-- A started call is enqueued. -/
theorem State.Accounted.enqueued_of_started {s : State} (hacc : s.Accounted) {c : Nat} {call : Call}
    (hcall : s.calls[c]? = some call) (hc : c ∈ started s.phase s.streams) :
    call.stage = .enqueued := by
  obtain ⟨x, hx, hstage⟩ := Node.Accounted.enqueued hacc c (hacc.mem_log_of_started hc)
  rw [Option.some.inj (hcall.symm.trans hx)]
  exact hstage

variable {srv : Server} {peerAddr : Option String}

theorem offered_of_started {phase : Phase} {streams : List Stream} {c : Nat}
    (hphase : phase.registered = []) (hc : c ∈ started phase streams) : c ∈ offered streams := by
  rw [started, hphase, List.append_nil] at hc
  exact hc

theorem Kept.withPhase {calls : List Call} {phase phase' : Phase} {streams : List Stream}
    {handed : List Nat} {router : Router} (h : Kept calls (started phase streams) handed router)
    (hphase : phase'.registered = []) : Kept calls (started phase' streams) handed router :=
  h.withStarted (fun _ _ _ _ hc => List.mem_append_left _ (offered_of_started hphase hc)) fun _ hc => hc

/-- A stream changes in what has nothing to do with the calls offered to it. -/
theorem Kept.setStream {calls : List Call} {phase : Phase} {streams : List Stream} {router : Router}
    {k : Nat} {st st' : Stream}
    (h : Kept calls (started phase streams) (handedOver streams) router) (hst : streams[k]? = some st)
    (hhanded : st'.handed = st.handed) (hfailed : st'.failed = st.failed) :
    Kept calls (started phase (streams.set k st')) (handedOver (streams.set k st')) router := by
  have hoffered : st'.offered = st.offered := by rw [Stream.offered, hhanded, hfailed, Stream.offered]
  rw [started, offered, flatMap_set_of_eq hst hoffered, handedOver, flatMap_set_of_eq hst hhanded]
  exact h

/-- The call that is offered next was registered before. -/
theorem started_of_offered_set {req : OutboundRequest} {streams : List Stream} {k c : Nat}
    {st st' : Stream} (hst : streams[k]? = some st)
    (hoffered : ∀ d ∈ st'.offered, d ∈ st.offered ∨ d = req.call) (hc : c ∈ offered (streams.set k st')) :
    c ∈ started (.streaming (.ready req)) streams := by
  rw [started, List.mem_append, Phase.registered, List.mem_singleton]
  rw [offered, List.mem_flatMap] at hc
  obtain ⟨x, hx, hcx⟩ := hc
  rcases List.mem_or_eq_of_mem_set hx with hold | rfl
  · exact Or.inl (List.mem_flatMap.mpr ⟨x, hold, hcx⟩)
  · refine (hoffered c hcx).imp_left fun hcst => ?_
    exact List.mem_flatMap.mpr ⟨st, List.mem_of_getElem? hst, hcst⟩

theorem State.Inv.nodup_callers {s : State} (h : s.Inv srv peerAddr) : s.router.callers.Nodup :=
  Router.nodup_callers fun _ _ _ _ hp hq hcaller => Node.Routed.seq_unique h.routed hp hq hcaller

/-- A message in the hand of a receive loop leaves alone whoever was not handed over. -/
theorem State.Inv.undisturbed {s : State} (h : s.Inv srv peerAddr) {k : Nat} {st : Stream} {msg : Message}
    (hst : s.streams[k]? = some st) (hrecv : st.recv = .holding msg) {c : Nat}
    (hc : c ∉ handedOver s.streams) : Undisturbed c s.router (s.router.receive msg) := by
  have hmem := List.mem_of_getElem? hst
  obtain ⟨i, hi⟩ := (h.wired st hmem).held msg hrecv
  obtain ⟨d, hans⟩ := (h.wired st hmem).answers hi
  apply undisturbed_receive
  rintro p hp rfl
  rw [h.routed.caller_eq h.numbered hans hp] at hc
  obtain ⟨j, call, hj, -⟩ := hans
  exact hc (List.mem_flatMap.mpr ⟨st, hmem, List.mem_of_getElem? hj⟩)

theorem kept_step {s t : State} {a : Act} (h : s.Inv srv peerAddr) (hk : s.Kept)
    (hstep : step srv peerAddr s a = some t) : t.Kept := by
  rw [State.Kept] at hk ⊢
  cases moves_of_step hstep with
  | issue =>
      refine hk.withCalls fun c x hx hreg => ?_
      rcases getElem?_append_cases hx with hold | ⟨hlen, rfl⟩
      · exact ⟨x, hold, hreg, rfl⟩
      · rcases hreg with ⟨-, hstarted⟩ | ⟨-, hissued, -⟩
        · have := h.accounted.lt_of_started c hstarted
          omega
        · exact absurd rfl hissued
  | @nextSeq c call hcall hstage =>
      refine hk.withCalls fun d x hx hreg => ?_
      rcases getElem?_set_cases hx with ⟨rfl, rfl⟩ | ⟨-, hold⟩
      · rcases hreg with ⟨-, hstarted⟩ | ⟨-, -, hnumbered⟩
        · rw [h.accounted.enqueued_of_started hcall hstarted] at hstage
          cases hstage
        · exact absurd rfl hnumbered
      · exact ⟨x, hold, hreg, rfl⟩
  | @registerStream c call hcall hkind hstage =>
      have hfree := State.Routed.lookup_registerStream h.numbered h.routed hcall hkind hstage
      have hnew := getElem?_set_of_some (y := { call with stage := .registered }) hcall
      refine Kept.insert hnew rfl hfree rfl ?_
      intro d x hdc hx hreg hd
      rcases getElem?_set_cases hx with ⟨rfl, -⟩ | ⟨-, hold⟩
      · exact absurd rfl hdc
      · exact hk d x hold hreg hd
  | @refuse c call hcall hstage hphase | @enqueue c call hcall hstage =>
      refine hk.withCalls fun d x hx hreg => ?_
      rcases getElem?_set_cases hx with ⟨rfl, rfl⟩ | ⟨-, hold⟩
      · refine ⟨call, hcall, ?_, rfl⟩
        rcases hreg with ⟨-, hstarted⟩ | ⟨hkind, -, -⟩
        · exact absurd (h.accounted.enqueued_of_started hcall hstarted) (ready_ne_enqueued hstage)
        · rw [if_pos hkind] at hstage
          exact Or.inr ⟨hkind, by rw [hstage]; decide, by rw [hstage]; decide⟩
      · exact ⟨x, hold, hreg, rfl⟩
  | dropReceiver => exact hk.dropReceiver _
  | dropHandles => exact hk
  | @register req c hphase htx =>
      obtain ⟨call, hc, hcall, hstage, hkind, hmsg, hnot, hfree⟩ :=
        State.Routed.lookup_register h.accounted h.numbered h.routed hphase htx
      rw [hmsg]
      refine Kept.insert hcall rfl hfree rfl ?_
      intro d x hdc hx hreg hd
      refine hk d x hx (hreg.imp_left fun hone => ⟨hone.1, ?_⟩) hd
      rcases List.mem_append.mp hone.2 with hold | hnew
      · exact List.mem_append_left _ hold
      · rw [Phase.registered, List.mem_singleton, ← hc] at hnew
        exact absurd hnew hdc
  | @pass req hphase htx =>
      refine hk.withStarted (fun c call hcall hkind hc => ?_) fun c hc => hc
      rcases List.mem_append.mp hc with hold | hnew
      · exact List.mem_append_left _ hold
      · rw [Phase.registered, List.mem_singleton] at hnew
        obtain ⟨x, hx, -, hreq⟩ := Node.Accounted.waiting h.accounted req (by simp [hphase, Phase.inHand])
        rw [← hnew, hcall, Option.some.injEq] at hx
        rw [hreq, ← hx, Call.request, if_pos hkind] at htx
        cases htx
  | send hphase hst hopen =>
      rw [hphase] at hk
      refine hk.withStarted (fun c call hcall hkind hc => ?_) fun c hc =>
        mem_handedOver_set hst (fun hold => List.mem_append_left _ hold) hc
      refine started_of_offered_set hst (fun d hd => ?_) (offered_of_started rfl hc)
      simp only [Stream.offered, List.mem_append, List.mem_singleton] at hd ⊢
      tauto
  | sendErr hphase hst hopen =>
      rw [hphase] at hk
      refine hk.withStarted (fun c call hcall hkind hc => ?_) fun c hc =>
        mem_handedOver_set hst (fun hold => hold) hc
      refine started_of_offered_set hst (fun d hd => ?_) (offered_of_started rfl hc)
      simp only [Stream.offered, List.mem_append, List.mem_singleton] at hd ⊢
      tauto
  | openOk hphase =>
      refine hk.withStarted (fun c call hcall hkind hc => ?_) fun c hc => ?_
      · refine List.mem_append_left _ ?_
        simpa [offered, Stream.open, Stream.offered] using offered_of_started rfl hc
      · rw [handedOver, List.flatMap_append]
        exact List.mem_append_left _ hc
  | cancel hphase => exact Kept.withPhase (hk.cancelAll h.nodup_callers _) rfl
  | @ack req c ok hphase htx | @skipAck req ok hphase htx =>
      cases ok with
      | true => exact hk.withPhase rfl
      | false => exact hk.withPhase rfl
  | recvRequest hphase hqueue | recvClosed hphase hqueue => exact hk.withPhase rfl
  | connectErr hphase | connectOk hphase | openErr hphase | retry hphase | announce hphase =>
      exact hk.withPhase rfl
  | abort hphase hst | close hphase hst => exact Kept.setStream (hk.withPhase rfl) hst rfl rfl
  | closeWire hst | server hst hserver | fetch hst hmsg hrecv | fetchEnd hst hrecv
  | fetchErr hst hrecv | stopRecv hst hrecv haborted => exact hk.setStream hst rfl rfl
  | deliver hst hrecv =>
      exact Kept.setStream (hk.withRouter fun c hc => h.undisturbed hst hrecv hc) hst rfl rfl
  | fail hst hrecv => exact Kept.setStream (hk.cancelAll h.nodup_callers _) hst rfl rfl

theorem gone_step {s t : State} {a : Act} (h : s.Inv srv peerAddr) (hg : s.Gone)
    (hstep : step srv peerAddr s a = some t) : t.Gone := by
  have hstarted : ∀ c ∈ offered s.streams, c ∈ started s.phase s.streams :=
    fun c hc => List.mem_append_left _ hc
  rw [State.Gone] at hg ⊢
  cases moves_of_step hstep with
  | issue | nextSeq | refuse | enqueue | dropHandles => exact hg
  | dropReceiver => exact hg.withRouter fun c _ hnot => hnot
  | @registerStream c call hcall hkind hstage =>
      refine hg.withRouter fun d hd hnot => ?_
      refine hnot.insert (State.Routed.lookup_registerStream h.numbered h.routed hcall hkind hstage) ?_
      rintro rfl
      rw [h.accounted.enqueued_of_started hcall (hstarted c hd)] at hstage
      cases hstage
  | @register req c hphase htx =>
      obtain ⟨call, hc, hcall, hstage, hkind, hmsg, hnot, hfree⟩ :=
        State.Routed.lookup_register h.accounted h.numbered h.routed hphase htx
      rw [hmsg]
      refine Gone.withRouter (hg.withPhase fun hdying => ?_) fun d hd hd' => hd'.insert hfree ?_
      · rw [hphase] at hdying
        cases hdying
      · rintro rfl
        exact hnot (hstarted c hd)
  | send hphase hst hopen =>
      refine Gone.setStream (hg.withPhase fun hdying => ?_) hst rfl
      rw [hphase] at hdying
      cases hdying
  | sendErr hphase hst hopen =>
      rw [hphase] at hg
      exact hg.sendErr hst rfl
  | @ack req c ok hphase htx | @skipAck req ok hphase htx =>
      refine hg.withPhase fun hdying => ?_
      rw [hphase] at hdying
      cases ok with
      | true => cases hdying
      | false => rfl
  | openOk hphase =>
      rw [hphase] at hg
      exact hg.openStream _
  | cancel hphase => exact fun k st _ c _ => Or.inr (NotPending.cancelAll _ c _)
  | announce hphase => exact hg.withPhase fun _ => rfl
  | abort hphase hst => exact Gone.setStream (hg.withPhase fun _ => rfl) hst rfl
  | close hphase hst =>
      refine Gone.setStream (hg.withPhase fun hdying => ?_) hst rfl
      rw [hphase] at hdying
      cases hdying
  | recvRequest hphase hqueue | recvClosed hphase hqueue | pass hphase htx =>
      refine hg.withPhase fun hdying => ?_
      rw [hphase] at hdying
      cases hdying
  | connectErr hphase | connectOk hphase | openErr hphase | retry hphase =>
      refine hg.withPhase fun hdying => ?_
      rw [hphase] at hdying
      cases hdying
  | closeWire hst | server hst hserver | fetch hst hmsg hrecv | fetchEnd hst hrecv
  | fetchErr hst hrecv | stopRecv hst hrecv haborted => exact hg.setStream hst rfl
  | deliver hst hrecv =>
      exact (hg.withRouter fun c _ hnot => hnot.receive _).setStream hst rfl
  | fail hst hrecv =>
      exact (hg.withRouter fun c _ _ => NotPending.cancelAll _ c _).setStream hst rfl

/-! ### The send queue -/

/-- The messages put on the wire of a stream, in order. -/
def Stream.wire (st : Stream) : List Message := st.server.tasks.map Task.msg ++ st.server.inbound

/-- The acknowledgement says `StreamDown` and nothing else, or nobody waits for it. -/
def AckedDown (b : Mailbox (Except Error Unit)) : Prop :=
  (∀ x ∈ b.items, x = .error .streamDown) ∧ (.error .streamDown ∈ b.items ∨ b.dropped = true)

/-- A refused call is over: a one-way call by its acknowledgement, another one by an error and without
an entry in the router. -/
def Resolved (s : State) (c : Nat) (call : Call) : Prop :=
  if call.kind = .oneWay then AckedDown (s.acks c)
  else NotPending s.router c ∧ Failed (s.router.boxes c)

theorem handedOver_sublist_offered (streams : List Stream) :
    List.Sublist (handedOver streams) (offered streams) := by
  induction streams with
  | nil => exact List.Sublist.refl _
  | cons st streams ih =>
      rw [handedOver, List.flatMap_cons, offered, List.flatMap_cons]
      exact (List.sublist_append_left st.handed st.failed).append ih

/-- What a stream refused no stream took. -/
theorem not_handedOver_of_failed {streams : List Stream} (hnodup : (offered streams).Nodup)
    {st : Stream} {c : Nat} (hst : st ∈ streams) (hc : c ∈ st.failed) : c ∉ handedOver streams := by
  induction streams with
  | nil => cases hst
  | cons x streams ih =>
      rw [offered, List.flatMap_cons, List.nodup_append] at hnodup
      obtain ⟨hx, hrest, hdisj⟩ := hnodup
      rw [handedOver, List.flatMap_cons, List.mem_append, not_or]
      rcases List.mem_cons.mp hst with rfl | hmem
      · constructor
        · intro hhanded
          rw [Stream.offered, List.nodup_append] at hx
          exact hx.2.2 c hhanded c hc rfl
        · intro hlater
          have hoff := (handedOver_sublist_offered streams).subset hlater
          exact hdisj c (List.mem_append_right _ hc) c hoff rfl
      · have hoff : c ∈ offered streams :=
          List.mem_flatMap.mpr ⟨st, hmem, List.mem_append_right _ hc⟩
        refine ⟨fun hhanded => ?_, ih hrest hmem⟩
        exact hdisj c (List.mem_append_left _ hhanded) c hoff rfl

theorem delivery_run {acts : List Act} {s : State}
    (hrun : Transition.run (step srv peerAddr) init acts = some s) (hbound : s.calls.length ≤ 2 ^ 64) :
    s.Inv srv peerAddr ∧ s.Kept ∧ s.Gone := by
  refine Transition.run_invariant
    (P := fun s => s.calls.length ≤ 2 ^ 64 → s.Inv srv peerAddr ∧ s.Kept ∧ s.Gone)
    (fun s a t h hstep ht => ?_) (fun _ => ⟨node_inv_init, kept_init, gone_init⟩) hrun hbound
  have hs := Nat.le_trans (length_calls_step hstep) ht
  obtain ⟨hinv, hkept, hgone⟩ := h hs
  exact ⟨node_inv_step hinv hs hstep, kept_step hinv hkept hstep, gone_step hinv hgone hstep⟩

theorem State.Inv.nodup_offered {s : State} (h : s.Inv srv peerAddr) : (offered s.streams).Nodup := by
  have hnodup := Node.Accounted.nodup h.accounted
  rw [Node.Accounted.order h.accounted] at hnodup
  exact (List.nodup_append.mp hnodup).1

/-- The acknowledgement of a refused one-way call. -/
theorem State.Inv.ackedDown {s : State} (h : s.Inv srv peerAddr) {k c : Nat} {st : Stream} {call : Call}
    (hst : s.streams[k]? = some st) (hlater : k + 1 < s.streams.length ∨ s.phase = .opening)
    (hc : c ∈ st.failed) (hcall : s.calls[c]? = some call) (hkind : call.kind = .oneWay) :
    AckedDown (s.acks c) := by
  constructor
  · intro x hx
    cases x with
    | ok u =>
        obtain ⟨st', hst', hhanded⟩ := Node.Acked.ok h.acked c hx
        refine absurd ?_ (not_handedOver_of_failed h.nodup_offered (List.mem_of_getElem? hst) hc)
        exact List.mem_flatMap.mpr ⟨st', hst', hhanded⟩
    | error e => rw [Node.Acked.error h.acked c e hx]
  · have hk : (s.calls.map Call.kind)[c]? = some .oneWay := by
      rw [List.getElem?_map, hcall, Option.map_some, hkind]
    rcases Node.Acked.down h.acked k st hst c hc hk with ⟨hlast, req, hoffering, -⟩ | hdone
    · rcases hlater with hlt | hopening
      · omega
      · rw [hopening] at hoffering
        cases hoffering
    · exact hdone

/-- **The send queue.** In every state a node reaches after at most `2 ^ 64` requests: the messages on the
wires of its streams, one stream after the other, are requests in enqueue order, each at most once; a
request that has left the queue and the sender's hand without being handed over was refused by a stream,
and every stream refuses at most one; a request refused by a stream is over, as far as its caller is
concerned, by the time the next stream is being opened; and only a request that was handed over is ever
acknowledged with `Ok`. -/
theorem sendQueue_delivered (srv : Server) (peerAddr : Option String) (acts : List Act) (s : State)
    (hrun : Transition.run (step srv peerAddr) init acts = some s)
    (hbound : s.calls.length ≤ 2 ^ 64) :
    (∀ st ∈ s.streams, List.Forall₂ (Requests s.calls) st.handed st.wire) ∧
    List.Sublist (handedOver s.streams) s.log ∧ (handedOver s.streams).Nodup ∧
    (∀ c ∈ s.log, c ∉ ahead s.phase s.queue → c ∉ handedOver s.streams →
      ∃ st ∈ s.streams, c ∈ st.failed) ∧
    (∀ st ∈ s.streams, st.failed.length ≤ 1) ∧
    (∀ (k : Nat) (st : Stream), s.streams[k]? = some st →
      k + 1 < s.streams.length ∨ s.phase = .opening → ∀ c ∈ st.failed,
        c ∉ handedOver s.streams ∧ ∃ call, s.calls[c]? = some call ∧ Resolved s c call) ∧
    (∀ c, .ok () ∈ (s.acks c).items → c ∈ handedOver s.streams) := by
  obtain ⟨h, hkept, hgone⟩ := delivery_run hrun hbound
  have hsub := handedOver_sublist_offered s.streams
  refine ⟨fun st hst => (h.wired st hst).sent, ?_, hsub.nodup h.nodup_offered, ?_,
    Node.Accounted.failed h.accounted, ?_, ?_⟩
  · rw [Node.Accounted.order h.accounted]
    exact hsub.trans (List.sublist_append_left _ _)
  · intro c hc hahead hhanded
    rw [Node.Accounted.order h.accounted, List.mem_append, offered, List.mem_flatMap] at hc
    rcases hc with ⟨st, hst, hoff⟩ | hwaiting
    · rcases List.mem_append.mp hoff with hin | hfailed
      · exact absurd (List.mem_flatMap.mpr ⟨st, hst, hin⟩) hhanded
      · exact ⟨st, hst, hfailed⟩
    · exact absurd hwaiting hahead
  · intro k st hst hlater c hc
    have hmem := List.mem_of_getElem? hst
    have hnot := not_handedOver_of_failed h.nodup_offered hmem hc
    have hstarted : c ∈ started s.phase s.streams :=
      List.mem_append_left _ (List.mem_flatMap.mpr ⟨st, hmem, List.mem_append_right _ hc⟩)
    obtain ⟨call, hcall, hstage⟩ :=
      Node.Accounted.enqueued h.accounted c (h.accounted.mem_log_of_started hstarted)
    refine ⟨hnot, call, hcall, ?_⟩
    rw [Resolved]
    split
    · rename_i hkind
      exact h.ackedDown hst hlater hc hcall hkind
    · rename_i hkind
      have hpending : NotPending s.router c := by
        rcases hgone k st hst c hc with ⟨hlast, hdying⟩ | hnone
        · rcases hlater with hlt | hopening
          · omega
          · rw [hopening] at hdying
            cases hdying
        · exact hnone
      have hreg : Registered (started s.phase s.streams) c call := by
        cases hk : call.kind with
        | oneShot => exact Or.inl ⟨hk, hstarted⟩
        | streaming => exact Or.inr ⟨hk, by rw [hstage]; decide, by rw [hstage]; decide⟩
        | oneWay => exact absurd hk hkind
      rcases hkept c call hcall hreg hnot with ⟨p, hp, hpc⟩ | hfailed
      · exact absurd hpc (hpending _ p hp)
      · exact ⟨hpending, hfailed⟩
  · intro c hc
    obtain ⟨st, hst, hhanded⟩ := Node.Acked.ok h.acked c hc
    exact List.mem_flatMap.mpr ⟨st, hst, hhanded⟩

/-- The wire is found closed; the node reconnects. -/
def refusedSend : List Act :=
  [.recvRequest, .register, .send, .ack, .abort, .announce, .cancel, .retry, .connectOk, .openOk]

theorem sendQueue_delivered_refusedSend :
    ∃ s, Transition.run (step invertServer none) init ([.connectOk, .openOk,
        .issue .oneShot "/svc/Invert" [] [], .nextSeq 0, .enqueue 0, .closeWire 0] ++ refusedSend) =
          some s ∧
      s.streams.map Stream.failed = [[0], []] ∧ (s.router.boxes 0).items = [.error .streamDown] ∧
      ∃ call, s.calls[0]? = some call ∧ Resolved s 0 call := by
  obtain ⟨s, hrun⟩ : ∃ s, Transition.run (step invertServer none) init ([.connectOk, .openOk,
      .issue .oneShot "/svc/Invert" [] [], .nextSeq 0, .enqueue 0, .closeWire 0] ++ refusedSend) =
        some s := ⟨_, rfl⟩
  have hfailed : s.streams.map Stream.failed = [[0], []] :=
    Transition.eq_of_run_map (f := fun s => s.streams.map Stream.failed) rfl hrun
  have hitems : (s.router.boxes 0).items = [.error .streamDown] :=
    Transition.eq_of_run_map (f := fun s => (s.router.boxes 0).items) rfl hrun
  have hcalls : s.calls.length = 1 := Transition.eq_of_run_map (f := fun s => s.calls.length) rfl hrun
  have hstreams : s.streams.length = 2 :=
    Transition.eq_of_run_map (f := fun s => s.streams.length) rfl hrun
  have hdelivered := sendQueue_delivered invertServer none _ s hrun (by rw [hcalls]; decide)
  obtain ⟨st, rest, hst⟩ : ∃ st rest, s.streams = st :: rest :=
    List.exists_cons_of_length_eq_add_one hstreams
  have hfirst : st.failed = [0] := by
    rw [hst, List.map_cons, List.cons.injEq] at hfailed
    exact hfailed.1
  refine ⟨s, hrun, hfailed, hitems, ?_⟩
  refine (hdelivered.2.2.2.2.2.1 0 st (by rw [hst]; rfl) (Or.inl ?_) 0 ?_).2
  · rw [hstreams]
    decide
  · rw [hfirst]
    exact List.mem_singleton_self 0

/-! ### Beyond the counter -/

/-- `n` further streaming calls draw a number, the first of them being call `first`. -/
def flood (first n : Nat) : List Act :=
  (List.range n).flatMap fun j => [.issue .streaming "" [] [], .nextSeq (first + j)]

def floodCall (seq : Nat) : Call := ⟨.streaming, "", [], [], seq, .numbered⟩

theorem run_flood (srv : Server) (peerAddr : Option String) (s : State) (hhandles : s.handles = true)
    (hseq : s.seq < 2 ^ 64) (n : Nat) :
    Transition.run (step srv peerAddr) s (flood s.calls.length n) = some { s with
      seq := (s.seq + n) % 2 ^ 64
      calls := s.calls ++ (List.range n).map fun j => floodCall ((s.seq + j + 1) % 2 ^ 64) } := by
  induction n with
  | zero =>
      rw [Nat.add_zero, Nat.mod_eq_of_lt hseq]
      simp [flood]
  | succ n ih =>
      have hnext : nextSeq ((s.seq + n) % 2 ^ 64) = (s.seq + (n + 1)) % 2 ^ 64 := by
        rw [nextSeq]
        omega
      have hsplit : flood s.calls.length (n + 1) = flood s.calls.length n ++
          [.issue .streaming "" [] [], .nextSeq (s.calls.length + n)] := by
        rw [flood, List.range_succ, List.flatMap_append]
        rfl
      rw [hsplit, Transition.run_append_eq_some]
      refine ⟨_, ih, ?_⟩
      simp only [Transition.run, step, callerStep, hhandles, if_true, Option.bind_some]
      rw [List.getElem?_append_right (by simp), hnext]
      simp [List.range_succ, floodCall, Nat.add_assoc]

/-- A streaming call draws the number 1 and registers its stream; then `n` further calls draw a number,
and the last of them registers its stream too. -/
def comeRound (n : Nat) : List Act :=
  [.issue .streaming "" [] [], .nextSeq 0, .registerStream 0] ++ flood 1 n ++ [.registerStream n]

/-- When the counter has come round in between, the second registration throws out the first. -/
theorem run_comeRound (srv : Server) (peerAddr : Option String) {n : Nat} (hpos : 0 < n)
    (hround : (n + 1) % 2 ^ 64 = 1) :
    ∃ calls, calls[0]? = some { floodCall 1 with stage := .registered } ∧
      Transition.run (step srv peerAddr) init (comeRound n) = some { init with
        seq := 1
        calls := calls
        router := (Router.new.registerStream 1 0).registerStream 1 n } := by
  have hflood := run_flood srv peerAddr { init with
    seq := 1
    calls := [{ floodCall 1 with stage := .registered }]
    router := Router.new.registerStream 1 0 } rfl (by decide) n
  have hlast : ([{ floodCall 1 with stage := .registered }] ++
      (List.range n).map fun j => floodCall ((1 + j + 1) % 2 ^ 64))[n]? = some (floodCall 1) := by
    rw [List.getElem?_append_right hpos, List.getElem?_map, List.length_singleton,
      List.getElem?_range (by omega), Option.map_some]
    have hseq : (1 + (n - 1) + 1) % 2 ^ 64 = 1 := by
      rw [show 1 + (n - 1) + 1 = n + 1 by omega]
      exact hround
    rw [hseq]
  refine ⟨([{ floodCall 1 with stage := .registered }] ++
    (List.range n).map fun j => floodCall ((1 + j + 1) % 2 ^ 64)).set n
      { floodCall 1 with stage := .registered }, ?_, ?_⟩
  · rw [List.getElem?_set, if_neg (by omega)]
    rfl
  · rw [comeRound, Transition.run_append_eq_some]
    refine ⟨_, Transition.run_append_eq_some.mpr ⟨_, rfl, hflood⟩, ?_⟩
    have hone : (1 + n) % 2 ^ 64 = 1 := by
      rw [Nat.add_comm]
      exact hround
    simp only [Transition.run, step, callerStep, hlast, hone]
    rfl

/-- The first call's request is refused by a stream, and the node reconnects: the caller waits on a
channel that was closed without an error, and its request is lost without a trace. -/
theorem refused_call_unresolved_beyond_counter :
    ¬∀ (acts : List Act) (s : State), Transition.run (step invertServer none) init acts = some s →
      ∀ (k : Nat) (st : Stream), s.streams[k]? = some st →
        k + 1 < s.streams.length ∨ s.phase = .opening → ∀ c ∈ st.failed,
          ∃ call, s.calls[c]? = some call ∧ Resolved s c call := by
  intro h
  obtain ⟨calls, hcall, hround⟩ :=
    run_comeRound invertServer none (n := 2 ^ 64) (by decide) (by decide)
  have henqueue : step invertServer none { init with
        seq := 1
        calls := calls
        router := (Router.new.registerStream 1 0).registerStream 1 (2 ^ 64) } (.enqueue 0) =
      some { init with
        seq := 1
        calls := calls.set 0 { floodCall 1 with stage := .enqueued }
        queue := [Call.request (floodCall 1) 0]
        log := [0]
        router := (Router.new.registerStream 1 0).registerStream 1 (2 ^ 64) } := by
    simp only [step, callerStep, hcall]
    rfl
  obtain ⟨s, hrun⟩ : ∃ s, Transition.run (step invertServer none) { init with
      seq := 1
      calls := calls.set 0 { floodCall 1 with stage := .enqueued }
      queue := [Call.request (floodCall 1) 0]
      log := [0]
      router := (Router.new.registerStream 1 0).registerStream 1 (2 ^ 64) }
    ([.connectOk, .openOk, .closeWire 0] ++ refusedSend) = some s := ⟨_, rfl⟩
  have hwhole := Transition.run_append_eq_some.mpr
    ⟨_, hround, Transition.run_cons_eq_some.mpr ⟨_, henqueue, hrun⟩⟩
  have hcalls : s.calls = calls.set 0 { floodCall 1 with stage := .enqueued } :=
    Transition.eq_of_run_map (f := State.calls) rfl hrun
  have hstreams : s.streams.length = 2 :=
    Transition.eq_of_run_map (f := fun s => s.streams.length) rfl hrun
  have hfailed : s.streams.map Stream.failed = [[0], []] :=
    Transition.eq_of_run_map (f := fun s => s.streams.map Stream.failed) rfl hrun
  have hitems : (s.router.boxes 0).items = [] :=
    Transition.eq_of_run_map (f := fun s => (s.router.boxes 0).items) rfl hrun
  have hdropped : (s.router.boxes 0).dropped = false :=
    Transition.eq_of_run_map (f := fun s => (s.router.boxes 0).dropped) rfl hrun
  obtain ⟨st, rest, hst⟩ : ∃ st rest, s.streams = st :: rest :=
    List.exists_cons_of_length_eq_add_one hstreams
  have hfirst : st.failed = [0] := by
    rw [hst, List.map_cons, List.cons.injEq] at hfailed
    exact hfailed.1
  obtain ⟨call, hcall', hres⟩ := h _ s hwhole 0 st (by rw [hst]; rfl) (Or.inl (by rw [hstreams]; decide)) 0
    (by rw [hfirst]; exact List.mem_singleton_self 0)
  rw [hcalls, getElem?_set_of_some hcall, Option.some.injEq] at hcall'
  rw [Resolved, ← hcall', if_neg (by decide)] at hres
  rcases hres.2 with ⟨e, he⟩ | hdrop
  · rw [hitems] at he
    cases he
  · rw [hdropped] at hdrop
    cases hdrop

end Quorums.Node
