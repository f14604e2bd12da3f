import Quorums.NodeRouting
import Quorums.ServerReplies

/-! Replies reach the callers they answer. A stream carries the wire messages of the calls handed to it
to the server and the server's messages back; together with the numbering and the router this ties every
message a caller is given to the task the server ran for that caller's own request. -/

namespace Quorums.Node

open Server ListUpdate

section

variable (srv : Server) (peerAddr : Option String)

/-- The message is the request of call `c`. -/
def Requests (calls : List Call) (c : Nat) (m : Message) : Prop :=
  ∃ call, calls[c]? = some call ∧ call.stage = .enqueued ∧ m = call.wire

/-- Both directions of a stream: what was handed over is what the server has received or will receive,
what it sent back came out of its tasks, and a message in the receiver's hand was sent back. -/
structure Wired (calls : List Call) (st : Stream) : Prop where
  sent : List.Forall₂ (Requests calls) st.handed (st.server.tasks.map Task.msg ++ st.server.inbound)
  produced : st.server.Produced srv peerAddr
  held : ∀ m, st.recv = .holding m → ∃ i, (i, m) ∈ st.server.outbound

/-- Message `m` on stream `st` was emitted by the task of the request of call `c`. -/
def Answers (calls : List Call) (st : Stream) (c : Nat) (m : Message) : Prop :=
  ∃ i call, st.handed[i]? = some c ∧ calls[c]? = some call ∧ call.stage = .enqueued ∧
    (i, m) ∈ st.server.outbound ∧ .emit m ∈ srv.taskEvents (st.server.id, i) peerAddr call.wire

end

variable {srv : Server} {peerAddr : Option String}

theorem Requests.mono {calls calls' : List Call} {c : Nat} {m : Message} (h : Requests calls c m)
    (hext : Extends calls calls') : Requests calls' c m := by
  obtain ⟨call, hcall, hstage, hm⟩ := h
  exact ⟨call, hext c call hcall hstage, hstage, hm⟩

theorem Answers.mono {calls calls' : List Call} {st : Stream} {c : Nat} {m : Message}
    (h : Answers srv peerAddr calls st c m) (hext : Extends calls calls') :
    Answers srv peerAddr calls' st c m := by
  obtain ⟨i, call, hi, hcall, hstage, hout, hemit⟩ := h
  exact ⟨i, call, hi, hext c call hcall hstage, hstage, hout, hemit⟩

/-- An answer carries the number of the request it answers. -/
theorem Answers.seq {calls : List Call} {st : Stream} {c : Nat} {m : Message}
    (h : Answers srv peerAddr calls st c m) :
    ∃ call, calls[c]? = some call ∧ call.stage = .enqueued ∧ m.messageSeqNo = call.seq := by
  obtain ⟨i, call, -, hcall, hstage, -, hemit⟩ := h
  exact ⟨call, hcall, hstage, (echoes_of_mem_taskEvents srv _ peerAddr _ _ hemit).1⟩

namespace Wired

variable {calls calls' : List Call} {st st' : Stream}

theorem mono (h : Wired srv peerAddr calls st) (hext : Extends calls calls') :
    Wired srv peerAddr calls' st where
  sent := h.sent.imp fun _ _ hreq => hreq.mono hext
  produced := h.produced
  held := h.held

/-- Every message sent back answers one of the calls handed over. -/
theorem answers (h : Wired srv peerAddr calls st) {i : Nat} {m : Message}
    (hm : (i, m) ∈ st.server.outbound) : ∃ c, Answers srv peerAddr calls st c m := by
  obtain ⟨t, ht, hemit⟩ := h.produced.outbound i m hm
  have hmsg : (st.server.tasks.map Task.msg ++ st.server.inbound)[i]? = some t.msg := by
    refine getElem?_append_of_some ?_ _
    rw [List.getElem?_map, ht, Option.map_some]
  obtain ⟨hlt, hget⟩ := List.getElem?_eq_some_iff.mp hmsg
  have hi : i < st.handed.length := by
    rw [h.sent.length_eq]
    exact hlt
  obtain ⟨call, hcall, hstage, hwire⟩ := List.forall₂_iff_get.mp h.sent |>.2 i hi hlt
  rw [List.get_eq_getElem, hget] at hwire
  refine ⟨st.handed[i], i, call, List.getElem?_eq_getElem hi, hcall, hstage, hm, ?_⟩
  rw [← hwire]
  exact hemit

theorem init (id : Nat) : Wired srv peerAddr calls (Stream.open id) where
  sent := List.Forall₂.nil
  produced := ServerStream.produced_init srv peerAddr id
  held m hm := by cases hm

theorem send (h : Wired srv peerAddr calls st) {req : OutboundRequest} (hreq : Belongs calls req) :
    Wired srv peerAddr calls { st with
      handed := st.handed ++ [req.call]
      server := { st.server with inbound := st.server.inbound ++ [req.msg] } } where
  sent := by
    obtain ⟨call, hcall, hstage, heq⟩ := hreq
    rw [← List.append_assoc]
    refine List.rel_append h.sent (List.Forall₂.cons ⟨call, hcall, hstage, ?_⟩ List.Forall₂.nil)
    rw [heq]
    rfl
  produced := ⟨h.produced.todo, h.produced.outbound⟩
  held := h.held

theorem server (h : Wired srv peerAddr calls st) {a : ServerStream.Act} {server : ServerStream}
    (hstep : ServerStream.step srv peerAddr st.server a = some server) :
    Wired srv peerAddr calls { st with server := server } where
  sent := by
    rw [ServerStream.tasks_append_inbound_step st.server a server hstep]
    exact h.sent
  produced := ServerStream.produced_step a h.produced hstep
  held m hm := by
    obtain ⟨i, hi⟩ := h.held m hm
    exact ⟨i, ServerStream.outbound_step hstep hi⟩

/-- A stream changes at the receiver's end only. -/
theorem withRecv (h : Wired srv peerAddr calls st) (hhanded : st'.handed = st.handed)
    (hserver : st'.server = st.server)
    (hheld : ∀ m, st'.recv = .holding m → ∃ i, (i, m) ∈ st.server.outbound) :
    Wired srv peerAddr calls st' where
  sent := by
    rw [hhanded, hserver]
    exact h.sent
  produced := by
    rw [hserver]
    exact h.produced
  held m hm := by
    rw [hserver]
    exact hheld m hm

end Wired

def State.Wired (srv : Server) (peerAddr : Option String) (s : State) : Prop :=
  ∀ st ∈ s.streams, Node.Wired srv peerAddr s.calls st

theorem wired_set {calls : List Call} {streams : List Stream} {k : Nat} {st' : Stream}
    (h : ∀ st ∈ streams, Wired srv peerAddr calls st) (hst' : Wired srv peerAddr calls st') :
    ∀ st ∈ streams.set k st', Wired srv peerAddr calls st := by
  intro st hst
  rcases List.mem_or_eq_of_mem_set hst with hold | rfl
  · exact h st hold
  · exact hst'

/-- The calls before and after a step: enqueued calls stay as they are. -/
theorem extends_step {s t : State} {a : Act} (hstep : step srv peerAddr s a = some t) :
    Extends s.calls t.calls := by
  cases moves_of_step hstep with
  | issue => exact extends_append _ _
  | nextSeq hcall hstage => exact extends_set hcall (by rw [hstage]; decide)
  | registerStream hcall hkind hstage => exact extends_set hcall (by rw [hstage]; decide)
  | refuse hcall hstage hphase | enqueue hcall hstage =>
      exact extends_set hcall (ready_ne_enqueued hstage)
  | _ => exact extends_refl _

theorem wired_step {s t : State} {a : Act} (hacc : s.Accounted) (h : s.Wired srv peerAddr)
    (hstep : step srv peerAddr s a = some t) : t.Wired srv peerAddr := by
  have hext := extends_step hstep
  have hmem : ∀ {k st}, s.streams[k]? = some st → Wired srv peerAddr s.calls st :=
    fun hst => h _ (List.mem_of_getElem? hst)
  rw [State.Wired]
  cases moves_of_step hstep with
  | issue | nextSeq | registerStream | refuse | enqueue =>
      exact fun st hst => (h st hst).mono hext
  | send hphase hst hopen =>
      refine wired_set h ((hmem hst).send ?_)
      exact Node.Accounted.waiting hacc _ (by simp [hphase, Phase.inHand])
  | openOk hphase =>
      intro st hst
      rcases List.mem_append.mp hst with hold | hnew
      · exact h st hold
      · rw [List.mem_singleton] at hnew
        rw [hnew]
        exact Wired.init _
  | server hst hserver => exact wired_set h ((hmem hst).server hserver)
  | fetch hst hmsg hrecv =>
      refine wired_set h ((hmem hst).withRecv rfl rfl fun m hm => ?_)
      cases hm
      exact ⟨_, List.mem_of_getElem? hmsg⟩
  | sendErr hphase hst hopen => exact wired_set h ((hmem hst).withRecv rfl rfl (hmem hst).held)
  | abort hphase hst | close hphase hst =>
      exact wired_set h ((hmem hst).withRecv rfl rfl (hmem hst).held)
  | closeWire hst => exact wired_set h ((hmem hst).withRecv rfl rfl (hmem hst).held)
  | fetchEnd hst hrecv | fetchErr hst hrecv | deliver hst hrecv | fail hst hrecv
  | stopRecv hst hrecv haborted =>
      exact wired_set h ((hmem hst).withRecv rfl rfl fun m hm => by cases hm)
  | _ => exact h

/-! ### Where the messages handed to callers come from -/

theorem Answers.stream {calls : List Call} {st st' : Stream} {c : Nat} {m : Message}
    (h : Answers srv peerAddr calls st c m) (hid : st'.server.id = st.server.id)
    (hhanded : ∀ i c : Nat, st.handed[i]? = some c → st'.handed[i]? = some c)
    (hout : ∀ x ∈ st.server.outbound, x ∈ st'.server.outbound) :
    Answers srv peerAddr calls st' c m := by
  obtain ⟨i, call, hi, hcall, hstage, hm, hemit⟩ := h
  refine ⟨i, call, hhanded i c hi, hcall, hstage, hout _ hm, ?_⟩
  rw [hid]
  exact hemit

/-- What answered a call before a step still answers it after. -/
theorem answers_step {s t : State} {a : Act} {c : Nat} {m : Message}
    (hstep : step srv peerAddr s a = some t)
    (h : ∃ st ∈ s.streams, Answers srv peerAddr s.calls st c m) :
    ∃ st ∈ t.streams, Answers srv peerAddr t.calls st c m := by
  have hext := extends_step hstep
  cases moves_of_step hstep with
  | issue | nextSeq | registerStream | refuse | enqueue =>
      obtain ⟨st, hst, hans⟩ := h
      exact ⟨st, hst, hans.mono hext⟩
  | openOk hphase =>
      obtain ⟨st, hst, hans⟩ := h
      exact ⟨st, List.mem_append_left _ hst, hans⟩
  | send hphase hst hopen =>
      refine exists_mem_set hst (fun hans => ?_) h
      exact Answers.stream hans rfl (fun i c hi => getElem?_append_of_some hi _) fun x hx => hx
  | server hst hserver =>
      refine exists_mem_set hst (fun hans => ?_) h
      exact Answers.stream hans (ServerStream.id_step hserver) (fun i c hi => hi) fun x hx =>
        ServerStream.outbound_step hserver hx
  | sendErr hphase hst hopen | fetch hst hmsg hrecv =>
      exact exists_mem_set hst (fun hans => Answers.stream hans rfl (fun i c hi => hi) fun x hx => hx) h
  | abort hphase hst | close hphase hst =>
      exact exists_mem_set hst (fun hans => Answers.stream hans rfl (fun i c hi => hi) fun x hx => hx) h
  | closeWire hst =>
      exact exists_mem_set hst (fun hans => Answers.stream hans rfl (fun i c hi => hi) fun x hx => hx) h
  | fetchEnd hst hrecv | fetchErr hst hrecv | deliver hst hrecv | fail hst hrecv
  | stopRecv hst hrecv haborted =>
      exact exists_mem_set hst (fun hans => Answers.stream hans rfl (fun i c hi => hi) fun x hx => hx) h
  | _ => exact h

/-- A message with a successful status is passed on as it is. -/
theorem resultOf_eq_ok {msg m : Message} (h : Router.resultOf msg = .ok m) : m = msg := by
  rw [Router.resultOf] at h
  split at h
  · exact (Except.ok.inj h).symm
  · cases h

/-- The entry under the number of an answer is an entry of the call that is answered. -/
theorem State.Routed.caller_eq {s : State} (hrouted : s.Routed) (hnum : s.Numbered) {st : Stream} {c : Nat}
    {m : Message} (hans : Answers srv peerAddr s.calls st c m) {p : PendingCall}
    (hp : s.router.inner.lookup m.messageSeqNo = some p) : p.caller = c := by
  obtain ⟨call, hcall, hstage, hseq⟩ := hans.seq
  obtain ⟨x, hx, hticket, -⟩ := (Node.Routed.entry hrouted _ p hp).call
  refine (hnum.ticket_eq p.caller x m.messageSeqNo hx hticket c call hcall ?_).symm
  rw [hseq]
  exact ticket_of_ne (by rw [hstage]; decide)

/-- What a step hands to a caller beside errors is an answer to the caller's own call. -/
theorem ok_items_step {s t : State} {a : Act} (hnum : s.Numbered) (hrouted : s.Routed)
    (hwired : s.Wired srv peerAddr) (hstep : step srv peerAddr s a = some t) {c : Nat} {m : Message}
    (hm : .ok m ∈ (t.router.boxes c).items) :
    .ok m ∈ (s.router.boxes c).items ∨ ∃ st ∈ s.streams, Answers srv peerAddr s.calls st c m := by
  cases moves_of_step hstep with
  | registerStream hcall hkind hstage | register hphase htx =>
      left
      rw [← Router.items_insert]
      exact hm
  | @dropReceiver d =>
      left
      by_cases hc : c = d
      · rw [hc, Router.boxes_onBox_self] at hm
        rw [hc]
        exact hm
      · rw [Router.boxes_onBox_of_ne hc] at hm
        exact hm
  | @deliver k st msg hst hrecv =>
      rcases Router.items_receive s.router msg c with hsame | ⟨p, hp, hcaller, hitems⟩
      · rw [hsame] at hm
        exact Or.inl hm
      · rw [hitems, List.mem_append, List.mem_singleton] at hm
        rcases hm with hold | hnew
        · exact Or.inl hold
        · have hmem := List.mem_of_getElem? hst
          obtain ⟨i, hi⟩ := (hwired st hmem).held msg hrecv
          obtain ⟨d, hans⟩ := (hwired st hmem).answers hi
          have hd := hrouted.caller_eq hnum hans hp
          rw [resultOf_eq_ok hnew.symm]
          exact Or.inr ⟨st, hmem, by rwa [← hcaller, hd]⟩
  | cancel hphase | fail hst hrecv =>
      rcases Router.mem_items_cancelBoxes hm with hold | herr
      · exact Or.inl hold
      · cases herr
  | _ => exact Or.inl hm

/-! ### The invariant -/

structure State.Inv (srv : Server) (peerAddr : Option String) (s : State) : Prop where
  accounted : s.Accounted
  acked : s.Acked
  numbered : s.Numbered
  routed : s.Routed
  wired : s.Wired srv peerAddr
  proven : ∀ c m, .ok m ∈ (s.router.boxes c).items →
    ∃ st ∈ s.streams, Answers srv peerAddr s.calls st c m

theorem node_inv_init : init.Inv srv peerAddr where
  accounted := accounted_init
  acked := acked_init
  numbered := numbered_init
  routed := routed_init
  wired st hst := by cases hst
  proven c m hm := by cases hm

/-- **Every step of a node keeps the invariant**, until the counter comes round. -/
theorem node_inv_step {s t : State} {a : Act} (h : s.Inv srv peerAddr)
    (hbound : s.calls.length ≤ 2 ^ 64) (hstep : step srv peerAddr s a = some t) :
    t.Inv srv peerAddr where
  accounted := accounted_step s a t h.accounted hstep
  acked := acked_step s a t h.accounted h.acked hstep
  numbered := numbered_step h.numbered hbound hstep
  routed := routed_step h.accounted h.numbered h.routed hstep
  wired := wired_step h.accounted h.wired hstep
  proven c m hm := by
    apply answers_step hstep
    rcases ok_items_step h.numbered h.routed h.wired hstep hm with hold | hnew
    · exact h.proven c m hold
    · exact hnew

theorem node_inv_run {acts : List Act} {s : State}
    (hrun : Transition.run (step srv peerAddr) init acts = some s)
    (hbound : s.calls.length ≤ 2 ^ 64) : s.Inv srv peerAddr := by
  refine Transition.run_invariant (P := fun s => s.calls.length ≤ 2 ^ 64 → s.Inv srv peerAddr)
    (fun s a t h hstep ht => ?_) (fun _ => node_inv_init) hrun hbound
  have hs := Nat.le_trans (length_calls_step hstep) ht
  exact node_inv_step (h hs) hs hstep

/-! ### Matching -/

/-- Caller `d` has the same channel and the same entries in both routers. -/
def Undisturbed (d : Nat) (r r' : Router) : Prop :=
  r'.boxes d = r.boxes d ∧
    ∀ seq p, p.caller = d → (r'.inner.lookup seq = some p ↔ r.inner.lookup seq = some p)

/-- The call has no pending entry: it is one-way, was not registered yet, or is over. -/
def NotPending (r : Router) (c : Nat) : Prop := ∀ seq p, r.inner.lookup seq = some p → p.caller ≠ c

theorem undisturbed_receive {r : Router} {msg : Message} {d : Nat}
    (h : ∀ p, r.inner.lookup msg.messageSeqNo = some p → p.caller ≠ d) :
    Undisturbed d r (r.receive msg) := by
  refine ⟨Router.boxes_receive_of_ne h, fun seq p hp => ⟨Router.lookup_receive_some, fun hold => ?_⟩⟩
  rcases Router.lookup_receive r msg seq with hsame | ⟨rfl, -⟩
  · rw [hsame]
    exact hold
  · exact absurd hp (h p hold)

theorem receive_of_notPending {r : Router} {msg : Message} {c : Nat} (h : NotPending r c)
    (hcaller : ∀ p, r.inner.lookup msg.messageSeqNo = some p → p.caller = c) : r.receive msg = r := by
  apply Router.receive_of_lookup_none
  cases hp : r.inner.lookup msg.messageSeqNo with
  | none => rfl
  | some p => exact absurd (hcaller p hp) (h _ p hp)

theorem State.Routed.notPending_of_oneWay {s : State} (h : s.Routed) {c : Nat} {call : Call}
    (hcall : s.calls[c]? = some call) (hkind : call.kind = .oneWay) : NotPending s.router c := by
  rintro seq p hp rfl
  obtain ⟨x, hx, -, hxkind⟩ := (Node.Routed.entry h seq p hp).call
  rw [Option.some.inj (hx.symm.trans hcall)] at hxkind
  exact hxkind hkind

/-- **Replies reach their own callers.** In every state a node reaches, whatever was issued and however
the tasks were interleaved: a message handed to a caller was emitted by the server's task for that
caller's request; a one-shot caller has at most one result; no registration threw out an entry; and a
message about to be handled answers one call `c`, leaves every other caller alone, and does nothing at
all when `c` is one-way or has no pending entry. -/
theorem replies_matched (srv : Server) (peerAddr : Option String) (acts : List Act) (s : State)
    (hrun : Transition.run (step srv peerAddr) init acts = some s)
    (hbound : s.calls.length < 2 ^ 64 - 1) :
    (∀ c m, .ok m ∈ (s.router.boxes c).items →
      ∃ st ∈ s.streams, Answers srv peerAddr s.calls st c m) ∧
    (∀ (c : Nat) (call : Call), s.calls[c]? = some call → call.kind = .oneShot →
      (s.router.boxes c).items.length ≤ 1) ∧
    s.router.evicted = [] ∧
    (∀ st ∈ s.streams, ∀ m, st.recv = .holding m →
      ∃ c call, Answers srv peerAddr s.calls st c m ∧ s.calls[c]? = some call ∧
        (∀ d ≠ c, Undisturbed d s.router (s.router.receive m)) ∧
        (call.kind = .oneWay ∨ NotPending s.router c → s.router.receive m = s.router)) := by
  have h := node_inv_run hrun (by omega)
  refine ⟨h.proven, ?_, h.routed.evicted, ?_⟩
  · intro c call hcall hkind
    refine Node.Routed.once h.routed c ?_
    rw [List.getElem?_map, hcall, Option.map_some, hkind]
  · intro st hst m hm
    obtain ⟨i, hi⟩ := (h.wired st hst).held m hm
    obtain ⟨c, hans⟩ := (h.wired st hst).answers hi
    obtain ⟨call, hcall, -⟩ := hans.seq
    have hcaller : ∀ p, s.router.inner.lookup m.messageSeqNo = some p → p.caller = c :=
      fun p hp => h.routed.caller_eq h.numbered hans hp
    refine ⟨c, call, hans, hcall, fun d hd => ?_, fun hdone => ?_⟩
    · apply undisturbed_receive
      intro p hp
      rw [hcaller p hp]
      exact hd.symm
    · rcases hdone with hkind | hnot
      · exact receive_of_notPending (h.routed.notPending_of_oneWay hcall hkind) hcaller
      · exact receive_of_notPending hnot hcaller

/-- A server with one two-way method that answers with the opposite of what it is asked. -/
def invertServer : Server :=
  registerHandler ⟨∅, []⟩ "/svc/Invert" boolCodec boolCodec fun _ _ b => ⟨[.release], true, .ok (some !b)⟩

/-- A one-shot call goes out, is answered, and its answer is handled. -/
def answeredCall : List Act :=
  [.connectOk, .openOk, .issue .oneShot "/svc/Invert" [] [], .nextSeq 0, .enqueue 0, .recvRequest,
    .register, .send, .ack, .server 0 .lock, .server 0 .recv, .server 0 (.run 0), .server 0 (.run 0),
    .server 0 (.run 0), .server 0 (.run 0), .server 0 (.run 0), .fetch 0, .handle 0]

theorem replies_matched_answeredCall :
    ∃ s, Transition.run (step invertServer none) init answeredCall = some s ∧
      (s.router.boxes 0).items = [.ok (okReply 1 "/svc/Invert" [8, 1])] ∧
      ∃ st ∈ s.streams, Answers invertServer none s.calls st 0 (okReply 1 "/svc/Invert" [8, 1]) := by
  obtain ⟨s, hrun⟩ : ∃ s, Transition.run (step invertServer none) init answeredCall = some s := ⟨_, rfl⟩
  have hitems : (s.router.boxes 0).items = [.ok (okReply 1 "/svc/Invert" [8, 1])] :=
    Transition.eq_of_run_map (f := fun s => (s.router.boxes 0).items) rfl hrun
  have hlength : s.calls.length = 1 :=
    Transition.eq_of_run_map (f := fun s => s.calls.length) rfl hrun
  have hmatched := replies_matched invertServer none answeredCall s hrun (by rw [hlength]; decide)
  refine ⟨s, hrun, hitems, hmatched.1 0 _ ?_⟩
  rw [hitems]
  exact List.mem_singleton_self _

end Quorums.Node
