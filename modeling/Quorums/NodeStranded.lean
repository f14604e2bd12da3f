import Quorums.NodeStatus

/-! What is left of a node when its stream has ended under it. The end of a stream is seen by
`receive_loop`; `sender_loop` learns of it only when it next writes. A state is quiescent when the loop
of the current stream has ended while the sender waits on an empty queue: then no task of the node moves
any more until a new request comes. Callers that are pending there wait for ever, and a program that has
watched the status still reads `Connected`. -/

namespace Quorums.Node

open Server ListUpdate

/-- The receive loop of the stream in use has ended. -/
def RecvEnded (phase : Phase) (streams : List Stream) : Prop :=
  phase.isStreaming = true ∧ ∃ st, streams[streams.length - 1]? = some st ∧ st.recv = .ended

/-- The loop has ended, the queue is empty and the sender waits on it. -/
def State.Quiescent (s : State) : Prop :=
  s.phase = .streaming .waiting ∧ s.queue = [] ∧ ∃ st, s.streams[s.current]? = some st ∧ st.recv = .ended

/-- `sender_loop` will be told that the stream is gone: a write has failed, or the wire is closed and there is
something left to write. -/
def Failing (phase : Phase) (queue : List OutboundRequest) (streams : List Stream) : Prop :=
  (∃ req, phase = .streaming (.sent req false)) ∨
    ((∃ st, streams[streams.length - 1]? = some st ∧ st.wireOpen = false) ∧ phase.inHand ++ queue ≠ [])

def State.Failing (s : State) : Prop := Node.Failing s.phase s.queue s.streams

/-- If the stream in use ends by `Ok(None)`, nobody is pending, and nothing is registered once its loop has
ended, unless the sender is about to learn of the end. -/
def Careful (s : State) : Act → Prop
  | .fetchEnd k => s.phase.isStreaming = true → k = s.current → s.router.inner = ∅ ∨ s.Failing
  | .register =>
      RecvEnded s.phase s.streams →
        (∀ req, s.phase = .streaming (.dequeued req) → req.responseTx = none) ∨ s.Failing
  | .registerStream _ => RecvEnded s.phase s.streams → s.Failing
  | _ => True

/-! ### The stream in use is not aborted -/

/-- While the sender loop runs, the stream in use is not aborted. -/
def Attached (phase : Phase) (streams : List Stream) : Prop :=
  phase.isStreaming = true → ∀ st, streams[streams.length - 1]? = some st → st.aborted = false

namespace Attached

variable {phase phase' : Phase} {streams : List Stream}

theorem withPhase (h : Attached phase streams)
    (hphase : phase'.isStreaming = true → phase.isStreaming = true) : Attached phase' streams :=
  fun hs => h (hphase hs)

theorem of_not_streaming (hphase : phase.isStreaming = false) : Attached phase streams := by
  intro hs
  rw [hphase] at hs
  cases hs

theorem setStream (h : Attached phase streams) {k : Nat} {st st' : Stream}
    (hst : streams[k]? = some st) (haborted : st'.aborted = st.aborted) :
    Attached phase (streams.set k st') := by
  intro hs x hx
  rw [List.length_set] at hx
  rcases getElem?_set_cases hx with ⟨hk, rfl⟩ | ⟨-, hold⟩
  · rw [haborted]
    exact h hs st (hk ▸ hst)
  · exact h hs x hold

theorem openStream (streams : List Stream) (id : Nat) :
    Attached (.streaming .waiting) (streams ++ [Stream.open id]) := by
  intro _ st hst
  have hopen : st = Stream.open id := by simpa using hst.symm
  rw [hopen]
  rfl

end Attached

def State.Attached (s : State) : Prop := Node.Attached s.phase s.streams

variable {srv : Server} {peerAddr : Option String}

theorem attached_init : init.Attached := Attached.of_not_streaming rfl

theorem attached_step (s : State) (a : Act) (t : State) (h : s.Attached)
    (hstep : step srv peerAddr s a = some t) : t.Attached := by
  rw [State.Attached] at h ⊢
  cases moves_of_step hstep with
  | issue | nextSeq | registerStream | refuse | enqueue | dropReceiver | dropHandles => exact h
  | recvRequest hphase hqueue | register hphase htx | pass hphase htx =>
      exact h.withPhase fun _ => by rw [hphase]; rfl
  | send hphase hst hopen | sendErr hphase hst hopen =>
      exact Attached.setStream (h.withPhase fun _ => by rw [hphase]; rfl) hst rfl
  | @ack req c ok hphase htx | @skipAck req ok hphase htx =>
      exact h.withPhase fun _ => by rw [hphase]; rfl
  | openOk hphase => exact Attached.openStream _ _
  | recvClosed hphase hqueue => exact Attached.of_not_streaming rfl
  | connectErr hphase | connectOk hphase | openErr hphase | retry hphase | announce hphase
  | cancel hphase => exact Attached.of_not_streaming rfl
  | abort hphase hst | close hphase hst => exact Attached.of_not_streaming rfl
  | closeWire hst | server hst hserver | fetch hst hmsg hrecv | fetchEnd hst hrecv
  | fetchErr hst hrecv | deliver hst hrecv | fail hst hrecv | stopRecv hst hrecv haborted =>
      exact h.setStream hst rfl

/-! ### A sender that is about to fail -/

namespace Failing

variable {phase phase' : Phase} {queue queue' : List OutboundRequest} {streams : List Stream}

/-- The sender goes on without a write, and has still something to write. -/
theorem withPhase (h : Failing phase queue streams) (hphase : ∀ req, phase ≠ .streaming (.sent req false))
    (hleft : phase.inHand ++ queue ≠ [] → phase'.inHand ++ queue' ≠ []) :
    Failing phase' queue' streams := by
  rcases h with ⟨req, hsent⟩ | ⟨hwire, hsome⟩
  · exact absurd hsent (hphase req)
  · exact Or.inr ⟨hwire, hleft hsome⟩

theorem enqueue (h : Failing phase queue streams) (req : OutboundRequest) :
    Failing phase (queue ++ [req]) streams :=
  h.imp id fun hwire => ⟨hwire.1, by simp⟩

/-- A stream goes on; a wire that is closed stays closed. -/
theorem setStream (h : Failing phase queue streams) {k : Nat} {st st' : Stream} (hst : streams[k]? = some st)
    (hwire : st.wireOpen = false → st'.wireOpen = false) : Failing phase queue (streams.set k st') := by
  refine h.imp id fun ⟨⟨x, hx, hclosed⟩, hleft⟩ => ⟨?_, hleft⟩
  rw [List.length_set]
  by_cases hk : k = streams.length - 1
  · subst hk
    refine ⟨st', getElem?_set_of_some hst, hwire ?_⟩
    rwa [Option.some.inj (hst.symm.trans hx)]
  · exact ⟨x, by rw [List.getElem?_set_ne hk, hx], hclosed⟩

/-- What can be written does not fail. -/
theorem not_of_open (hphase : ∀ req, phase ≠ .streaming (.sent req false)) {st : Stream}
    (hst : streams[streams.length - 1]? = some st) (hopen : st.wireOpen = true) :
    ¬Failing phase queue streams := by
  rintro (⟨req, hsent⟩ | ⟨⟨x, hx, hclosed⟩, -⟩)
  · exact hphase req hsent
  · rw [Option.some.inj (hx.symm.trans hst), hopen] at hclosed
    cases hclosed

end Failing

/-! ### Nobody is left behind -/

/-- Once the loop of the stream in use has ended, nobody is pending, or the sender is about to fail. -/
def State.Drained (s : State) : Prop := RecvEnded s.phase s.streams → s.router.inner = ∅ ∨ s.Failing

/-- The loop of the stream in use was over before a step that does not end it. -/
theorem RecvEnded.of_set {phase phase' : Phase} {streams : List Stream} {k : Nat} {st st' : Stream}
    (h : RecvEnded phase' (streams.set k st')) (hst : streams[k]? = some st)
    (hphase : phase'.isStreaming = true → phase.isStreaming = true)
    (hrecv : k = streams.length - 1 → phase.isStreaming = true → st'.recv = .ended → st.recv = .ended) :
    RecvEnded phase streams := by
  obtain ⟨hs, x, hx, hended⟩ := h
  refine ⟨hphase hs, ?_⟩
  rw [List.length_set] at hx
  rcases getElem?_set_cases hx with ⟨hk, rfl⟩ | ⟨-, hold⟩
  · refine ⟨st, ?_, hrecv hk.symm (hphase hs) hended⟩
    rw [hk]
    exact hst
  · exact ⟨x, hold, hended⟩

theorem drained_step (s : State) (a : Act) (t : State) (h : s.Attached ∧ s.Drained)
    (hok : Careful s a) (hstep : step srv peerAddr s a = some t) : t.Attached ∧ t.Drained := by
  refine ⟨attached_step s a t h.1 hstep, fun hended => ?_⟩
  obtain ⟨hatt, hdrained⟩ := h
  cases moves_of_step hstep with
  | issue | nextSeq | refuse | dropReceiver | dropHandles => exact hdrained hended
  | enqueue => exact (hdrained hended).imp_right fun h => h.enqueue _
  | registerStream hcall hkind hstage => exact Or.inr (hok hended)
  | register hphase htx =>
      rcases hok ⟨by rw [hphase]; rfl, hended.2⟩ with hnone | hfailing
      · rw [hnone _ hphase] at htx
        cases htx
      · exact Or.inr (hfailing.withPhase (by rw [hphase]; nofun) fun _ => nofun)
  | recvRequest hphase hqueue | pass hphase htx =>
      refine (hdrained ⟨by rw [hphase]; rfl, hended.2⟩).imp_right fun h => ?_
      exact h.withPhase (by rw [hphase]; nofun) fun _ => nofun
  | send hphase hst hopen =>
      have hempty := hdrained (hended.of_set hst (fun _ => by rw [hphase]; rfl) fun _ _ hrecv => hrecv)
      exact Or.inl (hempty.resolve_right (Failing.not_of_open (by rw [hphase]; nofun) hst hopen))
  | sendErr hphase hst hopen => exact Or.inr (Or.inl ⟨_, rfl⟩)
  | @ack req c ok hphase htx | @skipAck req ok hphase htx =>
      cases ok with
      | false => cases hended.1
      | true =>
          refine (hdrained ⟨by rw [hphase]; rfl, hended.2⟩).imp_right fun h => ?_
          exact h.withPhase (by rw [hphase]; nofun) fun hleft => by rwa [hphase] at hleft
  | openOk hphase =>
      obtain ⟨-, st, hst, hrecv⟩ := hended
      have hopen : st = Stream.open s.streams.length := by
        simpa [State.current] using hst.symm
      rw [hopen] at hrecv
      cases hrecv
  | recvClosed hphase hqueue => cases hended.1
  | connectErr hphase | connectOk hphase | openErr hphase | retry hphase | announce hphase
  | cancel hphase => cases hended.1
  | abort hphase hst | close hphase hst => cases hended.1
  | closeWire hst =>
      refine (hdrained (hended.of_set hst id fun _ _ hrecv => hrecv)).imp_right fun h => ?_
      exact h.setStream hst fun _ => rfl
  | server hst hserver =>
      refine (hdrained (hended.of_set hst id fun _ _ hrecv => hrecv)).imp_right fun h => ?_
      exact h.setStream hst id
  | fetch hst hmsg hrecv | fetchErr hst hrecv =>
      refine (hdrained (hended.of_set hst id fun _ _ h => by cases h)).imp_right fun h => ?_
      exact h.setStream hst id
  | @fetchEnd k st hst hrecv =>
      have hbefore : s.router.inner = ∅ ∨ s.Failing := by
        by_cases hk : k = s.current
        · exact hok hended.1 hk
        · exact hdrained (hended.of_set hst id fun h _ _ => absurd h hk)
      exact hbefore.imp_right fun h => h.setStream hst id
  | stopRecv hst hrecv haborted =>
      refine (hdrained (hended.of_set hst id fun hk hs _ => ?_)).imp_right fun h => h.setStream hst id
      rw [hk] at hst
      rw [hatt hs _ hst] at haborted
      cases haborted
  | @deliver k st msg hst hrecv =>
      rcases hdrained (hended.of_set hst id fun _ _ h => by cases h) with hempty | hfailing
      · have hsame : s.router.receive msg = s.router := by
          apply Router.receive_of_lookup_none
          rw [hempty, AList.lookup_empty]
        rw [hsame]
        exact Or.inl hempty
      · exact Or.inr (hfailing.setStream hst id)
  | fail hst hrecv => exact Or.inl rfl

/-- A sender that waits on an empty queue is not about to fail. -/
theorem State.Quiescent.router_eq {s : State} (h : s.Quiescent) (hdrained : s.Drained) : s.router.inner = ∅ := by
  obtain ⟨hphase, hqueue, hended⟩ := h
  refine (hdrained ⟨by rw [hphase]; rfl, hended⟩).resolve_right ?_
  rintro (⟨req, hsent⟩ | ⟨-, hleft⟩)
  · rw [hphase] at hsent
    cases hsent
  · rw [hphase, hqueue] at hleft
    exact hleft rfl

/-! ### The node as a program sees it -/

/-- While the sender loop runs it sends nothing; `Connected` was sent when it began. -/
theorem emitted_of_streaming {s t : State} {a : Act} (hstep : step srv peerAddr s a = some t)
    (ht : t.phase.isStreaming = true) :
    emitted s a = [.connected] ∨ (s.phase.isStreaming = true ∧ emitted s a = []) := by
  cases moves_of_step hstep with
  | openOk => exact Or.inl rfl
  | recvRequest hphase | register hphase | pass hphase | send hphase | sendErr hphase
  | ack hphase | skipAck hphase => exact Or.inr ⟨by rw [hphase]; rfl, rfl⟩
  | recvClosed | connectErr | connectOk | openErr | retry | abort | close | announce | cancel => cases ht
  | _ => exact Or.inr ⟨ht, rfl⟩

namespace Watched

/-- No caller is pending, and the node does not say that it is connected. -/
def Clean (s : Watched) : Prop := s.node.router.inner = ∅ ∧ s.status ≠ .connected

/-- The node's steps are careful, and `Connected` is not what `status` reads once it was sent: nobody held a
receiver when it was sent, and it was not what the channel held before. -/
def Careful (s : Watched) : Act → Prop
  | .node a =>
      Node.Careful s.node a ∧ (.connected ∈ emitted s.node a → s.receivers = 0 ∧ s.status ≠ .connected)
  | _ => True

/-- What holds of a node whose steps are careful. -/
structure Settled (s : Watched) : Prop where
  attached : s.node.Attached
  drained : s.node.Drained
  unclaimed : s.node.phase.isStreaming = true → s.status ≠ .connected

theorem settled_init : init.Settled :=
  ⟨attached_init, fun hended => (by cases hended.1), fun hs => (by cases hs)⟩

theorem settled_step (s : Watched) (a : Act) (t : Watched) (h : s.Settled) (hok : s.Careful a)
    (hstep : step srv peerAddr s a = some t) : t.Settled := by
  have hstatus := status_of_step hstep
  cases moves_of_step hstep with
  | start hstarted =>
      refine ⟨h.attached, h.drained, fun hs => ?_⟩
      rw [hstatus]
      split
      · exact h.unclaimed hs
      · nofun
  | @node a node hnode hstarted =>
      obtain ⟨hattached, hdrained⟩ := drained_step s.node a node ⟨h.attached, h.drained⟩ hok.1 hnode
      refine ⟨hattached, hdrained, fun hs => ?_⟩
      rw [hstatus, emits]
      rcases emitted_of_streaming hnode hs with hconnected | ⟨hbefore, hnone⟩
      · obtain ⟨hnobody, hunclaimed⟩ := hok.2 (by rw [hconnected]; exact List.mem_singleton_self _)
        rw [if_pos hnobody]
        exact hunclaimed
      · rw [hnone, ite_self]
        exact h.unclaimed hbefore
  | _ =>
      refine ⟨h.attached, h.drained, fun hs => ?_⟩
      exact h.unclaimed hs

/-- **Nobody is left behind.** When the stream of a node has ended and its tasks have nothing to do, no caller
is pending and the status is not `Connected`, in every run in which no stream in use ended by `Ok(None)` under
a pending caller, nothing was registered after the end of a loop, and no receiver was told `Connected`. -/
theorem quiescent_clean {acts : List Act} {s : Watched}
    (hrun : Transition.run (step srv peerAddr) init acts = some s)
    (hok : Transition.Within (step srv peerAddr) Careful init acts) (hquiet : s.node.Quiescent) : s.Clean := by
  have h : s.Settled := Transition.run_invariant_within settled_step settled_init hok hrun
  refine ⟨hquiet.router_eq h.drained, h.unclaimed ?_⟩
  rw [hquiet.1]
  rfl

/-- What shows that a run ends in a quiescent state. -/
theorem exists_quiescent {acts : List Act}
    (hobs : (Transition.run (step srv peerAddr) init acts).map (fun s => (s.node.phase, s.node.queue,
      s.node.streams[s.node.current]?.map Stream.recv)) = some (.streaming .waiting, [], some .ended)) :
    ∃ s, Transition.run (step srv peerAddr) init acts = some s ∧ s.node.Quiescent := by
  obtain ⟨s, hrun, heq⟩ := Option.map_eq_some_iff.mp hobs
  obtain ⟨hphase, heq⟩ := Prod.mk.inj heq
  obtain ⟨hqueue, hrecv⟩ := Prod.mk.inj heq
  obtain ⟨st, hst, hended⟩ := Option.map_eq_some_iff.mp hrecv
  exact ⟨s, hrun, hphase, hqueue, st, hst, hended⟩

/-- A one-shot call whose message is on the wire. -/
def pendingCall : List Act :=
  [.start, .node .connectOk, .node .openOk, .node (.issue .oneShot "/svc/Invert" [] []), .node (.nextSeq 0),
    .node (.enqueue 0), .node .recvRequest, .node .register, .node .send, .node .ack]

/-- The stream fails under the pending call: the caller gets the error, and nobody is pending. -/
theorem quiescent_clean_failedStream :
    ∃ s, Transition.run (step invertServer none) init
        (pendingCall ++ [.node (.fetchErr 0 ⟨.unavailable, "reset"⟩), .node (.handle 0)]) = some s ∧
      s.node.Quiescent ∧ s.Clean := by
  obtain ⟨s, hrun, hquiet⟩ : ∃ s, Transition.run (step invertServer none) init
      (pendingCall ++ [.node (.fetchErr 0 ⟨.unavailable, "reset"⟩), .node (.handle 0)]) = some s ∧
        s.node.Quiescent := exists_quiescent rfl
  refine ⟨s, hrun, hquiet, quiescent_clean hrun ?_ hquiet⟩
  refine Transition.within_cons rfl trivial ?_
  refine Transition.within_cons rfl ⟨trivial, nofun⟩ ?_
  refine Transition.within_cons rfl ⟨trivial, fun _ => ⟨rfl, nofun⟩⟩ ?_
  iterate 4 refine Transition.within_cons rfl ⟨trivial, nofun⟩ ?_
  refine Transition.within_cons rfl ⟨?_, nofun⟩ ?_
  · rintro ⟨-, x, hx, hxended⟩
    cases hx
    cases hxended
  · iterate 4 refine Transition.within_cons rfl ⟨trivial, nofun⟩ ?_
    trivial

/-- The request is longer than the server's decoder takes: the accept loop breaks on the error, the
response stream ends, and `receive_loop` breaks on `Ok(None)`. The call stays pending for ever, and the program,
which has subscribed to the status, reads `Connected`. -/
theorem pending_call_stranded :
    ∃ s, Transition.run (step invertServer none) init (.subscribe :: (pendingCall ++
        [.node (.server 0 .lock), .node (.server 0 .stop), .node (.fetchEnd 0)])) = some s ∧
      s.node.Quiescent ∧ s.node.router.inner.lookup 1 = some (.response 0) ∧
      (s.node.router.boxes 0).items = [] ∧ s.status = .connected ∧ ¬s.Clean := by
  obtain ⟨s, hrun, hquiet⟩ : ∃ s, Transition.run (step invertServer none) init (.subscribe :: (pendingCall ++
      [.node (.server 0 .lock), .node (.server 0 .stop), .node (.fetchEnd 0)])) = some s ∧ s.node.Quiescent :=
    exists_quiescent rfl
  have hpending : s.node.router.inner.lookup 1 = some (.response 0) :=
    Transition.eq_of_run_map (f := fun s : Watched => s.node.router.inner.lookup 1) rfl hrun
  have hitems : (s.node.router.boxes 0).items = [] :=
    Transition.eq_of_run_map (f := fun s : Watched => (s.node.router.boxes 0).items) rfl hrun
  have hstatus : s.status = .connected := Transition.eq_of_run_map (f := status) rfl hrun
  exact ⟨s, hrun, hquiet, hpending, hitems, hstatus, fun hclean => hclean.2 hstatus⟩

end Watched

end Quorums.Node
