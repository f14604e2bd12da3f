import Quorums.CallInvariant
import Quorums.NodeDelivery

/-! The channel between the calls of a client and its nodes. The calls see of a node a counter, the
messages that entered its send queue and whether `run_node` is gone. The node changes these in the same
ways as the calls do, one at a time, and what its streams carry is taken from the queue in order; so the
order in which messages enter a queue is the order in which they leave the client. -/

namespace Quorums.Client

/-- What may happen to a channel in one step. -/
inductive Channel.Moves (ch ch' : Channel) : Prop where
  | same (hseq : ch'.seq = ch.seq) (hlog : ch'.log = ch.log) (hclosed : ch'.closed = ch.closed)
  | nextSeq (hseq : ch'.seq = Node.nextSeq ch.seq) (hlog : ch'.log = ch.log)
      (hclosed : ch'.closed = ch.closed)
  | enqueue {c : Nat} {wire : Message} (hopen : ch.closed = false) (hseq : ch'.seq = ch.seq)
      (hlog : ch'.log = ch.log ++ [(c, wire)]) (hclosed : ch'.closed = ch.closed)
  | close (hseq : ch'.seq = ch.seq) (hlog : ch'.log = ch.log) (hclosed : ch'.closed = true)

/-- Nothing leaves the log, and a closed channel stays closed and takes nothing any more. -/
structure Channel.Grows (ch ch' : Channel) : Prop where
  log : ch.log <+: ch'.log
  closed : ch.closed = true → ch'.closed = true ∧ ch'.log = ch.log

theorem Channel.Grows.refl (ch : Channel) : Channel.Grows ch ch := ⟨List.prefix_rfl, fun h => ⟨h, rfl⟩⟩

theorem Channel.Grows.trans {ch ch' ch'' : Channel} (h : Channel.Grows ch ch')
    (h' : Channel.Grows ch' ch'') : Channel.Grows ch ch'' := by
  refine ⟨h.log.trans h'.log, fun hclosed => ?_⟩
  obtain ⟨hclosed', hlog⟩ := h.closed hclosed
  obtain ⟨hclosed'', hlog'⟩ := h'.closed hclosed'
  exact ⟨hclosed'', hlog'.trans hlog⟩

theorem Channel.Moves.grows {ch ch' : Channel} (h : Channel.Moves ch ch') : Channel.Grows ch ch' := by
  cases h with
  | same _ hlog hclosed | nextSeq _ hlog hclosed =>
      exact ⟨by rw [hlog], fun h => ⟨hclosed.trans h, hlog⟩⟩
  | enqueue hopen _ hlog =>
      refine ⟨?_, fun h => ?_⟩
      · rw [hlog]
        exact List.prefix_append _ _
      · rw [hopen] at h
        cases h
  | close _ hlog hclosed =>
      exact ⟨by rw [hlog], fun _ => ⟨hclosed, hlog⟩⟩

variable {T : Type} {env : Env T} {s t : State T}

theorem Call.TaskMoves.channel {id p : Nat} {call call' : Call T} {node : NodeHandle} {ch ch' : Channel}
    {stage : Stage} {a : CallAct T} (h : TaskMoves env id call p node ch stage a call' ch') :
    Channel.Moves ch ch' := by
  cases h with
  | nextSeq => exact .nextSeq rfl rfl rfl
  | enqueue hopen => exact .enqueue hopen rfl rfl rfl
  | refuse | reply | update | ack | finish => exact .same rfl rfl rfl

/-- Every step of a client moves each of the channels as a channel may move. -/
theorem channels_step {a : Act T} (hstep : step env s a = some t) (x : Nat) :
    Channel.Moves (s.channels x) (t.channels x) := by
  cases step_cases hstep with
  | call | caller => exact .same rfl rfl rfl
  | @task c p a call call' stage node ch' hcall _ hp hnode htask =>
      dsimp only
      by_cases hx : x = node.channel
      · subst hx
        rw [Function.update_self]
        exact (Call.moves_of_taskStep htask).channel
      · rw [Function.update_of_ne hx]
        exact .same rfl rfl rfl
  | @closeChannel y =>
      dsimp only
      by_cases hx : x = y
      · subst hx
        rw [Function.update_self]
        exact .close rfl rfl rfl
      · rw [Function.update_of_ne hx]
        exact .same rfl rfl rfl

theorem channels_run {acts : List (Act T)} (hrun : Transition.run (step env) s acts = some t) (x : Nat) :
    Channel.Grows (s.channels x) (t.channels x) :=
  Transition.run_relation (R := fun s t : State T => Channel.Grows (s.channels x) (t.channels x))
    (fun _ => .refl _) (fun _ _ _ => Channel.Grows.trans) (fun _ _ _ hstep => (channels_step hstep x).grows)
    hrun

end Quorums.Client

namespace Quorums.Node

open Server

/-- An entry of the queue's log: the call with the message it enqueues. -/
def logged (calls : List Call) (c : Nat) : Option (Nat × Message) :=
  calls[c]?.map fun call => (c, call.wire)

/-- The channel of the node as its callers see it. -/
def State.channel (s : State) : Client.Channel where
  seq := s.seq
  log := s.log.filterMap (logged s.calls)
  closed := s.phase = .closed

variable {srv : Server} {peerAddr : Option String} {s t : State}

/-- A call that has enqueued changes no more, so neither do the entries made so far. -/
theorem State.Accounted.filterMap_logged (hacc : s.Accounted) {calls : List Call}
    (hext : Extends s.calls calls) :
    s.log.filterMap (logged calls) = s.log.filterMap (logged s.calls) := by
  refine List.filterMap_congr fun c hc => ?_
  obtain ⟨call, hcall, hstage⟩ := Node.Accounted.enqueued hacc c hc
  rw [logged, logged, hcall, hext c call hcall hstage]

/-- Every step of a node moves its channel as a channel may move. -/
theorem channel_step {a : Act} (hacc : s.Accounted) (hstep : step srv peerAddr s a = some t) :
    Client.Channel.Moves s.channel t.channel := by
  have hlog : s.log.filterMap (logged t.calls) = s.channel.log :=
    hacc.filterMap_logged (extends_step hstep)
  cases moves_of_step hstep with
  | nextSeq => exact .nextSeq rfl hlog rfl
  | @enqueue c call hcall hstage hphase =>
      have hentry : logged (s.calls.set c { call with stage := .enqueued }) c = some (c, call.wire) := by
        rw [logged, ListUpdate.getElem?_set_of_some hcall]
        rfl
      have happend : (s.log ++ [c]).filterMap (logged (s.calls.set c { call with stage := .enqueued })) =
          s.channel.log ++ [(c, call.wire)] := by
        rw [List.filterMap_append, List.filterMap_cons_some hentry, List.filterMap_nil]
        exact congrArg (· ++ [(c, call.wire)]) hlog
      exact .enqueue (decide_eq_false hphase) rfl happend rfl
  | close => exact .close rfl hlog rfl
  | issue | registerStream | refuse | dropReceiver | dropHandles | closeWire | server | fetch | fetchEnd
  | fetchErr | deliver | fail | stopRecv => exact .same rfl hlog rfl
  | recvRequest hphase | recvClosed hphase | register hphase | pass hphase | send hphase
  | sendErr hphase | connectErr hphase | connectOk hphase | openErr hphase | openOk hphase
  | retry hphase | abort hphase | announce hphase | cancel hphase =>
      exact .same rfl hlog (by simp [State.channel, hphase])
  | @ack req c ok hphase | @skipAck req ok hphase =>
      refine .same rfl hlog ?_
      cases ok <;> simp [State.channel, hphase]

theorem channel_run {acts : List Act} (hacc : s.Accounted)
    (hrun : Transition.run (step srv peerAddr) s acts = some t) :
    Client.Channel.Grows s.channel t.channel :=
  (Transition.run_invariant (P := fun u => u.Accounted ∧ Client.Channel.Grows s.channel u.channel)
    (fun u a v hu hstep =>
      ⟨accounted_step u a v hu.1 hstep, hu.2.trans (channel_step hu.1 hstep).grows⟩)
    ⟨hacc, .refl _⟩ hrun).2

/-- The messages a stream carries are those of the calls whose requests were handed over to it. -/
theorem wire_eq_filterMap {calls : List Call} {handed : List Nat} {wire : List Message}
    (h : List.Forall₂ (Requests calls) handed wire) :
    wire = (handed.filterMap (logged calls)).map Prod.snd := by
  induction h with
  | nil => rfl
  | @cons c m handed wire hc _ ih =>
      obtain ⟨call, hcall, -, rfl⟩ := hc
      have hentry : logged calls c = some (c, call.wire) := by
        rw [logged, hcall]
        rfl
      rw [List.filterMap_cons_some hentry, List.map_cons, ← ih]

/-- **What the streams of a node carry, stream after stream, is in the order of its queue.** -/
theorem wires_sublist_log {acts : List Act} (hrun : Transition.run (step srv peerAddr) init acts = some s)
    (hbound : s.calls.length ≤ 2 ^ 64) :
    List.Sublist (s.streams.flatMap Stream.wire) (s.channel.log.map Prod.snd) := by
  have h := node_inv_run hrun hbound
  have hwires : s.streams.flatMap Stream.wire =
      ((handedOver s.streams).filterMap (logged s.calls)).map Prod.snd := by
    rw [handedOver, List.filterMap_flatMap, List.map_flatMap]
    exact List.flatMap_congr fun st hst => wire_eq_filterMap (h.wired st hst).sent
  rw [hwires, State.channel]
  refine (List.Sublist.filterMap _ ?_).map _
  rw [Node.Accounted.order h.accounted]
  exact (handedOver_sublist_offered s.streams).trans (List.sublist_append_left _ _)

end Quorums.Node
