import Quorums.BaseWatch
import Quorums.NodeShutdown

/-! The status of a node as a program sees it (`node.rs`, `spawn_watcher` of `manager.rs`). `run_node`
sends every change of the status on a watch channel that nobody reads unless the program has subscribed;
each callback of the manager has a task per node that reads the channel. What `run_node` sends over a
whole life of the node is given by a small state diagram, which every run of the node follows and every
path of which some run takes. -/

namespace Quorums.Node

open Server

/-- A node with the receivers of its status channel: those that the program holds, and those of the tasks
of `spawn_watcher`. -/
structure Watched where
  node : State
  started : Bool
  channel : Watch.Channel NodeStatus
  subscribers : Nat
  watchers : List (Watch.Reader NodeStatus)

namespace Watched

inductive Act where
  -- `run_node` is polled for the first time
  | start
  | node (a : Node.Act)
  -- the program takes a receiver, or drops one
  | subscribe
  | unsubscribe
  -- `spawn_watcher`, and its task: `changed` returns, the callback is called
  | watch
  | poll (w : Nat)
  | report (w : Nat)

/-- `NodeChannel::connect`: the receiver that comes with the channel is dropped. -/
def init : Watched := ⟨Node.init, false, Watch.Channel.new .connecting, 0, []⟩

def receivers (s : Watched) : Nat := s.subscribers + (s.watchers.filter Watch.Reader.holds).length

/-- `Node::status`. -/
def status (s : Watched) : NodeStatus := s.channel.value

/-- The statuses that a step sends. -/
def emits (s : Watched) : Act → List NodeStatus
  | .start => [.connecting]
  | .node a => emitted s.node a
  | _ => []

/-- The end of the first attempt to connect. -/
def attempted : Node.Act → Bool
  | .connectErr | .connectOk => true
  | _ => false

def step (srv : Server) (peerAddr : Option String) (s : Watched) : Act → Option Watched
  | .start =>
      if s.started then none
      else some { s with started := true, channel := s.channel.sendAll s.receivers [.connecting] }
  | .node a =>
      if s.started = false ∧ attempted a = true then none
      else
        (Node.step srv peerAddr s.node a).map fun node =>
          -- the handles and `run_node` have a sender each, and `run_node` returns last
          { s with
            node
            channel := { s.channel.sendAll s.receivers (emitted s.node a) with closed := node.phase = .closed } }
  | .subscribe =>
      if s.node.handles = true ∨ 0 < s.subscribers then some { s with subscribers := s.subscribers + 1 }
      else none
  | .unsubscribe => if 0 < s.subscribers then some { s with subscribers := s.subscribers - 1 } else none
  | .watch => if s.node.handles then some { s with watchers := s.watchers ++ [s.channel.reader] } else none
  | .poll w =>
      s.watchers[w]?.bind fun rd =>
        (rd.poll s.channel).map fun rd => { s with watchers := s.watchers.set w rd }
  | .report w =>
      s.watchers[w]?.bind fun rd =>
        (rd.report s.channel).map fun rd => { s with watchers := s.watchers.set w rd }

/-! ### What a step can do -/

variable {srv : Server} {peerAddr : Option String}

inductive Moves (srv : Server) (peerAddr : Option String) (s : Watched) : Act → Watched → Prop where
  | start (hstarted : s.started = false) :
      Moves srv peerAddr s .start
        { s with started := true, channel := s.channel.sendAll s.receivers [.connecting] }
  | node {a : Node.Act} {node : State} (hnode : Node.step srv peerAddr s.node a = some node)
      (hstarted : s.started = true ∨ attempted a = false) :
      Moves srv peerAddr s (.node a)
        { s with
          node
          channel := { s.channel.sendAll s.receivers (emitted s.node a) with closed := node.phase = .closed } }
  | subscribe (hsource : s.node.handles = true ∨ 0 < s.subscribers) :
      Moves srv peerAddr s .subscribe { s with subscribers := s.subscribers + 1 }
  | unsubscribe (hsome : 0 < s.subscribers) :
      Moves srv peerAddr s .unsubscribe { s with subscribers := s.subscribers - 1 }
  | watch (hhandles : s.node.handles = true) :
      Moves srv peerAddr s .watch { s with watchers := s.watchers ++ [s.channel.reader] }
  | poll {w : Nat} {rd rd' : Watch.Reader NodeStatus} (hrd : s.watchers[w]? = some rd)
      (hpoll : rd.poll s.channel = some rd') :
      Moves srv peerAddr s (.poll w) { s with watchers := s.watchers.set w rd' }
  | report {w : Nat} {rd rd' : Watch.Reader NodeStatus} (hrd : s.watchers[w]? = some rd)
      (hreport : rd.report s.channel = some rd') :
      Moves srv peerAddr s (.report w) { s with watchers := s.watchers.set w rd' }

variable {s t : Watched} {a : Act}

theorem moves_of_step (h : step srv peerAddr s a = some t) : Moves srv peerAddr s a t := by
  cases a with
  | start =>
      rw [step] at h
      split at h
      · cases h
      · rename_i hstarted
        cases h
        exact .start (Bool.eq_false_iff.mpr hstarted)
  | node a =>
      rw [step] at h
      split at h
      · cases h
      · rename_i hstarted
        obtain ⟨node, hnode, rfl⟩ := Option.map_eq_some_iff.mp h
        refine .node hnode ?_
        cases hs : s.started with
        | true => exact Or.inl rfl
        | false => exact Or.inr (Bool.eq_false_iff.mpr fun ha => hstarted ⟨hs, ha⟩)
  | subscribe =>
      rw [step] at h
      split at h <;> cases h
      exact .subscribe ‹_›
  | unsubscribe =>
      rw [step] at h
      split at h <;> cases h
      exact .unsubscribe ‹_›
  | watch =>
      rw [step] at h
      split at h <;> cases h
      exact .watch ‹_›
  | poll w =>
      obtain ⟨rd, hrd, hmap⟩ := Option.bind_eq_some_iff.mp h
      obtain ⟨rd', hpoll, rfl⟩ := Option.map_eq_some_iff.mp hmap
      exact .poll hrd hpoll
  | report w =>
      obtain ⟨rd, hrd, hmap⟩ := Option.bind_eq_some_iff.mp h
      obtain ⟨rd', hreport, rfl⟩ := Option.map_eq_some_iff.mp hmap
      exact .report hrd hreport

/-- A status is kept if there is a receiver. -/
theorem kept_of_step (h : step srv peerAddr s a = some t) :
    t.channel.kept = s.channel.kept ++ if s.receivers = 0 then [] else emits s a := by
  cases moves_of_step h with
  | start => rw [Watch.Channel.sendAll_eq]; rfl
  | node => rw [Watch.Channel.sendAll_eq]; rfl
  | _ =>
      show s.channel.kept = s.channel.kept ++ if s.receivers = 0 then [] else []
      rw [ite_self, List.append_nil]

theorem first_of_step (h : step srv peerAddr s a = some t) : t.channel.first = s.channel.first := by
  cases moves_of_step h with
  | start | node => rw [Watch.Channel.sendAll_eq]
  | _ => rfl

/-- A status that is kept is the one that `status` returns. -/
theorem status_of_step (h : step srv peerAddr s a = some t) :
    t.status = (if s.receivers = 0 then [] else emits s a).getLastD s.status :=
  Watch.Channel.value_of_append (first_of_step h) (kept_of_step h)

/-! ### The end of `run_node` -/

/-- The channel is closed when `run_node` has returned, and then the handles are gone. -/
structure Ends (s : Watched) : Prop where
  closed : s.channel.closed = true ↔ s.node.phase = .closed
  handles : s.node.phase = .closing ∨ s.node.phase = .closed → s.node.handles = false
  started : s.started = false → s.node.phase = .connecting

theorem ends_init : init.Ends where
  closed := by decide
  handles h := by rcases h with h | h <;> cases h
  started _ := rfl

/-- `Closed` is sent when `run_node` returns, and nothing is sent after that. -/
theorem emitted_of_step {n m : State} {a : Node.Act} (h : Node.step srv peerAddr n a = some m) :
    (n.phase = .closed → m.phase = .closed ∧ emitted n a = []) ∧
      (n.phase ≠ .closed → m.phase = .closed → emitted n a = [.closed]) := by
  have hne {phase : Phase} (hphase : n.phase = phase) (hnot : phase ≠ .closed) : n.phase ≠ .closed := by
    rwa [hphase]
  cases Node.moves_of_step h with
  | recvRequest hphase | recvClosed hphase | register hphase | pass hphase | send hphase | sendErr hphase
  | connectErr hphase | connectOk hphase | openErr hphase | openOk hphase | retry hphase | abort hphase
  | announce hphase | cancel hphase =>
      exact ⟨fun hc => absurd hc (hne hphase nofun), fun _ hc => by cases hc⟩
  | ack hphase | skipAck hphase =>
      refine ⟨fun hc => absurd hc (hne hphase nofun), fun _ hc => ?_⟩
      dsimp only at hc
      split at hc <;> cases hc
  | close hphase =>
      refine ⟨fun hc => absurd hc (hne hphase nofun), fun _ _ => ?_⟩
      rw [emitted, if_pos hphase]
  | _ => exact ⟨fun hc => ⟨hc, rfl⟩, fun hn hc => absurd hc hn⟩

theorem handles_of_step {n m : State} {a : Node.Act} (h : Node.step srv peerAddr n a = some m)
    (hends : n.phase = .closing ∨ n.phase = .closed → n.handles = false)
    (hphase : m.phase = .closing ∨ m.phase = .closed) : m.handles = false := by
  cases Node.moves_of_step h with
  | recvClosed _ _ hhandles => exact hhandles
  | close hclosing => exact hends (Or.inl hclosing)
  | dropHandles => rfl
  | issue hhandles =>
      rw [hends hphase] at hhandles
      cases hhandles
  | ack | skipAck =>
      dsimp only at hphase
      split at hphase <;> rcases hphase with hc | hc <;> cases hc
  | recvRequest | register | pass | send | sendErr | connectErr | connectOk | openErr | openOk | retry
  | abort | announce | cancel => rcases hphase with hc | hc <;> cases hc
  | _ => exact hends hphase

theorem connecting_of_step {n m : State} {a : Node.Act} (h : Node.step srv peerAddr n a = some m)
    (hphase : n.phase = .connecting) (ha : attempted a = false) : m.phase = .connecting ∧ emitted n a = [] := by
  have hne {phase : Phase} (heq : n.phase = phase) (hnot : phase ≠ .connecting) : False :=
    hnot (heq.symm.trans hphase)
  cases Node.moves_of_step h with
  | recvRequest heq | recvClosed heq | register heq | pass heq | send heq | sendErr heq | ack heq | skipAck heq
  | openErr heq | openOk heq | retry heq | abort heq | close heq | announce heq | cancel heq =>
      exact (hne heq nofun).elim
  | connectErr | connectOk => cases ha
  | _ => exact ⟨hphase, rfl⟩

theorem ends_step (h : s.Ends) (hstep : step srv peerAddr s a = some t) : t.Ends := by
  cases moves_of_step hstep with
  | start =>
      refine ⟨?_, h.handles, fun hc => by cases hc⟩
      rw [Watch.Channel.sendAll_eq]
      exact h.closed
  | node hnode hstarted =>
      refine ⟨decide_eq_true_iff, handles_of_step hnode h.handles, fun hs => ?_⟩
      rcases hstarted with hstarted | ha
      · rw [hstarted] at hs
        cases hs
      · exact (connecting_of_step hnode (h.started hs) ha).1
  | _ => exact ⟨h.closed, h.handles, h.started⟩

theorem ends_run {acts : List Act} (hrun : Transition.run (step srv peerAddr) init acts = some s) : s.Ends :=
  Transition.run_invariant (fun _ _ _ h hstep => ends_step h hstep) ends_init hrun

/-! ### What a callback is told -/

/-- What holds of watcher `w`, which began when `start` statuses were kept, when `sent` were sent since. -/
structure Watches (w start : Nat) (sent : List NodeStatus) (s : Watched) : Prop where
  ends : s.Ends
  reads : ∃ rd, s.watchers[w]? = some rd ∧ rd.Follows s.channel start
  kept : s.channel.kept.drop start = sent
  last : s.node.phase = .closed → sent.getLast? = some .closed

theorem receivers_pos {w : Nat} {rd : Watch.Reader NodeStatus} (hrd : s.watchers[w]? = some rd)
    (hholds : rd.phase ≠ .ended) : s.receivers ≠ 0 := by
  have hmem : rd ∈ s.watchers.filter Watch.Reader.holds :=
    List.mem_filter.mpr ⟨List.mem_of_getElem? hrd, decide_eq_true hholds⟩
  have hpos := List.length_pos_of_mem hmem
  unfold receivers
  omega

/-- Once the channel is closed nothing is sent. -/
theorem emits_of_closed (h : s.Ends) (hclosed : s.channel.closed = true) (hstep : step srv peerAddr s a = some t) :
    emits s a = [] ∧ t.channel.closed = true := by
  have hphase := h.closed.mp hclosed
  have ht := (ends_step h hstep).closed
  cases moves_of_step hstep with
  | start hstarted =>
      rw [h.started hstarted] at hphase
      cases hphase
  | node hnode =>
      obtain ⟨hm, hemitted⟩ := (emitted_of_step hnode).1 hphase
      exact ⟨hemitted, ht.mpr hm⟩
  | _ => exact ⟨rfl, hclosed⟩

theorem watches_watch (h : s.Ends) (hwatch : step srv peerAddr s .watch = some t) :
    Watches s.watchers.length s.channel.kept.length [] t := by
  cases moves_of_step hwatch with
  | watch hhandles =>
      refine ⟨ends_step h hwatch, ⟨_, List.getElem?_concat_length, Watch.Reader.follows_reader _⟩,
        List.drop_length, fun hclosed => ?_⟩
      rw [h.handles (Or.inr hclosed)] at hhandles
      cases hhandles

theorem watches_step {w start : Nat} {sent : List NodeStatus} (h : Watches w start sent s)
    (hstep : step srv peerAddr s a = some t) : Watches w start (sent ++ emits s a) t := by
  obtain ⟨rd, hrd, hfollows⟩ := h.reads
  have hle : start ≤ s.channel.kept.length := Nat.le_trans hfollows.start_le hfollows.seen_le
  -- the watcher's own receiver keeps what is sent, until the channel is closed
  have hkept : t.channel.kept = s.channel.kept ++ emits s a := by
    rw [kept_of_step hstep]
    by_cases hended : rd.phase = .ended
    · rw [(emits_of_closed h.ends (hfollows.ended hended).1 hstep).1, ite_self]
    · rw [if_neg (receivers_pos hrd hended)]
  have hgrow (rd : Watch.Reader NodeStatus) (hrd : rd.Follows s.channel start) : rd.Follows t.channel start :=
    hrd.grow hkept fun hclosed => emits_of_closed h.ends hclosed hstep
  refine ⟨ends_step h.ends hstep, ?_, ?_, ?_⟩
  · cases moves_of_step hstep with
    | watch => exact ⟨rd, ListUpdate.getElem?_append_of_some hrd _, hfollows⟩
    | @poll v old new hold hpoll =>
        by_cases hv : v = w
        · subst hv
          obtain rfl : rd = old := Option.some.inj (hrd.symm.trans hold)
          exact ⟨new, ListUpdate.getElem?_set_of_some hrd, hfollows.poll hpoll⟩
        · exact ⟨rd, (List.getElem?_set_ne hv).trans hrd, hfollows⟩
    | @report v old new hold hreport =>
        by_cases hv : v = w
        · subst hv
          obtain rfl : rd = old := Option.some.inj (hrd.symm.trans hold)
          exact ⟨new, ListUpdate.getElem?_set_of_some hrd, hfollows.report hreport⟩
        · exact ⟨rd, (List.getElem?_set_ne hv).trans hrd, hfollows⟩
    | start | node => exact ⟨rd, hrd, hgrow rd hfollows⟩
    | subscribe | unsubscribe => exact ⟨rd, hrd, hfollows⟩
  · rw [hkept, List.drop_append_of_le_length hle, h.kept]
  · intro hphase
    by_cases hs : s.node.phase = .closed
    · rw [(emits_of_closed h.ends (h.ends.closed.mpr hs) hstep).1, List.append_nil]
      exact h.last hs
    · cases moves_of_step hstep with
      | node hnode =>
          have hemits : emits s (.node _) = [.closed] := (emitted_of_step hnode).2 hs hphase
          rw [hemits, List.getLast?_concat]
      | _ => exact absurd hphase hs

/-- The callback task that is started in `s` reports a subsequence of what the node sends from there on,
in order, each status at most twice. When the task has nothing to do it has reported the last status, and
when it has ended that was `Closed`. -/
theorem reports_sampled {before acts : List Act} (hreach : Transition.run (step srv peerAddr) init before = some s)
    (hrun : Transition.run (step srv peerAddr) s (.watch :: acts) = some t) :
    ∃ rd, t.watchers[s.watchers.length]? = some rd ∧
      rd.reports.Sublist (Watch.echoed (Transition.trace (step srv peerAddr) emits s (.watch :: acts))) ∧
      (rd.poll t.channel = none → rd.report t.channel = none →
        rd.reports.getLast? = (Transition.trace (step srv peerAddr) emits s (.watch :: acts)).getLast?) ∧
      (rd.phase = .ended → rd.reports.getLast? = some .closed) := by
  obtain ⟨u, hwatch, hrest⟩ := Transition.run_cons_eq_some.mp hrun
  have hstart := watches_watch (ends_run hreach) hwatch
  have h := Transition.run_invariant_observed (P := Watches s.watchers.length s.channel.kept.length)
    (fun _ _ _ _ h hstep => watches_step h hstep) hstart hrest
  have htrace : Transition.trace (step srv peerAddr) emits s (.watch :: acts) =
      Transition.trace (step srv peerAddr) emits u acts := by
    rw [Transition.trace, hwatch]
    rfl
  rw [htrace]
  obtain ⟨rd, hrd, hfollows⟩ := h.reads
  have hsublist := hfollows.reports_sublist
  rw [h.kept] at hsublist
  refine ⟨rd, hrd, hsublist, fun hpoll hreport => ?_, fun hended => ?_⟩
  · rw [hfollows.getLast?_eq hpoll hreport, h.kept]
  · obtain ⟨hclosed, -⟩ := hfollows.ended hended
    have hlast := h.last (h.ends.closed.mp hclosed)
    rw [hfollows.getLast?_eq ?_ ?_, h.kept, hlast]
    · rw [Watch.Reader.poll, if_neg (by rw [hended]; simp)]
    · rw [Watch.Reader.report, if_neg (by rw [hended]; simp)]

/-- The callback is called while `Connected` is sent, so that it hears of it twice and of `Connecting`
not at all. -/
theorem reports_sampled_twice : ∃ t rd,
    Transition.run (step invertServer none) init [.watch, .start, .poll 0, .node .connectOk, .node .openOk,
      .report 0, .poll 0, .report 0, .node .dropHandles, .node .recvClosed, .node .abort, .poll 0, .report 0,
      .poll 0] = some t ∧
    t.watchers[0]? = some rd ∧ rd.reports = [.connected, .connected, .closed] ∧
    rd.reports.Sublist (Watch.echoed (Transition.trace (step invertServer none) emits init [.watch, .start,
      .poll 0, .node .connectOk, .node .openOk, .report 0, .poll 0, .report 0, .node .dropHandles,
      .node .recvClosed, .node .abort, .poll 0, .report 0, .poll 0])) := by
  obtain ⟨t, ht, hreports⟩ : ∃ t, Transition.run (step invertServer none) init [.watch, .start, .poll 0,
      .node .connectOk, .node .openOk, .report 0, .poll 0, .report 0, .node .dropHandles, .node .recvClosed,
      .node .abort, .poll 0, .report 0, .poll 0] = some t ∧
      (t.watchers[0]?.map Watch.Reader.reports) = some [.connected, .connected, .closed] := ⟨_, rfl, rfl⟩
  have hreach : Transition.run (step invertServer none) init [] = some init := rfl
  obtain ⟨rd, hrd, hsublist, -⟩ := reports_sampled hreach ht
  refine ⟨t, rd, ht, hrd, ?_, hsublist⟩
  have hrd' : t.watchers[0]? = some rd := hrd
  rw [hrd', Option.map_some, Option.some.injEq] at hreports
  exact hreports

/-! ### What `status` returns -/

/-- What was sent so far, with what was heard of it, is what the node's status and the channel say. -/
structure Tells (seen : List (NodeStatus × Bool)) (s : Watched) : Prop where
  ends : s.Ends
  first : s.channel.first = .connecting
  kept : s.channel.kept = (seen.filter Prod.snd).map Prod.fst
  status : s.node.statusSent = (seen.map Prod.fst).getLastD .connecting
  unstarted : s.started = false → seen = []

theorem statusSent_of_step {n m : State} {a : Node.Act} (h : Node.step srv peerAddr n a = some m) :
    m.statusSent = (emitted n a).getLastD n.statusSent := by
  cases Node.moves_of_step h with
  | close hphase =>
      rw [emitted, if_pos hphase]
      rfl
  | abort hphase =>
      rw [emitted, if_neg (by rw [hphase]; simp)]
      rfl
  | _ => rfl

/-- The statuses that a step sends, with whether somebody holds a receiver. -/
def sends (s : Watched) (a : Act) : List (NodeStatus × Bool) :=
  (emits s a).map fun v => (v, decide (s.receivers ≠ 0))

@[simp] theorem map_fst_sends (s : Watched) (a : Act) : (sends s a).map Prod.fst = emits s a := by
  rw [sends, List.map_map]
  exact List.map_id _

theorem heard_sends (s : Watched) (a : Act) :
    ((sends s a).filter Prod.snd).map Prod.fst = if s.receivers = 0 then [] else emits s a := by
  by_cases hzero : s.receivers = 0
  · rw [if_pos hzero, List.filter_eq_nil_iff.mpr, List.map_nil]
    intro p hp
    obtain ⟨v, -, rfl⟩ := List.mem_map.mp hp
    simpa using hzero
  · rw [if_neg hzero, List.filter_eq_self.mpr, map_fst_sends]
    intro p hp
    obtain ⟨v, -, rfl⟩ := List.mem_map.mp hp
    exact decide_eq_true hzero

theorem tells_init : Tells [] init := ⟨ends_init, rfl, rfl, rfl, fun _ => rfl⟩

theorem tells_step {seen : List (NodeStatus × Bool)} (h : Tells seen s) (hstep : step srv peerAddr s a = some t) :
    Tells (seen ++ sends s a) t := by
  refine ⟨ends_step h.ends hstep, (first_of_step hstep).trans h.first, ?_, ?_, ?_⟩
  · rw [kept_of_step hstep, h.kept, List.filter_append, List.map_append, heard_sends]
  · rw [List.map_append, map_fst_sends]
    cases moves_of_step hstep with
    | start hstarted =>
        rw [h.status, h.unstarted hstarted]
        rfl
    | node hnode =>
        show _ = (_ ++ emitted s.node _).getLastD _
        rw [statusSent_of_step hnode, h.status]
        rcases List.eq_nil_or_concat (emitted s.node _) with hnil | ⟨init, v, hlast⟩
        · rw [hnil, List.append_nil]
          rfl
        · rw [hlast, List.concat_eq_append, ← List.append_assoc, List.getLastD_concat, List.getLastD_concat]
    | _ => exact h.status.trans (congrArg (fun l => List.getLastD l _) (List.append_nil _).symm)
  · intro hstarted
    cases moves_of_step hstep with
    | start => cases hstarted
    | node hnode hok =>
        rcases hok with hok | ha
        · rw [hok] at hstarted
          cases hstarted
        · have hnone := (connecting_of_step hnode (h.ends.started hstarted) ha).2
          rw [h.unstarted hstarted, sends, emits, hnone]
          rfl
    | _ => exact (List.append_nil _).trans (h.unstarted hstarted)

/-- Nobody has asked for the status of the node. -/
structure Unheard (s : Watched) : Prop where
  subscribers : s.subscribers = 0
  watchers : s.watchers = []
  channel : s.channel.kept = []

theorem unheard_step (h : s.Unheard) (ha : a ≠ .subscribe ∧ a ≠ .watch) (hstep : step srv peerAddr s a = some t) :
    t.Unheard := by
  have hzero : s.receivers = 0 := by
    rw [receivers, h.subscribers, h.watchers]
    rfl
  have hkept : t.channel.kept = [] := by
    rw [kept_of_step hstep, h.channel, if_pos hzero]
    rfl
  cases moves_of_step hstep with
  | subscribe => exact absurd rfl ha.1
  | watch => exact absurd rfl ha.2
  | unsubscribe hsome =>
      rw [h.subscribers] at hsome
      cases hsome
  | poll hrd | report hrd =>
      rw [h.watchers] at hrd
      cases hrd
  | start | node => exact ⟨h.subscribers, h.watchers, hkept⟩

/-- `status` returns the last status that was sent while somebody held a receiver. For a node whose status
nobody has asked for that is `Connecting`, whatever became of the node; with a callback registered before
the node was added it is always the last status that was sent. -/
theorem status_after {acts : List Act} (hrun : Transition.run (step srv peerAddr) init acts = some s) :
    s.status = (((Transition.trace (step srv peerAddr) sends init acts).filter Prod.snd).map
      Prod.fst).getLastD .connecting ∧
    s.node.statusSent = ((Transition.trace (step srv peerAddr) sends init acts).map
      Prod.fst).getLastD .connecting ∧
    ((∀ a ∈ acts, a ≠ .subscribe ∧ a ≠ .watch) → s.status = .connecting) ∧
    (∀ post, acts = .watch :: post → s.status = s.node.statusSent) := by
  have h : Tells (Transition.trace (step srv peerAddr) sends init acts) s :=
    Transition.run_invariant_observed (fun _ _ _ _ h hstep => tells_step h hstep) tells_init hrun
  have hvalue : s.status = s.channel.kept.getLastD .connecting := by
    rw [status, Watch.Channel.value, h.first]
  refine ⟨by rw [hvalue, h.kept], h.status, fun hnone => ?_, ?_⟩
  · have hunheard : s.Unheard := Transition.run_invariant_within (fun _ _ _ h ha hstep => unheard_step h ha hstep)
      (show init.Unheard from ⟨rfl, rfl, rfl⟩) (Transition.within_of_forall hnone) hrun
    rw [hvalue, hunheard.channel]
    rfl
  · rintro post rfl
    obtain ⟨u, hwatch, hpost⟩ := Transition.run_cons_eq_some.mp hrun
    have hstart : Watches 0 0 ((sends init .watch).map Prod.fst) u := watches_watch ends_init hwatch
    have hkeeps : ∀ seen s a t, Watches 0 0 (seen.map Prod.fst) s → step srv peerAddr s a = some t →
        Watches 0 0 ((seen ++ sends s a).map Prod.fst) t := by
      intro seen s a t h hstep
      rw [List.map_append, map_fst_sends]
      exact watches_step h hstep
    have hwatches := Transition.run_invariant_observed (P := fun seen s => Watches 0 0 (seen.map Prod.fst) s) hkeeps
      hstart hpost
    have hkept := hwatches.kept
    rw [List.drop_zero] at hkept
    rw [hvalue, h.status, Transition.trace, hwatch, hkept]
    rfl

/-- A node that nobody has asked is connected, and says that it is connecting. -/
theorem status_after_unheard : ∃ s,
    Transition.run (step invertServer none) init [.start, .node .connectOk, .node .openOk] = some s ∧
    s.node.statusSent = .connected ∧ s.status = .connecting := by
  obtain ⟨s, hs, hstatus⟩ : ∃ s, Transition.run (step invertServer none) init
      [.start, .node .connectOk, .node .openOk] = some s ∧ s.node.statusSent = .connected := ⟨_, rfl, rfl⟩
  obtain ⟨-, -, hunheard, -⟩ := status_after hs
  refine ⟨s, hs, hstatus, hunheard fun a ha => ?_⟩
  simp only [List.mem_cons, List.not_mem_nil, or_false] at ha
  obtain rfl | rfl | rfl := ha <;> exact ⟨nofun, nofun⟩

/-! ### The state diagram -/

/-- The states of the diagram that the statuses follow. -/
inductive Stage where
  | idle
  | attempting
  | backoff
  | up
  | over
  deriving DecidableEq, Repr

/-- The transitions of the diagram. A node closes only while it is connected, and a connection that is
lost is reported twice, when it ends and when the next attempt begins. -/
def Stage.next : Stage → NodeStatus → Option Stage
  | .idle, .connecting => some .attempting
  | .attempting, .connected => some .up
  | .attempting, .unreachable => some .backoff
  | .backoff, .reconnecting => some .attempting
  | .up, .reconnecting => some .backoff
  | .up, .closed => some .over
  | _, _ => none

/-- Where `run_node` stands in the diagram. -/
def phaseStage : Phase → Stage
  | .connecting | .opening => .attempting
  | .backoff | .cancelling => .backoff
  | .streaming _ | .died | .aborted | .closing => .up
  | .closed => .over

def stage (s : Watched) : Stage := if s.started then phaseStage s.node.phase else .idle

/-- After the first attempt every attempt is a further one. -/
def Retries (n : State) : Prop := n.phase ≠ .connecting ∧ n.phase ≠ .opening → n.firstAttempt = false

theorem retries_of_step {n m : State} {a : Node.Act} (hretries : Retries n)
    (h : Node.step srv peerAddr n a = some m) :
    Retries m ∧ Transition.run Stage.next (phaseStage n.phase) (emitted n a) = some (phaseStage m.phase) := by
  have hkeep {phase : Phase} (hphase : n.phase = phase) (hnot : phase ≠ .connecting ∧ phase ≠ .opening) :
      n.firstAttempt = false := hretries (hphase ▸ hnot)
  cases Node.moves_of_step h with
  | recvRequest hphase | recvClosed hphase | register hphase | pass hphase | send hphase | sendErr hphase =>
      refine ⟨fun _ => hkeep hphase (by simp), ?_⟩
      rw [hphase]
      rfl
  | @ack _ _ ok hphase | @skipAck _ ok hphase =>
      refine ⟨fun _ => hkeep hphase (by simp), ?_⟩
      rw [hphase]
      cases ok <;> rfl
  | connectErr hphase | openErr hphase | openOk hphase =>
      refine ⟨fun _ => rfl, ?_⟩
      rw [hphase]
      rfl
  | connectOk hphase =>
      refine ⟨fun hnot => absurd rfl hnot.2, ?_⟩
      rw [hphase]
      rfl
  | retry hphase =>
      refine ⟨fun hnot => absurd rfl hnot.1, ?_⟩
      rw [emitted, hkeep hphase (by simp), hphase]
      rfl
  | abort hphase =>
      refine ⟨fun _ => hkeep hphase (by simp), ?_⟩
      rw [emitted, hphase]
      rfl
  | close hphase =>
      refine ⟨fun _ => hkeep hphase (by simp), ?_⟩
      rw [emitted, hphase]
      rfl
  | announce hphase | cancel hphase =>
      refine ⟨fun _ => hkeep hphase (by simp), ?_⟩
      rw [hphase]
      rfl
  | _ => exact ⟨hretries, rfl⟩

/-- What was sent leads in the diagram to where the node stands. -/
structure Charted (sent : List NodeStatus) (s : Watched) : Prop where
  ends : s.Ends
  retries : Retries s.node
  path : Transition.run Stage.next .idle sent = some s.stage

theorem charted_step {sent : List NodeStatus} (h : Charted sent s) (hstep : step srv peerAddr s a = some t) :
    Charted (sent ++ emits s a) t := by
  have hends := ends_step h.ends hstep
  have hpath {new : List NodeStatus} (hnew : Transition.run Stage.next s.stage new = some t.stage) :
      Transition.run Stage.next .idle (sent ++ new) = some t.stage :=
    Transition.run_append_eq_some.mpr ⟨s.stage, h.path, hnew⟩
  cases moves_of_step hstep with
  | start hstarted =>
      refine ⟨hends, h.retries, hpath ?_⟩
      rw [stage, stage, hstarted, h.ends.started hstarted]
      rfl
  | node hnode hok =>
      obtain ⟨hretries, hrun⟩ := retries_of_step h.retries hnode
      refine ⟨hends, hretries, hpath ?_⟩
      cases hs : s.started with
      | true =>
          rw [stage, stage, hs]
          exact hrun
      | false =>
          rw [hs] at hok
          rw [stage, stage, hs, emits,
            (connecting_of_step hnode (h.ends.started hs) (hok.resolve_left (by simp))).2]
          rfl
  | _ => exact ⟨hends, h.retries, hpath rfl⟩

theorem charted_run {acts : List Act} (hrun : Transition.run (step srv peerAddr) init acts = some s) :
    Charted (Transition.trace (step srv peerAddr) emits init acts) s :=
  Transition.run_invariant_observed (fun _ _ _ _ h hstep => charted_step h hstep)
    (show Charted [] init from ⟨ends_init, fun hnot => absurd rfl hnot.1, rfl⟩) hrun

/-! ### Every path of the diagram is taken -/

/-- A node on the way through the diagram that was not asked to end: no request is in its queue or on its
way there. -/
structure Poised (n : State) : Prop where
  handles : n.handles = true
  queue : n.queue = []
  calls : ∀ call ∈ n.calls, call.stage = .enqueued
  retries : Retries n
  phase : n.phase = .connecting ∨ n.phase = .backoff ∨ (n.phase = .streaming .waiting ∧ n.streams ≠ [])

/-- The node can get from `n` to `m`, and sends `values` on the way. -/
def Leads (srv : Server) (peerAddr : Option String) (n : State) (values : List NodeStatus) (m : State) : Prop :=
  ∃ acts, Transition.run (Node.step srv peerAddr) n acts = some m ∧
    Transition.trace (Node.step srv peerAddr) emitted n acts = values

section Leads

variable {n m k : State} {values values' : List NodeStatus}

theorem Leads.trans (h : Leads srv peerAddr n values m) (h' : Leads srv peerAddr m values' k) :
    Leads srv peerAddr n (values ++ values') k := by
  obtain ⟨acts, hrun, rfl⟩ := h
  obtain ⟨acts', hrun', rfl⟩ := h'
  exact ⟨acts ++ acts', Transition.run_append_eq_some.mpr ⟨m, hrun, hrun'⟩, Transition.trace_append hrun⟩

theorem Leads.of_step {a : Node.Act} (hstep : Node.step srv peerAddr n a = some m) (hvalues : emitted n a = values) :
    Leads srv peerAddr n values m := by
  refine ⟨[a], Transition.run_cons_eq_some.mpr ⟨m, hstep, rfl⟩, ?_⟩
  rw [Transition.trace, hstep, hvalues]
  exact List.append_nil values

/-- A call comes in and is queued. -/
theorem Poised.queues (h : Poised n) (srv : Server) (peerAddr : Option String) :
    ∃ call : Call, Leads srv peerAddr n [] { n with
      seq := Node.nextSeq n.seq
      calls := n.calls ++ [call]
      queue := [call.request n.calls.length]
      log := n.log ++ [n.calls.length] } ∧ call.stage = .enqueued := by
  refine ⟨⟨.oneWay, "", [], [], Node.nextSeq n.seq, .enqueued⟩, ?_, rfl⟩
  have hissue : Node.step srv peerAddr n (.issue .oneWay "" [] []) =
      some { n with calls := n.calls ++ [⟨.oneWay, "", [], [], 0, .issued⟩] } := if_pos h.handles
  have hnumber : Node.step srv peerAddr { n with calls := n.calls ++ [⟨.oneWay, "", [], [], 0, .issued⟩] }
      (.nextSeq n.calls.length) = some { n with
        seq := Node.nextSeq n.seq
        calls := n.calls ++ [⟨.oneWay, "", [], [], Node.nextSeq n.seq, .numbered⟩] } := by
    simp [Node.step, callerStep]
  have henqueue : Node.step srv peerAddr { n with
        seq := Node.nextSeq n.seq
        calls := n.calls ++ [⟨.oneWay, "", [], [], Node.nextSeq n.seq, .numbered⟩] }
      (.enqueue n.calls.length) = some { n with
        seq := Node.nextSeq n.seq
        calls := n.calls ++ [⟨.oneWay, "", [], [], Node.nextSeq n.seq, .enqueued⟩]
        queue := [Call.request ⟨.oneWay, "", [], [], Node.nextSeq n.seq, .enqueued⟩ n.calls.length]
        log := n.log ++ [n.calls.length] } := by
    have hphase : n.phase ≠ .closed := by
      rcases h.phase with hc | hc | ⟨hc, -⟩ <;> rw [hc] <;> simp
    simp [Node.step, callerStep, hphase, h.queue, Call.request, Call.wire]
  exact ((Leads.of_step hissue rfl).trans (Leads.of_step hnumber rfl)).trans (Leads.of_step henqueue rfl)

/-- `sender_loop` takes the request in the queue and cannot hand it over. -/
theorem leads_died {req : OutboundRequest} {st : Stream} (hphase : n.phase = .streaming .waiting)
    (hqueue : n.queue = [req]) (hst : n.streams[n.streams.length - 1]? = some st) (hclosed : st.wireOpen = false)
    (srv : Server) (peerAddr : Option String) :
    ∃ router streams acks, streams.length = n.streams.length ∧
      Leads srv peerAddr n [] { n with queue := [], phase := .died, router, streams, acks } := by
  have hrecv : Node.step srv peerAddr n .recvRequest =
      some { n with queue := [], phase := .streaming (.dequeued req) } := by
    simp only [Node.step, senderStep, hphase, hqueue]
  obtain ⟨router, hregister⟩ : ∃ router,
      Node.step srv peerAddr { n with queue := [], phase := .streaming (.dequeued req) } .register =
        some { n with queue := [], phase := .streaming (.ready req), router } := by
    cases htx : req.responseTx with
    | none => exact ⟨n.router, by simp only [Node.step, senderStep, htx]⟩
    | some c => exact ⟨_, by simp only [Node.step, senderStep, htx]; rfl⟩
  have hsend : Node.step srv peerAddr { n with queue := [], phase := .streaming (.ready req), router } .send =
      some { n with
        queue := []
        phase := .streaming (.sent req false)
        router
        streams := n.streams.set (n.streams.length - 1) { st with failed := st.failed ++ [req.call] } } := by
    simp only [Node.step, senderStep, State.current, hst, hclosed]
    rfl
  refine ⟨router, n.streams.set (n.streams.length - 1) { st with failed := st.failed ++ [req.call] }, _,
    List.length_set, ((Leads.of_step hrecv rfl).trans (Leads.of_step hregister rfl)).trans
      ((Leads.of_step hsend rfl).trans (Leads.of_step (a := .ack) rfl rfl))⟩

/-- `run_node` gives the stream up. -/
theorem leads_backoff {st : Stream} (hphase : n.phase = .died) (hst : n.streams[n.streams.length - 1]? = some st)
    (srv : Server) (peerAddr : Option String) :
    ∃ router streams statusSent, Leads srv peerAddr n [.reconnecting]
      { n with phase := .backoff, router, streams, statusSent } := by
  have habort : Node.step srv peerAddr n .abort = some { n with
      phase := .aborted
      streams := n.streams.set (n.streams.length - 1) { st with aborted := true } } := by
    simp only [Node.step, nodeStep, State.current, hst, hphase]
    rfl
  have hsilent : emitted n .abort = [] := by rw [emitted, hphase]; rfl
  exact ⟨_, _, _, (Leads.of_step habort hsilent).trans
    ((Leads.of_step (a := .announce) rfl rfl).trans (Leads.of_step (a := .cancel) rfl rfl))⟩

/-- A stream that dies under a request is given up. -/
theorem Poised.loses (h : Poised n) (hphase : n.phase = .streaming .waiting) (hstreams : n.streams ≠ [])
    (srv : Server) (peerAddr : Option String) :
    ∃ m, Leads srv peerAddr n [.reconnecting] m ∧ Poised m ∧ m.phase = .backoff := by
  obtain ⟨call, hqueued, hstage⟩ := h.queues srv peerAddr
  obtain ⟨st, hst⟩ := exists_current hstreams
  let queued : State := { n with
    seq := Node.nextSeq n.seq
    calls := n.calls ++ [call]
    queue := [call.request n.calls.length]
    log := n.log ++ [n.calls.length] }
  have hcut : Node.step srv peerAddr queued (.closeWire n.current) =
      some { queued with streams := n.streams.set n.current { st with wireOpen := false } } := by
    simp only [Node.step, streamStep, queued, hst]
    rfl
  have hlast : (n.streams.set n.current { st with wireOpen := false })[(n.streams.set n.current
      { st with wireOpen := false }).length - 1]? = some { st with wireOpen := false } := by
    rw [List.length_set]
    exact ListUpdate.getElem?_set_of_some hst
  obtain ⟨router, streams, acks, hlength, hdied⟩ := leads_died
    (n := { queued with streams := n.streams.set n.current { st with wireOpen := false } })
    hphase rfl hlast rfl srv peerAddr
  have hlt : streams.length - 1 < streams.length := by
    have := List.length_pos_iff.mpr hstreams
    rw [hlength, List.length_set]
    omega
  obtain ⟨router', streams', status, hbackoff⟩ := leads_backoff
    (n := { queued with queue := [], phase := .died, router, streams, acks })
    rfl (List.getElem?_eq_getElem hlt) srv peerAddr
  refine ⟨_, (hqueued.trans (Leads.of_step hcut rfl)).trans (hdied.trans hbackoff),
    ⟨h.handles, rfl, fun c hc => ?_, fun _ => ?_, Or.inr (Or.inl rfl)⟩, rfl⟩
  · rcases List.mem_append.mp hc with hc | hc
    · exact h.calls c hc
    · rw [List.mem_singleton.mp hc]
      exact hstage
  · exact h.retries (by rw [hphase]; simp)

/-- A poised node takes every transition of the diagram. -/
theorem Poised.takes (h : Poised n) {v : NodeStatus} {st : Stage} (hnext : (phaseStage n.phase).next v = some st)
    (srv : Server) (peerAddr : Option String) :
    ∃ m, Leads srv peerAddr n [v] m ∧ phaseStage m.phase = st ∧ (st = .over ∨ Poised m) := by
  rcases h.phase with hphase | hphase | ⟨hphase, hstreams⟩
  · rw [hphase] at hnext
    cases v with
    | connected =>
        cases hnext
        have hconnect : Node.step srv peerAddr n .connectOk = some { n with phase := .opening } := if_pos hphase
        have hopen : Node.step srv peerAddr { n with phase := .opening } .openOk = some { n with
            phase := .streaming .waiting
            statusSent := .connected
            firstAttempt := false
            streams := n.streams ++ [Stream.open n.streams.length] } := rfl
        exact ⟨_, (Leads.of_step hconnect rfl).trans (Leads.of_step hopen rfl), rfl,
          Or.inr ⟨h.handles, h.queue, h.calls, fun _ => rfl, Or.inr (Or.inr ⟨rfl, by simp⟩)⟩⟩
    | unreachable =>
        cases hnext
        have hfail : Node.step srv peerAddr n .connectErr =
            some { n with phase := .backoff, statusSent := .unreachable, firstAttempt := false } := if_pos hphase
        exact ⟨_, Leads.of_step hfail rfl, rfl,
          Or.inr ⟨h.handles, h.queue, h.calls, fun _ => rfl, Or.inr (Or.inl rfl)⟩⟩
    | connecting | reconnecting | closed => cases hnext
  · rw [hphase] at hnext
    cases v with
    | reconnecting =>
        cases hnext
        have hfirst : n.firstAttempt = false := h.retries (by rw [hphase]; simp)
        have hretry : Node.step srv peerAddr n .retry = some { n with
            phase := .connecting
            statusSent := if n.firstAttempt then .connecting else .reconnecting } := if_pos hphase
        have hemits : emitted n .retry = [.reconnecting] := by
          rw [emitted, hfirst]
          rfl
        exact ⟨_, Leads.of_step hretry hemits, rfl,
          Or.inr ⟨h.handles, h.queue, h.calls, fun hnot => absurd rfl hnot.1, Or.inl rfl⟩⟩
    | connecting | connected | unreachable | closed => cases hnext
  · rw [hphase] at hnext
    cases v with
    | reconnecting =>
        cases hnext
        obtain ⟨m, hleads, hm, hbackoff⟩ := h.loses hphase hstreams srv peerAddr
        exact ⟨m, hleads, by rw [hbackoff]; rfl, Or.inr hm⟩
    | closed =>
        cases hnext
        obtain ⟨current, hcurrent⟩ := exists_current hstreams
        have hall : (n.calls.all fun call => call.stage = .enqueued ∨ call.stage = .refused) = true :=
          List.all_eq_true.mpr fun call hcall => decide_eq_true (Or.inl (h.calls call hcall))
        have hdrop : Node.step srv peerAddr n .dropHandles = some { n with handles := false } := if_pos hall
        have hend : Node.step srv peerAddr { n with handles := false } .recvClosed =
            some { n with handles := false, phase := .closing } := if_pos ⟨hphase, h.queue, rfl⟩
        have habort : Node.step srv peerAddr { n with handles := false, phase := .closing } .abort = some { n with
            handles := false
            phase := .closed
            statusSent := .closed
            streams := n.streams.set n.current { current with aborted := true } } := by
          simp only [Node.step, nodeStep, State.current]
          rw [show n.streams[n.streams.length - 1]? = some current from hcurrent]
          rfl
        exact ⟨_, ((Leads.of_step hdrop rfl).trans (Leads.of_step hend rfl)).trans (Leads.of_step habort rfl), rfl,
          Or.inl rfl⟩
    | connecting | connected | unreachable => cases hnext

theorem next_over (v : NodeStatus) : Stage.next .over v = none := by cases v <;> rfl

theorem Poised.leads_path (h : Poised n) {sent : List NodeStatus} {st : Stage}
    (hpath : Transition.run Stage.next (phaseStage n.phase) sent = some st) (srv : Server)
    (peerAddr : Option String) : ∃ m, Leads srv peerAddr n sent m := by
  induction sent generalizing n with
  | nil => exact ⟨n, [], rfl, rfl⟩
  | cons v sent ih =>
      obtain ⟨st', hnext, hrest⟩ := Transition.run_cons_eq_some.mp hpath
      obtain ⟨m, hleads, rfl, hover | hm⟩ := h.takes hnext srv peerAddr
      · -- nothing follows a node that has closed
        rw [hover] at hrest
        cases sent with
        | nil => exact ⟨m, hleads⟩
        | cons w sent =>
            obtain ⟨_, hw, -⟩ := Transition.run_cons_eq_some.mp hrest
            rw [next_over] at hw
            cases hw
      · obtain ⟨k, hk⟩ := ih hm hrest
        exact ⟨k, hleads.trans hk⟩

end Leads

/-- The steps of the node alone, once it has started. -/
theorem exists_run_node {acts : List Node.Act} {m : State} (hstarted : s.started = true)
    (hrun : Transition.run (Node.step srv peerAddr) s.node acts = some m) :
    ∃ t, Transition.run (step srv peerAddr) s (acts.map .node) = some t ∧
      Transition.trace (step srv peerAddr) emits s (acts.map .node) =
        Transition.trace (Node.step srv peerAddr) emitted s.node acts := by
  induction acts generalizing s with
  | nil => exact ⟨s, rfl, rfl⟩
  | cons a acts ih =>
      obtain ⟨k, hstep, hrest⟩ := Transition.run_cons_eq_some.mp hrun
      let next : Watched := { s with
        node := k
        channel := { s.channel.sendAll s.receivers (emitted s.node a) with closed := k.phase = .closed } }
      have hnext : step srv peerAddr s (.node a) = some next := by
        have hok : ¬(s.started = false ∧ attempted a = true) := by
          rw [hstarted]
          rintro ⟨hc, -⟩
          cases hc
        rw [step, if_neg hok, hstep]
        rfl
      obtain ⟨t, ht, htrace⟩ := ih (s := next) hstarted hrest
      refine ⟨t, Transition.run_cons_eq_some.mpr ⟨next, hnext, ht⟩, ?_⟩
      rw [List.map_cons, Transition.trace, Transition.trace, hnext, hstep]
      exact congrArg (emitted s.node a ++ ·) htrace

/-- The statuses that a node sends in its runs are the paths of the diagram: nothing else is ever sent,
and every path is sent in some run. -/
theorem statuses_iff (srv : Server) (peerAddr : Option String) (sent : List NodeStatus) :
    (∃ acts s, Transition.run (step srv peerAddr) init acts = some s ∧
      Transition.trace (step srv peerAddr) emits init acts = sent) ↔
    ∃ st, Transition.run Stage.next .idle sent = some st := by
  constructor
  · rintro ⟨acts, s, hrun, rfl⟩
    exact ⟨s.stage, (charted_run hrun).path⟩
  · rintro ⟨st, hpath⟩
    cases sent with
    | nil => exact ⟨[], init, rfl, rfl⟩
    | cons v sent =>
        obtain ⟨st', hnext, hrest⟩ := Transition.run_cons_eq_some.mp hpath
        obtain ⟨rfl, rfl⟩ : v = .connecting ∧ st' = .attempting := by
          cases v <;> cases hnext
          exact ⟨rfl, rfl⟩
        have hpoised : Poised Node.init :=
          ⟨rfl, rfl, fun call hcall => (List.not_mem_nil hcall).elim, fun hnot => absurd rfl hnot.1, Or.inl rfl⟩
        obtain ⟨m, acts, hacts, rfl⟩ := hpoised.leads_path hrest srv peerAddr
        let started : Watched := { init with started := true }
        have hstart : step srv peerAddr init .start = some started := rfl
        obtain ⟨t, ht, htrace⟩ := exists_run_node (s := started) rfl hacts
        refine ⟨.start :: acts.map .node, t, Transition.run_cons_eq_some.mpr ⟨started, hstart, ht⟩, ?_⟩
        rw [Transition.trace, hstart]
        exact congrArg ([NodeStatus.connecting] ++ ·) htrace

end Watched

end Quorums.Node
