import Quorums.NodeReplies

/-! The end of a node. `run_node` ends when its queue is closed, and it looks at the queue only in
`sender_loop`. A node is released when its last handle is gone and nothing is left of its queue; from
there it shuts down if it does not have to connect again first. -/

namespace Quorums.Node

open Server ListUpdate

variable {srv : Server} {peerAddr : Option String} {s t : State} {a : Act} {acts : List Act}

/-- The statuses that a step emits. -/
def emitted (s : State) : Act → List NodeStatus
  | .connectErr | .openErr => [.unreachable]
  | .openOk => [.connected]
  | .retry => [if s.firstAttempt then .connecting else .reconnecting]
  | .announce => [.reconnecting]
  | .abort => if s.phase = .closing then [.closed] else []
  | _ => []

def Phase.isStreaming : Phase → Bool
  | .streaming _ => true
  | _ => false

/-- A connection attempt is in progress. -/
def Phase.attempting : Phase → Bool
  | .connecting | .opening => true
  | _ => false

/-- The next attempt is the next thing `run_node` gets to. -/
def Phase.retrying : Phase → Bool
  | .backoff | .died | .aborted | .cancelling => true
  | _ => false

/-- Every handle was dropped, and no request is in the queue or in the hands of `sender_loop`. -/
structure State.Released (s : State) : Prop where
  handles : s.handles = false
  queue : s.queue = []
  inHand : ∀ sender, s.phase = .streaming sender → sender = .waiting

/-- The node shuts down in the run from `s` to `t`: no further attempt is started, what is emitted is the
outcome of the attempt in progress, if there is one, and then `Closed`, and the task can still end. -/
structure ShutsDown (srv : Server) (peerAddr : Option String) (s : State) (acts : List Act) (t : State) :
    Prop where
  noRetry : .retry ∉ acts
  emits : ∃ outcomes, (s.phase.attempting = true → outcomes.length = 1) ∧
    (s.phase.attempting = false → outcomes = []) ∧
    Transition.trace (step srv peerAddr) emitted s acts <+: outcomes ++ [.closed]
  ends : ∃ more u, .retry ∉ more ∧ Transition.run (step srv peerAddr) t more = some u ∧ u.phase = .closed

/-! ### What holds of every node -/

/-- Once the handles are gone no request is on its way to the queue, and a sender loop has its stream. -/
structure State.Tidy (s : State) : Prop where
  calls : s.handles = false → ∀ call ∈ s.calls, call.stage = .enqueued ∨ call.stage = .refused
  stream : s.phase.isStreaming = true ∨ s.phase = .closing → s.streams ≠ []

theorem stage_of_ready {call : Call}
    (hstage : call.stage = if call.kind = .streaming then .registered else .numbered) :
    ¬(call.stage = .enqueued ∨ call.stage = .refused) := by
  rw [hstage]
  split <;> decide

theorem tidy_init : init.Tidy := ⟨nofun, by rintro (h | h) <;> cases h⟩

theorem set_ne_nil {streams : List Stream} {k : Nat} {st : Stream} (h : streams ≠ []) :
    streams.set k st ≠ [] := by
  rwa [Ne, List.set_eq_nil_iff]

theorem tidy_step (h : s.Tidy) (hstep : step srv peerAddr s a = some t) : t.Tidy := by
  cases moves_of_step hstep with
  | issue hhandles =>
      refine ⟨fun hgone => ?_, h.stream⟩
      rw [hhandles] at hgone
      cases hgone
  | nextSeq hcall hstage | registerStream hcall _ hstage =>
      refine ⟨fun hgone => ?_, h.stream⟩
      have hold := h.calls hgone _ (List.mem_of_getElem? hcall)
      rw [hstage] at hold
      exact absurd hold (by decide)
  | refuse hcall hstage | enqueue hcall hstage =>
      refine ⟨fun hgone => ?_, h.stream⟩
      exact absurd (h.calls hgone _ (List.mem_of_getElem? hcall)) (stage_of_ready hstage)
  | dropReceiver => exact ⟨h.calls, h.stream⟩
  | dropHandles hcalls =>
      refine ⟨fun _ call hcall => ?_, h.stream⟩
      simpa using List.all_eq_true.mp hcalls call hcall
  | recvRequest hphase | register hphase | pass hphase | recvClosed hphase =>
      exact ⟨h.calls, fun _ => h.stream (Or.inl (by rw [hphase]; rfl))⟩
  | send hphase | sendErr hphase =>
      exact ⟨h.calls, fun _ => set_ne_nil (h.stream (Or.inl (by rw [hphase]; rfl)))⟩
  | ack hphase | skipAck hphase => exact ⟨h.calls, fun _ => h.stream (Or.inl (by rw [hphase]; rfl))⟩
  | openOk => exact ⟨h.calls, fun _ => by simp⟩
  | connectErr | connectOk | openErr | retry | abort | close | announce | cancel =>
      exact ⟨h.calls, by rintro (hc | hc) <;> cases hc⟩
  | closeWire | server | fetch | fetchEnd | fetchErr | deliver | fail | stopRecv =>
      exact ⟨h.calls, fun hphase => set_ne_nil (h.stream hphase)⟩

theorem tidy_run (hrun : Transition.run (step srv peerAddr) init acts = some s) : s.Tidy :=
  Transition.run_invariant (fun _ _ _ h hstep => tidy_step h hstep) tidy_init hrun

/-- A node that is released stays released. -/
theorem released_step (htidy : s.Tidy) (h : s.Released) (hstep : step srv peerAddr s a = some t) :
    t.Released := by
  cases moves_of_step hstep with
  | issue hhandles =>
      rw [h.handles] at hhandles
      cases hhandles
  | enqueue hcall hstage =>
      exact absurd (htidy.calls h.handles _ (List.mem_of_getElem? hcall)) (stage_of_ready hstage)
  | recvRequest _ hqueue =>
      rw [h.queue] at hqueue
      cases hqueue
  | dropHandles => exact ⟨rfl, h.queue, h.inHand⟩
  | register hphase | pass hphase | send hphase | sendErr hphase | ack hphase | skipAck hphase =>
      cases h.inHand _ hphase
  | openOk =>
      refine ⟨h.handles, h.queue, fun sender hsender => ?_⟩
      cases hsender
      rfl
  | recvClosed | connectErr | connectOk | openErr | retry | abort | close | announce | cancel =>
      exact ⟨h.handles, h.queue, nofun⟩
  | _ => exact ⟨h.handles, h.queue, h.inHand⟩

/-! ### A node that has to connect again -/

theorem retrying_step (h : s.phase.retrying = true) (hretry : a ≠ .retry)
    (hstep : step srv peerAddr s a = some t) : t.phase.retrying = true := by
  have hne {phase : Phase} (hphase : s.phase = phase) (hnot : phase.retrying = false) : False := by
    rw [hphase, hnot] at h
    cases h
  cases moves_of_step hstep with
  | recvRequest hphase | recvClosed hphase | register hphase | pass hphase | send hphase | sendErr hphase
  | ack hphase | skipAck hphase | connectErr hphase | connectOk hphase | openErr hphase | openOk hphase
  | close hphase => exact (hne hphase rfl).elim
  | retry => exact absurd rfl hretry
  | abort | announce | cancel => rfl
  | _ => exact h

/-- It does not end without a further attempt. -/
theorem retrying_run (h : s.phase.retrying = true) (hretry : .retry ∉ acts)
    (hrun : Transition.run (step srv peerAddr) s acts = some t) : t.phase.retrying = true := by
  have hok : ∀ a ∈ acts, a ≠ .retry := fun _ ha hc => hretry (hc ▸ ha)
  exact Transition.run_invariant_within (P := fun s => s.phase.retrying = true)
    (fun _ _ _ h hok hstep => retrying_step h hok hstep) h (Transition.within_of_forall hok) hrun

theorem not_ends_of_retrying (h : s.phase.retrying = true) :
    ¬∃ more u, .retry ∉ more ∧ Transition.run (step srv peerAddr) s more = some u ∧ u.phase = .closed := by
  rintro ⟨more, u, hretry, hrun, hclosed⟩
  have hu := retrying_run h hretry hrun
  rw [hclosed] at hu
  cases hu

/-- A failed attempt leaves the task in its backoff. -/
theorem retrying_of_failed (hfailed : a = .connectErr ∨ a = .openErr)
    (hstep : step srv peerAddr s a = some t) : t.phase.retrying = true := by
  rcases hfailed with rfl | rfl <;> cases moves_of_step hstep <;> rfl

theorem not_shutsDown_of_failed (hfailed : .connectErr ∈ acts ∨ .openErr ∈ acts)
    (hrun : Transition.run (step srv peerAddr) s acts = some t) : ¬ShutsDown srv peerAddr s acts t := by
  intro h
  obtain ⟨a, hmem, ha⟩ : ∃ a ∈ acts, a = .connectErr ∨ a = .openErr := by
    rcases hfailed with hmem | hmem
    · exact ⟨_, hmem, Or.inl rfl⟩
    · exact ⟨_, hmem, Or.inr rfl⟩
  obtain ⟨pre, post, rfl⟩ := List.append_of_mem hmem
  obtain ⟨u, -, hpost⟩ := Transition.run_append_eq_some.mp hrun
  obtain ⟨v, hstep, hrest⟩ := Transition.run_cons_eq_some.mp hpost
  have hretry : .retry ∉ post := fun hc =>
    h.noRetry (List.mem_append_right _ (List.mem_cons_of_mem _ hc))
  exact not_ends_of_retrying (retrying_run (retrying_of_failed ha hstep) hretry hrest) h.ends

/-! ### A node that connects, or is connected -/

/-- What a node that shuts down has still to emit. -/
def Phase.due : Phase → List NodeStatus
  | .connecting | .opening => [.connected, .closed]
  | .streaming _ | .closing => [.closed]
  | _ => []

theorem due_step (h : s.Released) (hphase : s.phase.retrying = false)
    (hfailed : a ≠ .connectErr ∧ a ≠ .openErr) (hstep : step srv peerAddr s a = some t) :
    emitted s a ++ t.phase.due = s.phase.due ∧ t.phase.retrying = false ∧ a ≠ .retry := by
  have hne {phase : Phase} (heq : s.phase = phase) (hretrying : phase.retrying = true) : False := by
    rw [heq, hretrying] at hphase
    cases hphase
  cases moves_of_step hstep with
  | recvRequest _ hqueue =>
      rw [h.queue] at hqueue
      cases hqueue
  | register hsender | pass hsender | send hsender | sendErr hsender | ack hsender | skipAck hsender =>
      cases h.inHand _ hsender
  | connectErr => exact absurd rfl hfailed.1
  | openErr => exact absurd rfl hfailed.2
  | recvClosed heq | connectOk heq | openOk heq =>
      rw [heq]
      exact ⟨rfl, rfl, nofun⟩
  | close heq =>
      rw [heq, emitted, if_pos heq]
      exact ⟨rfl, rfl, nofun⟩
  | retry heq | abort heq | announce heq | cancel heq => exact (hne heq rfl).elim
  | _ => exact ⟨rfl, hphase, nofun⟩

/-- The run meets the condition: no attempt fails in it. -/
def Connects (acts : List Act) : Prop := ∀ a ∈ acts, a ≠ .connectErr ∧ a ≠ .openErr

theorem due_run (htidy : s.Tidy) (h : s.Released) (hphase : s.phase.retrying = false)
    (hconnects : Connects acts) (hrun : Transition.run (step srv peerAddr) s acts = some t) :
    Transition.trace (step srv peerAddr) emitted s acts ++ t.phase.due = s.phase.due ∧
      t.phase.retrying = false ∧ .retry ∉ acts ∧ t.Tidy ∧ t.Released := by
  induction acts generalizing s with
  | nil =>
      cases hrun
      exact ⟨rfl, hphase, List.not_mem_nil, htidy, h⟩
  | cons a acts ih =>
      obtain ⟨u, hstep, hrest⟩ := Transition.run_cons_eq_some.mp hrun
      obtain ⟨hdue, hu, hretry⟩ := due_step h hphase (hconnects a List.mem_cons_self) hstep
      obtain ⟨hdues, ht, hnot, htail⟩ := ih (tidy_step htidy hstep) (released_step htidy h hstep) hu
        (fun b hb => hconnects b (List.mem_cons_of_mem a hb)) hrest
      refine ⟨?_, ht, ?_, htail⟩
      · rw [Transition.trace, hstep, Option.map_some, Option.getD_some, List.append_assoc, hdues, hdue]
      · rw [List.mem_cons, not_or]
        exact ⟨Ne.symm hretry, hnot⟩

/-- The steps of `run_node` from where it stands to its end. -/
def Phase.ending : Phase → List Act
  | .connecting => [.connectOk, .openOk, .recvClosed, .abort]
  | .opening => [.openOk, .recvClosed, .abort]
  | .streaming _ => [.recvClosed, .abort]
  | .closing => [.abort]
  | _ => []

theorem exists_current (h : s.streams ≠ []) : ∃ st, s.streams[s.current]? = some st := by
  have hlt : s.current < s.streams.length := by
    have := List.length_pos_iff.mpr h
    rw [State.current]
    omega
  exact ⟨_, List.getElem?_eq_getElem hlt⟩

theorem run_closing (srv : Server) (peerAddr : Option String) (hphase : s.phase = .closing)
    (hstreams : s.streams ≠ []) :
    ∃ u, Transition.run (step srv peerAddr) s [.abort] = some u ∧ u.phase = .closed := by
  obtain ⟨st, hst⟩ := exists_current hstreams
  refine ⟨{ s.setStream s.current { st with aborted := true } with phase := .closed, statusSent := .closed },
    Transition.run_cons_eq_some.mpr ⟨_, ?_, rfl⟩, rfl⟩
  simp only [step, nodeStep, hst, hphase]

theorem run_streaming (srv : Server) (peerAddr : Option String) (h : s.Released)
    (hphase : s.phase = .streaming .waiting) (hstreams : s.streams ≠ []) :
    ∃ u, Transition.run (step srv peerAddr) s [.recvClosed, .abort] = some u ∧ u.phase = .closed := by
  obtain ⟨u, hu, hclosed⟩ := run_closing srv peerAddr
    (s := { s with phase := .closing }) rfl hstreams
  refine ⟨u, Transition.run_cons_eq_some.mpr ⟨_, ?_, hu⟩, hclosed⟩
  exact if_pos ⟨hphase, h.queue, h.handles⟩

theorem run_opening (srv : Server) (peerAddr : Option String) (h : s.Released)
    (hphase : s.phase = .opening) :
    ∃ u, Transition.run (step srv peerAddr) s [.openOk, .recvClosed, .abort] = some u ∧
      u.phase = .closed := by
  have hstep : step srv peerAddr s .openOk = some { s with
      phase := .streaming .waiting
      statusSent := .connected
      firstAttempt := false
      streams := s.streams ++ [Stream.open s.streams.length] } := if_pos hphase
  obtain ⟨u, hu, hclosed⟩ := run_streaming srv peerAddr
    (s := { s with
      phase := .streaming .waiting
      statusSent := .connected
      firstAttempt := false
      streams := s.streams ++ [Stream.open s.streams.length] })
    ⟨h.handles, h.queue, fun sender hsender => by cases hsender; rfl⟩ rfl (by simp)
  exact ⟨u, Transition.run_cons_eq_some.mpr ⟨_, hstep, hu⟩, hclosed⟩

theorem run_ending (srv : Server) (peerAddr : Option String) (htidy : s.Tidy) (h : s.Released)
    (hretrying : s.phase.retrying = false) :
    ∃ u, Transition.run (step srv peerAddr) s s.phase.ending = some u ∧ u.phase = .closed := by
  cases hphase : s.phase with
  | connecting =>
      obtain ⟨u, hu, hclosed⟩ := run_opening srv peerAddr
        (s := { s with phase := .opening }) ⟨h.handles, h.queue, nofun⟩ rfl
      exact ⟨u, Transition.run_cons_eq_some.mpr ⟨_, if_pos hphase, hu⟩, hclosed⟩
  | opening => exact run_opening srv peerAddr h hphase
  | streaming sender =>
      rw [h.inHand sender hphase] at hphase
      exact run_streaming srv peerAddr h hphase (htidy.stream (Or.inl (by rw [hphase]; rfl)))
  | closing => exact run_closing srv peerAddr hphase (htidy.stream (Or.inr hphase))
  | closed => exact ⟨s, rfl, hphase⟩
  | backoff | died | aborted | cancelling =>
      rw [hphase] at hretrying
      cases hretrying

theorem retry_notMem_ending (phase : Phase) : .retry ∉ phase.ending := by
  cases phase <;> simp [Phase.ending]

theorem exists_outcomes {phase : Phase} {values rest : List NodeStatus} (h : values ++ rest = phase.due) :
    ∃ outcomes, (phase.attempting = true → outcomes.length = 1) ∧
      (phase.attempting = false → outcomes = []) ∧ values <+: outcomes ++ [.closed] := by
  have hprefix : values <+: phase.due := ⟨rest, h⟩
  cases phase with
  | connecting | opening => exact ⟨[.connected], fun _ => rfl, nofun, hprefix⟩
  | streaming | closing => exact ⟨[], nofun, fun _ => rfl, hprefix⟩
  | _ => exact ⟨[], nofun, fun _ => rfl, hprefix.trans (List.nil_prefix)⟩

/-- A released node shuts down if and only if, when it was released, it was not on its way to a further
attempt, and the attempt in progress, if there was one, does not fail. -/
theorem shutsDown_iff {before : List Act} (hreach : Transition.run (step srv peerAddr) init before = some s)
    (hreleased : s.Released) (hrun : Transition.run (step srv peerAddr) s acts = some t) :
    ShutsDown srv peerAddr s acts t ↔ s.phase.retrying = false ∧ Connects acts := by
  constructor
  · intro h
    refine ⟨?_, fun a ha => ⟨?_, ?_⟩⟩
    · by_contra hretrying
      rw [Bool.not_eq_false] at hretrying
      exact not_ends_of_retrying (retrying_run hretrying h.noRetry hrun) h.ends
    · rintro rfl
      exact not_shutsDown_of_failed (Or.inl ha) hrun h
    · rintro rfl
      exact not_shutsDown_of_failed (Or.inr ha) hrun h
  · rintro ⟨hretrying, hconnects⟩
    obtain ⟨hdue, ht, hretry, htidy, hreleased'⟩ :=
      due_run (tidy_run hreach) hreleased hretrying hconnects hrun
    obtain ⟨u, hu, hclosed⟩ := run_ending srv peerAddr htidy hreleased' ht
    exact ⟨hretry, exists_outcomes hdue, _, u, retry_notMem_ending _, hu, hclosed⟩

/-- The last handle is dropped during the first attempt, which succeeds. -/
theorem shutsDown_iff_connecting :
    ∃ s t, Transition.run (step invertServer none) init [.dropHandles] = some s ∧ s.Released ∧
      Transition.run (step invertServer none) s [.connectOk, .openOk, .recvClosed, .abort] = some t ∧
      t.statusSent = .closed ∧
      ShutsDown invertServer none s [.connectOk, .openOk, .recvClosed, .abort] t := by
  obtain ⟨t, ht⟩ : ∃ t, Transition.run (step invertServer none) { init with handles := false }
      [.connectOk, .openOk, .recvClosed, .abort] = some t := ⟨_, rfl⟩
  have hreleased : State.Released { init with handles := false } := ⟨rfl, rfl, nofun⟩
  have hstatus : t.statusSent = .closed := Transition.eq_of_run_map (f := State.statusSent) rfl ht
  have hreach : Transition.run (step invertServer none) init [.dropHandles] =
      some { init with handles := false } := rfl
  refine ⟨_, t, hreach, hreleased, ht, hstatus, (shutsDown_iff hreach hreleased ht).mpr ⟨rfl, ?_⟩⟩
  simp [Connects]

/-- The last handle is dropped while the node is unreachable. The task retries for ever. -/
theorem not_shutsDown_unreachable :
    ∃ s t, Transition.run (step invertServer none) init [.connectErr, .dropHandles] = some s ∧
      s.Released ∧ s.statusSent = .unreachable ∧
      Transition.run (step invertServer none) s [.retry, .connectErr] = some t ∧
      Transition.trace (step invertServer none) emitted s [.retry, .connectErr] =
        [.reconnecting, .unreachable] ∧
      ¬ShutsDown invertServer none s [.retry, .connectErr] t := by
  refine ⟨_, _, rfl, ⟨rfl, rfl, nofun⟩, rfl, rfl, rfl, fun h => ?_⟩
  exact h.noRetry List.mem_cons_self

end Quorums.Node
