import Quorums.CallCover
import Quorums.CallFrame
import Quorums.CallMulticast
import Quorums.ConfigManager
import Quorums.HandleThresholds

/-! Fan-out on every configuration, empty ones included. The results of `multicast`, `quorum_call` and
`ordered_quorum_call` go through `mpsc::channel(n)` with `n` the size of the configuration, and that
panics for `n = 0`; past that point no such call panics, and its caller can always be answered. -/

namespace Quorums

variable {T : Type}

/-! ### The loops -/

namespace Responses

theorem exit?_threshold_ne_panicked (k : Nat) (arrivals : List (NodeResponse T)) :
    (threshold k).exit? arrivals ≠ some .panicked := by
  rw [ReceiveLoop.exit?_of_after (after_threshold k arrivals)]
  split
  · nofun
  · rename_i hge
    cases hvalues : values arrivals with
    | nil => exact absurd (by rw [hvalues]; simp) hge
    | cons v rest => nofun

theorem exit?_quorum_ne_panicked (f : List T → Option T) (arrivals : List (NodeResponse T)) :
    (quorum f).exit? arrivals ≠ some .panicked := by
  intro h
  obtain ⟨pre, x, post, s, -, -, htake⟩ := ReceiveLoop.exists_take_of_exit? h
  simp only [quorum, quorumTake] at htake
  split at htake
  · cases htake
  · split at htake <;> cases htake

end Responses

namespace OrderedResponses

theorem length_slots_threshold {size k : Nat} {arrivals : List (OrderedNodeResponse T)} {s : Vars T}
    (h : (threshold size k).after arrivals = .ok s) : s.slots.length = size := by
  refine ReceiveLoop.after_invariant (P := fun _ (s : Vars T) => s.slots.length = size)
    List.length_replicate ?_ h
  intro arrivals s nr t hs htake
  simp only [threshold, thresholdTake] at htake
  split at htake
  · cases htake
    exact hs
  · split at htake
    · split at htake
      · split at htake <;> cases htake
        rw [List.length_set, hs]
      · cases htake
        rw [List.length_set, hs]
    · cases htake

/-- The index into the slots is in bounds, as positions are. -/
theorem exit?_threshold_ne_panicked {size : Nat} (k : Nat) {arrivals : List (OrderedNodeResponse T)}
    (hlt : ∀ r ∈ arrivals, r.position < size) : (threshold size k).exit? arrivals ≠ some .panicked := by
  intro h
  obtain ⟨pre, x, post, s, rfl, hpre, htake⟩ := ReceiveLoop.exists_take_of_exit? h
  have hx : x.position < s.slots.length := by
    rw [length_slots_threshold hpre]
    exact hlt x (by simp)
  simp only [threshold, thresholdTake, if_pos hx] at htake
  split at htake
  · cases htake
  · split at htake
    · split at htake <;> cases htake
    · cases htake

theorem exit?_quorum_ne_panicked {size : Nat} (f : List (List (Option T)) → Option T)
    {arrivals : List (OrderedNodeResponse T)} (hlt : ∀ r ∈ arrivals, r.position < size) :
    (quorum size f).exit? arrivals ≠ some .panicked := by
  intro h
  obtain ⟨pre, x, post, s, rfl, hpre, htake⟩ := ReceiveLoop.exists_take_of_exit? h
  have hx : x.position < s.seen.1.length := by
    rw [(slotsFrom_quorum hpre).1]
    exact hlt x (by simp)
  simp only [quorum, quorumTake, if_pos hx] at htake
  split at htake
  · cases htake
  · split at htake <;> cases htake

end OrderedResponses

namespace Client

variable {env : Env T}

theorem CallKind.bounded_cases {kind : CallKind} (h : kind.bounded = true) :
    kind = .multicast ∨ kind = .quorumCall ∨ kind = .orderedQuorumCall := by
  cases kind <;> simp_all [CallKind.bounded]

namespace Call

variable {call : Call T}

/-- The call has panicked: on an empty configuration, or in the loop of its terminal method. -/
def Panicked (call : Call T) : Prop :=
  call.phase = .rejected .panicked ∨ ∃ t, call.phase = .returned t .panicked

/-- The caller has a `Result`. -/
def Answered (call : Call T) : Prop :=
  ∃ r, call.phase = .rejected (.returned r) ∨ ∃ t, call.phase = .returned t (.returned r)

/-- A bounded call waits with one of the loops below. -/
inductive Collects : CallKind → Terminal T → Prop where
  | acks : Collects .multicast .acks
  | threshold (k : Nat) : Collects .quorumCall (.threshold k)
  | quorum (f : List T → Option T) : Collects .quorumCall (.quorum f)
  | orderedThreshold (k : Nat) : Collects .orderedQuorumCall (.threshold k)
  | orderedQuorum (f : List (List (Option T)) → Option T) :
      Collects .orderedQuorumCall (.orderedQuorum f)

theorem Suits.collects {kind : CallKind} {t : Terminal T} (h : Suits kind t) (hkind : kind.bounded = true) :
    Collects kind t := by
  rcases CallKind.bounded_cases hkind with rfl | rfl | rfl <;> cases h with
  | reply hsingle => cases hsingle
  | acks hacks => first | exact .acks | cases hacks
  | handle hfits =>
      cases t <;> simp [Terminal.fits] at hfits <;> constructor

theorem Collects.ne_reply {kind : CallKind} {t : Terminal T} (h : Collects kind t) : t ≠ .reply := by
  rintro rfl
  cases h

theorem Inv.exit?_ne_panicked (h : Inv env call) {t : Terminal T} (hcollects : Collects call.kind t) :
    (env.loop call.kind call.size t).2.exit? call.taken ≠ some .panicked := by
  have hlt : ∀ r ∈ call.taken, r.position < call.size := fun r hr => h.position_lt hr
  generalize call.kind = kind at hcollects
  cases hcollects with
  | acks =>
      rw [Env.loop, ReceiveLoop.exit?_comap, multicastLoop_exit?]
      rintro ⟨⟩
  | threshold k =>
      change ((Responses.threshold k).comap _).exit? call.taken ≠ _
      rw [ReceiveLoop.exit?_comap]
      exact Responses.exit?_threshold_ne_panicked k _
  | quorum f =>
      change ((Responses.quorum f).comap _).exit? call.taken ≠ _
      rw [ReceiveLoop.exit?_comap]
      exact Responses.exit?_quorum_ne_panicked f _
  | orderedThreshold k => exact OrderedResponses.exit?_threshold_ne_panicked k hlt
  | orderedQuorum f => exact OrderedResponses.exit?_quorum_ne_panicked f hlt

theorem Collects.closed_ne_panicked {kind : CallKind} {t : Terminal T} (h : Collects kind t) (size : Nat)
    (s : (env.loop kind size t).1) : (env.loop kind size t).2.closed s ≠ .panicked := by
  cases h with
  | acks =>
      simp only [Env.loop, ReceiveLoop.comap, multicastLoop]
      split <;> rintro ⟨⟩
  | _ => rintro ⟨⟩

theorem Inv.result_ne_panicked (h : Inv env call) {t : Terminal T} (hcollects : Collects call.kind t) :
    (env.loop call.kind call.size t).2.result call.taken ≠ .panicked := by
  intro hpanicked
  rcases ReceiveLoop.result_cases (l := (env.loop call.kind call.size t).2) call.taken with hexit | ⟨s, hs⟩
  · rw [hpanicked] at hexit
    exact h.exit?_ne_panicked hcollects hexit
  · exact hcollects.closed_ne_panicked call.size s (hs.symm.trans hpanicked)

/-- A bounded call that gets as far as its loop returns a `Result` from it. -/
theorem Inv.returned_of_bounded (h : Inv env call) (hkind : call.kind.bounded = true) {t : Terminal T}
    {out : Outcome T} (hphase : call.phase = .returned t out) : ∃ r, out = .returned r := by
  have hcollects := (h.suits t (Or.inr ⟨out, hphase⟩)).collects hkind
  have hne : out ≠ .panicked := by
    intro hout
    cases h.settled t out hphase with
    | reply => exact hcollects.ne_reply rfl
    | left hexit => exact h.exit?_ne_panicked hcollects (hexit.trans (congrArg some hout))
    | closed => exact h.result_ne_panicked hcollects hout
    | cancelled => cases hout
  cases out with
  | returned r => exact ⟨r, rfl⟩
  | panicked => exact absurd rfl hne

/-! ### Runs -/

variable {call' : Call T} {p : Nat} {node : NodeHandle}

/-- The call stays of its kind, and no call is refused after it has begun. -/
structure Kept (call call' : Call T) : Prop where
  kind : call'.kind = call.kind
  rejected : ∀ out, call'.phase = .rejected out → call.phase = .rejected out

theorem Kept.refl (call : Call T) : Kept call call := ⟨rfl, fun _ => id⟩

theorem callerKept {earlier : List Nat} {a : CallAct T} (hmoves : CallerMoves env earlier call a call') :
    Kept call call' := by
  refine ⟨(callerFrame hmoves).kind, fun out hout => ?_⟩
  cases hmoves with
  | sendAgain | take | fire => exact hout
  | _ => cases hout

theorem kept_report (call : Call T) (p : Nat) (node : NodeHandle) (result : Except Error T) :
    Kept call (call.report p node result) := by
  refine ⟨(Frame.report node result).kind, fun out hout => ?_⟩
  rw [Call.report] at hout
  split at hout
  · cases hout
  · exact hout

theorem taskKept {id : Nat} {ch ch' : Channel} {stage : Stage} {a : CallAct T}
    (hmoves : TaskMoves env id call p node ch stage a call' ch') : Kept call call' := by
  cases hmoves with
  | nextSeq | enqueue | finish => exact ⟨rfl, fun _ h => h⟩
  | refuse | reply | ack =>
      have h := kept_report (call.setTask p .ended) p node
      exact ⟨(h _).kind, (h _).rejected⟩
  | update => exact kept_report call p node _

end Call

variable {s t : State T} {c : Nat} {call : Call T}

theorem kept_step {a : Act T} (hstep : step env s a = some t) (hcall : s.calls[c]? = some call) :
    ∃ call', t.calls[c]? = some call' ∧ call.Kept call' := by
  have hset {d : Nat} {old new : Call T} (hold : s.calls[d]? = some old) (hkept : old.Kept new) :
      ∃ call', (s.calls.set d new)[c]? = some call' ∧ call.Kept call' := by
    by_cases hdc : d = c
    · subst hdc
      cases hold.symm.trans hcall
      exact ⟨new, ListUpdate.getElem?_set_of_some hold, hkept⟩
    · exact ⟨call, by rw [List.getElem?_set, if_neg hdc]; exact hcall, .refl call⟩
  cases step_cases hstep with
  | call => exact ⟨call, ListUpdate.getElem?_append_of_some hcall _, .refl call⟩
  | caller hold _ hcaller => exact hset hold (Call.callerKept (Call.moves_of_callerStep hcaller))
  | task hold _ hp hnode htask => exact hset hold (Call.taskKept (Call.moves_of_taskStep htask))
  | closeChannel => exact ⟨call, hcall, .refl call⟩

/-- Call `c` is a bounded one that got past its interceptors, or was refused by one of them. -/
structure Entered (env : Env T) (c : Nat) (s : State T) : Prop where
  inv : s.Inv env
  call : ∃ call, s.calls[c]? = some call ∧ call.kind.bounded = true ∧ call.phase ≠ .rejected .panicked

theorem Entered.step {a : Act T} (h : Entered env c s) (hstep : step env s a = some t) :
    Entered env c t := by
  obtain ⟨call, hcall, hkind, hphase⟩ := h.call
  obtain ⟨call', hcall', hkept⟩ := kept_step hstep hcall
  exact ⟨inv_step h.inv hstep, call', hcall', by rw [hkept.kind, hkind],
    fun hc => hphase (hkept.rejected _ hc)⟩

theorem Entered.not_panicked (h : Entered env c s) :
    ∃ call, s.calls[c]? = some call ∧ ¬call.Panicked := by
  obtain ⟨call, hcall, hkind, hphase⟩ := h.call
  refine ⟨call, hcall, ?_⟩
  rintro (hc | ⟨t, hc⟩)
  · exact hphase hc
  · obtain ⟨r, hr⟩ := (h.inv call (List.mem_of_getElem? hcall)).returned_of_bounded hkind hc
    cases hr

/-! ### Progress

A task that has not ended can go on, and a caller whose tasks have ended reads what is left. -/

/-- The steps a task has left, and one for the result it sends. -/
def Stage.work : Stage → Nat
  | .spawned => 4
  | .numbered _ => 3
  | .waiting => 2
  | .ended => 0

namespace Call

def work (call : Call T) : Nat := (call.tasks.map Stage.work).sum + call.results.length

/-- The call waits with `t`, and its tasks report to the channel that it reads. -/
structure Waits (t : Terminal T) (call : Call T) : Prop where
  bounded : call.kind.bounded = true
  phase : call.phase = .collecting t
  ne_reply : t ≠ .reply

variable {p : Nat} {t : Terminal T} {stage : Stage} {node : NodeHandle}

theorem Waits.report_eq (h : Waits t call) (p : Nat) (node : NodeHandle) (result : Except Error T) :
    call.report p node result = { call with results := call.results ++ [⟨p, node.id, result⟩] } := by
  rw [Call.report]
  split
  · rename_i hreply
    rw [h.phase] at hreply
    cases hreply
    exact absurd rfl h.ne_reply
  · rfl

theorem Waits.ready (h : Waits t call) : call.ready = true := by
  rw [Call.ready]
  split
  · rename_i hreply
    rw [h.phase] at hreply
    cases hreply
    exact absurd rfl h.ne_reply
  · rfl

theorem work_setTask (hp : call.tasks[p]? = some stage) (next : Stage) :
    (call.setTask p next).work + stage.work = call.work + next.work := by
  have hsum := ListUpdate.sum_map_set (f := Stage.work) hp next
  simp only [Call.work, Call.setTask]
  omega

/-- The task ends with a result in the channel. -/
theorem Waits.endTask (h : Waits t call) (hp : call.tasks[p]? = some stage) (hstage : 2 ≤ stage.work)
    (node : NodeHandle) (result : Except Error T) :
    Waits t ((call.setTask p .ended).report p node result) ∧
      ((call.setTask p .ended).report p node result).work < call.work := by
  have hset : Waits t (call.setTask p .ended) := ⟨h.bounded, h.phase, h.ne_reply⟩
  have hwork := work_setTask hp .ended
  rw [hset.report_eq]
  refine ⟨⟨h.bounded, h.phase, h.ne_reply⟩, ?_⟩
  have hzero : Stage.ended.work = 0 := rfl
  simp only [Call.work, Call.setTask, List.length_append, List.length_singleton] at hwork ⊢
  omega

/-- A task that has not ended has a step: nobody has to answer it, as its node may drop the sender. -/
theorem Waits.exists_taskStep (h : Waits t call) (env : Env T) (id : Nat) (hp : call.tasks[p]? = some stage)
    (hne : stage ≠ .ended) (node : NodeHandle) (ch : Channel) :
    ∃ a call' ch', a.task? = some p ∧ call.taskStep env id p stage node ch a = some (call', ch') ∧
      Waits t call' ∧ call'.work < call.work := by
  cases stage with
  | spawned =>
      refine ⟨.nextSeq p, _, _, rfl, rfl, ⟨h.bounded, h.phase, h.ne_reply⟩, ?_⟩
      have hwork := work_setTask hp (.numbered (Node.nextSeq ch.seq))
      simp only [Stage.work] at hwork
      omega
  | numbered seq =>
      by_cases hclosed : ch.closed = true
      · exact ⟨.enqueue p, _, _, rfl, if_pos hclosed, h.endTask hp (Nat.le_succ 2) node _⟩
      · refine ⟨.enqueue p, _, _, rfl, if_neg hclosed, ⟨h.bounded, h.phase, h.ne_reply⟩, ?_⟩
        have hwork := work_setTask hp .waiting
        simp only [Stage.work] at hwork
        omega
  | waiting =>
      have hend := h.endTask hp (le_refl 2) node
      rcases CallKind.bounded_cases h.bounded with hkind | hkind | hkind
      · exact ⟨.ack p none, _, _, rfl, if_pos ⟨rfl, h.ready, Or.inr hkind⟩, hend _⟩
      · refine ⟨.reply p none, _, ch, rfl, ?_, hend (env.twoWayResult call.method none)⟩
        rw [Call.taskStep, if_pos ⟨rfl, h.ready⟩, hkind]
      · refine ⟨.reply p none, _, ch, rfl, ?_, hend (env.twoWayResult call.method none)⟩
        rw [Call.taskStep, if_pos ⟨rfl, h.ready⟩, hkind]
  | ended => exact absurd rfl hne

/-- A caller whose tasks have ended has a step, and so has one that was cancelled. -/
theorem Waits.exists_callerStep (h : Waits t call) (env : Env T) (earlier : List Nat)
    (hready : call.fired = true ∨ call.AllEnded) :
    ∃ a call', a.task? = none ∧ a ≠ .fire ∧ call.callerStep env earlier a = some call' ∧
      ((∃ out, call'.phase = .returned t out) ∨ Waits t call' ∧ call'.work < call.work) := by
  have hne := h.ne_reply
  cases hfired : call.fired with
  | true =>
      refine ⟨.cancel, { call with phase := .returned t (.err .cancelled) }, rfl, by rintro ⟨⟩, ?_,
        Or.inl ⟨_, rfl⟩⟩
      rw [Call.callerStep, h.phase]
      cases t with
      | reply => exact absurd rfl hne
      | _ => exact if_pos hfired
  | false =>
      have hended : call.AllEnded := hready.resolve_left (by rw [hfired]; rintro ⟨⟩)
      cases hresults : call.results with
      | nil =>
          refine ⟨.close, { call with
            phase := .returned t ((env.loop call.kind call.size t).2.result call.taken) }, rfl, by rintro ⟨⟩, ?_,
            Or.inl ⟨_, rfl⟩⟩
          rw [Call.callerStep, h.phase]
          cases t with
          | reply => exact absurd rfl hne
          | _ => exact if_pos ⟨hfired, hresults, hended⟩
      | cons r rest =>
          cases hexit : (env.loop call.kind call.size t).2.exit? (call.taken ++ [r]) with
          | some out =>
              refine ⟨.take, { call with results := rest, taken := call.taken ++ [r], phase := .returned t out },
                rfl, by rintro ⟨⟩, ?_, Or.inl ⟨out, rfl⟩⟩
              rw [Call.callerStep, h.phase, hresults]
              cases t with
              | reply => exact absurd rfl hne
              | _ => simp [hfired, hexit]
          | none =>
              refine ⟨.take, { call with results := rest, taken := call.taken ++ [r] }, rfl, by rintro ⟨⟩, ?_,
                Or.inr ⟨⟨h.bounded, h.phase, hne⟩, ?_⟩⟩
              · rw [Call.callerStep, h.phase, hresults]
                cases t with
                | reply => exact absurd rfl hne
                | _ => simp [hfired, hexit]
              · simp only [Call.work, hresults, List.length_cons]
                omega

end Call

theorem step_of_callerStep {a : CallAct T} {call' : Call T} (hcall : s.calls[c]? = some call)
    (htask : a.task? = none) (hstep : call.callerStep env s.dispatched a = some call') :
    step env s (.on c a) = some { s with calls := s.calls.set c call' } := by
  simp only [step, hcall, Option.bind_some, State.callStep, htask, hstep, Option.map_some]

theorem step_of_taskStep {a : CallAct T} {call' : Call T} {p : Nat} {stage : Stage} {node : NodeHandle}
    {ch' : Channel} (hcall : s.calls[c]? = some call) (htask : a.task? = some p)
    (hp : call.tasks[p]? = some stage) (hnode : call.nodes[p]? = some node)
    (hstep : call.taskStep env c p stage node (s.channels node.channel) a = some (call', ch')) :
    step env s (.on c a) =
      some ⟨s.calls.set c call', Function.update s.channels node.channel ch'⟩ := by
  simp only [step, hcall, Option.bind_some, State.callStep, htask, hp, hnode, hstep, Option.map_some]

/-- A step of call `c` that does not cancel it. -/
def Act.Own (c : Nat) (a : Act T) : Prop := ∃ b, a = .on c b ∧ b ≠ .fire

/-- Call `c` has returned to its caller. -/
def State.AnsweredAt (s : State T) (c : Nat) : Prop := ∃ call, s.calls[c]? = some call ∧ call.Answered

theorem exists_own_step {t : Terminal T} (hinv : s.Inv env) (hcall : s.calls[c]? = some call)
    (hwaits : call.Waits t) : ∃ a u, a.Own c ∧ step env s a = some u ∧ ∃ call', u.calls[c]? = some call' ∧
      ((∃ out, call'.phase = .returned t out) ∨ call'.Waits t ∧ call'.work < call.work) := by
  by_cases hready : call.fired = true ∨ call.AllEnded
  · obtain ⟨a, call', htask, hfire, hstep, hnext⟩ := hwaits.exists_callerStep env s.dispatched hready
    exact ⟨.on c a, _, ⟨a, rfl, hfire⟩, step_of_callerStep hcall htask hstep, call',
      ListUpdate.getElem?_set_of_some hcall, hnext⟩
  · obtain ⟨stage, hmem, hne⟩ : ∃ stage ∈ call.tasks, stage ≠ .ended := by
      by_contra hall
      push Not at hall
      exact hready (Or.inr hall)
    obtain ⟨p, hp⟩ := List.mem_iff_getElem?.mp hmem
    have hlen := (hinv call (List.mem_of_getElem? hcall)).started
      (Call.not_idle_of_collecting hwaits.phase)
    have hlt : p < call.nodes.length := hlen ▸ (List.getElem?_eq_some_iff.mp hp).1
    obtain ⟨a, call', ch', htask, hstep, hnext⟩ := hwaits.exists_taskStep env c hp hne
      call.nodes[p] (s.channels call.nodes[p].channel)
    refine ⟨.on c a, _, ⟨a, rfl, ?_⟩,
      step_of_taskStep hcall htask hp (List.getElem?_eq_getElem hlt) hstep, call',
      ListUpdate.getElem?_set_of_some hcall, Or.inr hnext⟩
    rintro rfl
    cases htask

/-- A bounded call that waits can be answered by steps of its own. -/
theorem exists_answered {t : Terminal T} (hinv : s.Inv env) (hcall : s.calls[c]? = some call)
    (hkind : call.kind.bounded = true) (hphase : call.phase = .collecting t) :
    ∃ own u, (∀ a ∈ own, a.Own c) ∧ Transition.run (step env) s own = some u ∧ u.AnsweredAt c := by
  have hsuits := (hinv call (List.mem_of_getElem? hcall)).suits t (Or.inl hphase)
  have hwaits : call.Waits t := ⟨hkind, hphase, (hsuits.collects hkind).ne_reply⟩
  refine Transition.exists_run_of_rank
    (P := fun s => s.Inv env ∧ ∃ call, s.calls[c]? = some call ∧ call.Waits t)
    (fun s => (s.calls[c]?.map Call.work).getD 0) (fun s hs => ?_) ⟨hinv, call, hcall, hwaits⟩
  obtain ⟨hinv, call, hcall, hwaits⟩ := hs
  obtain ⟨a, u, hown, hstep, call', hcall', hnext⟩ := exists_own_step hinv hcall hwaits
  refine ⟨a, u, hown, hstep, ?_⟩
  have hinv' := inv_step hinv hstep
  rcases hnext with ⟨out, hout⟩ | ⟨hwaits', hlt⟩
  · obtain ⟨new, hnew, hkept⟩ := kept_step hstep hcall
    cases hcall'.symm.trans hnew
    obtain ⟨r, rfl⟩ := (hinv' call' (List.mem_of_getElem? hcall')).returned_of_bounded
      (by rw [hkept.kind]; exact hwaits.bounded) hout
    exact Or.inl ⟨call', hcall', r, Or.inr ⟨t, hout⟩⟩
  · refine Or.inr ⟨⟨hinv', call', hcall', hwaits'⟩, ?_⟩
    simpa only [hcall, hcall', Option.map_some, Option.getD_some] using hlt

/-- Call `c` is defined: in no continuation has it panicked, and wherever its caller waits for it, steps
of its own lead to a `Result`. -/
def State.DefinedAt (env : Env T) (s : State T) (c : Nat) : Prop :=
  ∀ acts u, Transition.run (step env) s acts = some u →
    ∃ call, u.calls[c]? = some call ∧ ¬call.Panicked ∧ ∀ t, call.phase = .collecting t →
      ∃ own v, (∀ a ∈ own, a.Own c) ∧ Transition.run (step env) u own = some v ∧ v.AnsweredAt c

theorem Entered.definedAt (h : Entered env c s) : s.DefinedAt env c := by
  intro acts u hrun
  have hu : Entered env c u :=
    Transition.run_invariant (P := Entered env c) (fun _ _ _ h hstep => h.step hstep) h hrun
  obtain ⟨call, hcall, hnot⟩ := hu.not_panicked
  obtain ⟨call', hcall', hkind, -⟩ := hu.call
  cases hcall.symm.trans hcall'
  exact ⟨call, hcall, hnot, fun t hphase => exists_answered hu.inv hcall hkind hphase⟩

/-- A call panics at once if it is bounded, has no node and is refused by no interceptor. -/
theorem Call.invoke_panicked_iff {kind : CallKind} (hkind : kind.bounded = true) (earlier : List Nat)
    (method : String) (payload : Payload) (metadata : List (String × String)) (nodes : List NodeHandle)
    (chain : List (CallInfo → Except Error Unit)) :
    (Call.invoke earlier kind method payload metadata nodes chain : Call T).phase = .rejected .panicked ↔
      nodes = [] ∧ ¬∃ e, runInterceptors ⟨method, nodes.map NodeHandle.id, metadata⟩ chain = .error e := by
  unfold Call.invoke
  dsimp only
  split
  · rename_i e he
    refine iff_of_false nofun fun hc => hc.2 ⟨e, he⟩
  · rename_i hok
    have hnot : ¬∃ e, runInterceptors ⟨method, nodes.map NodeHandle.id, metadata⟩ chain = .error e := by
      rintro ⟨e, he⟩
      rw [hok] at he
      cases he
    split
    · rename_i hnil
      exact iff_of_true rfl ⟨hnil.2, hnot⟩
    · rename_i hnil
      refine iff_of_false (fun hc => ?_) fun hc => hnil ⟨hkind, hc.1⟩
      rcases CallKind.bounded_cases hkind with rfl | rfl | rfl <;> cases hc

/-- `multicast`, `quorum_call` and `ordered_quorum_call` are defined on a configuration, in every state
of the client, if and only if the configuration has a node, or an interceptor refuses the call first. -/
theorem definedAt_iff {acts : List (Act T)} (hrun : Transition.run (step env) init acts = some s)
    {kind : CallKind} (hkind : kind.bounded = true) (cfg : Config.Configuration)
    {nodes : List NodeHandle} (hnodes : nodes.map NodeHandle.id = cfg.nodeIds) {method : String}
    {payload : Payload} {metadata : List (String × String)}
    {chain : List (CallInfo → Except Error Unit)}
    (hstep : step env s (.call kind method payload metadata nodes chain) = some t) :
    t.DefinedAt env s.calls.length ↔
      cfg.nodes ≠ [] ∨ ∃ e, runInterceptors ⟨method, cfg.nodeIds, metadata⟩ chain = .error e := by
  have hinv := inv_step (inv_run hrun) hstep
  have hnil : nodes = [] ↔ cfg.nodes = [] := by
    rw [← List.map_eq_nil_iff (f := NodeHandle.id), hnodes, Config.Configuration.nodeIds,
      List.map_eq_nil_iff]
  have hpanicked := Call.invoke_panicked_iff (T := T) hkind s.dispatched method payload metadata nodes chain
  rw [hnil, hnodes] at hpanicked
  cases step_cases hstep with
  | call hsingle =>
      have hcall : (s.calls ++ [Call.invoke s.dispatched kind method payload metadata nodes chain])[
          s.calls.length]? = some (Call.invoke s.dispatched kind method payload metadata nodes chain) :=
        List.getElem?_concat_length
      constructor
      · intro hdefined
        obtain ⟨call, hat, hnot, -⟩ := hdefined [] _ rfl
        cases hcall.symm.trans hat
        by_contra hcond
        push Not at hcond
        exact hnot (Or.inl (hpanicked.mpr ⟨hcond.1, not_exists.mpr hcond.2⟩))
      · intro hcond
        refine Entered.definedAt ⟨hinv, _, hcall, ?_, fun hc => ?_⟩
        · rw [(Call.invoked ..).kind]
          exact hkind
        · exact hcond.elim (absurd (hpanicked.mp hc).1) (hpanicked.mp hc).2

theorem definedAt_iff_oneNode : ∃ t, step ackEnv init (.call .quorumCall "m" [] [] [⟨1, 0⟩] []) = some t ∧
    t.DefinedAt ackEnv 0 := by
  obtain ⟨t, ht⟩ : ∃ t, step ackEnv init (.call .quorumCall "m" [] [] [⟨1, 0⟩] []) = some t := ⟨_, rfl⟩
  have hinit : Transition.run (step ackEnv) init [] = some init := rfl
  exact ⟨t, ht, (definedAt_iff hinit rfl ⟨[⟨1, "127.0.0.1:5001"⟩]⟩ rfl ht).mpr (Or.inl nofun)⟩

/-- `all_nodes` of a manager that has no node, and a quorum call on it. -/
theorem not_definedAt_allNodes : ∃ w t, ∃ cfg ∈ w.configs,
    Transition.run (Config.World.step some true) Config.World.init [.allNodes] = some w ∧
      step ackEnv init (.call .quorumCall "m" [] [] (cfg.nodes.map fun n => ⟨n.id, 0⟩) []) = some t ∧
      ¬t.DefinedAt ackEnv 0 := by
  refine ⟨_, _, ⟨[]⟩, List.mem_singleton_self _, rfl, rfl, fun hdefined => ?_⟩
  obtain ⟨call, hcall, hnot, -⟩ := hdefined [] _ rfl
  cases hcall
  exact hnot (Or.inl rfl)

end Client

end Quorums
