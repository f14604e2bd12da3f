import Quorums.CallFrame

/-! What `multicast` reports. Each of its tasks ends with one result, which says whether the message was
handed to the stream of the node; the loop reads all of them before it returns. The sending side reports
a failed send as `NodeClosed` or `StreamDown`, and the loop counts neither. -/

namespace Quorums.Client

variable {T : Type} {env : Env T}

/-- What a task of a one-way call reports: the message is on the stream, the node is gone (the queue
refused the message, or the sender of the acknowledgement was dropped), or the stream broke. -/
def Env.sendResults (env : Env T) : List (Except Error T) :=
  [.ok env.unit, .error .nodeClosed, .error .streamDown]

/-- The acknowledgements that `sender_loop` gives, or does not give. -/
def Act.FromSender : Act T → Prop
  | .on _ (.ack _ r) => r = none ∨ r = some (.ok ()) ∨ r = some (.error .streamDown)
  | _ => True

theorem ackResult_mem {r : Option (Except Error Unit)}
    (h : r = none ∨ r = some (.ok ()) ∨ r = some (.error .streamDown)) :
    env.ackResult r ∈ env.sendResults := by
  rcases h with rfl | rfl | rfl <;> simp [Env.ackResult, Env.sendResults]

/-- The loop of `multicast` counts transport errors only, and no send fails with one. -/
theorem after_multicastLoop {arrivals : List (UInt32 × Except Error T)}
    (h : ∀ ack ∈ arrivals, ack.2 ∈ env.sendResults) :
    (multicastLoop env.unit).after arrivals = .ok [] := by
  induction arrivals using List.reverseRecOn with
  | nil => rfl
  | append_singleton arrivals ack ih =>
      rw [ReceiveLoop.after_append_singleton, ih fun x hx => h x (List.mem_append_left _ hx)]
      have hack := h ack (by simp)
      simp only [Env.sendResults, List.mem_cons, List.not_mem_nil, or_false] at hack
      rcases hack with hack | hack | hack <;>
        simp [Except.bind, multicastLoop, hack, transportErrors]

namespace Call

/-- What holds of a multicast: a task that has ended has reported, and the call returns only when it is
cancelled or has read all reports. A call on no node does not get that far. -/
structure Acked (env : Env T) (call : Call T) : Prop where
  complete : ∀ p, call.tasks[p]? = some .ended → ∃ r ∈ call.taken ++ call.results, r.position = p
  sent : ∀ r ∈ call.taken ++ call.results, r.result ∈ env.sendResults
  closed : ∀ t out, call.phase = .returned t out → call.fired = false →
    call.results = [] ∧ call.AllEnded ∧ out = (env.loop call.kind call.size t).2.result call.taken
  nonempty : call.nodes = [] → ∃ out, call.phase = .rejected out

variable {call call' : Call T} {p : Nat} {stage : Stage}

theorem Inv.eq_acks (h : Inv env call) (hkind : call.kind = .multicast) {t : Terminal T}
    (ht : call.Awaits t) : t = .acks := by
  cases h.suits t ht with
  | reply hsingle =>
      rw [hkind] at hsingle
      cases hsingle
  | acks => rfl
  | handle hfits =>
      rw [hkind] at hfits
      cases t <;> simp [Terminal.fits] at hfits

theorem Invoked.kind {earlier : List Nat} {kind : CallKind} {method : String} {payload : Payload}
    {metadata : List (String × String)} {nodes : List NodeHandle}
    (h : Invoked earlier kind method payload metadata nodes call) : call.kind = kind := by
  cases h <;> rfl

/-- Nothing was reported yet. -/
theorem Acked.of_unread (hreads : call.taken ++ call.results = []) (htasks : ∀ q : Nat, call.tasks[q]? ≠ some .ended)
    (hphase : ∀ t out, call.phase ≠ .returned t out)
    (hnil : call.nodes = [] → ∃ out, call.phase = .rejected out) : Acked env call where
  complete q hq := absurd hq (htasks q)
  sent _ hr := absurd (hreads ▸ hr) List.not_mem_nil
  closed t out ht := absurd ht (hphase t out)
  nonempty := hnil

theorem Acked.invoke (earlier : List Nat) (method : String) (payload : Payload)
    (metadata : List (String × String)) (nodes : List NodeHandle)
    (chain : List (CallInfo → Except Error Unit)) :
    Acked env (Call.invoke earlier .multicast method payload metadata nodes chain : Call T) := by
  unfold Call.invoke
  dsimp only
  split
  · exact Acked.of_unread rfl (by simp) (by simp) fun _ => ⟨_, rfl⟩
  · split
    · exact Acked.of_unread rfl (by simp) (by simp) fun _ => ⟨_, rfl⟩
    · rename_i hnodes
      refine Acked.of_unread rfl (fun q hq => ?_) (by simp) fun hnil => absurd ⟨rfl, hnil⟩ hnodes
      rw [List.getElem?_map, Option.map_eq_some_iff] at hq
      obtain ⟨node, -, hstage⟩ := hq
      cases hstage

theorem Acked.of_reads (h : Acked env call) (htasks : call'.tasks = call.tasks)
    (hreads : call'.taken ++ call'.results = call.taken ++ call.results) (hnodes : call'.nodes = call.nodes)
    (hclosed : ∀ t out, call'.phase = .returned t out → call'.fired = false →
      call'.results = [] ∧ call'.AllEnded ∧ out = (env.loop call'.kind call'.size t).2.result call'.taken)
    (hphase : (∃ out, call.phase = .rejected out) → ∃ out, call'.phase = .rejected out) :
    Acked env call' where
  complete q hq := by
    rw [hreads]
    exact h.complete q (htasks ▸ hq)
  sent r hr := h.sent r (hreads ▸ hr)
  closed := hclosed
  nonempty hnil := hphase (h.nonempty (hnodes ▸ hnil))

theorem Acked.callerStep (h : Acked env call) (hinv : Inv env call) (hkind : call.kind = .multicast)
    {earlier : List Nat} {a : CallAct T} (hmoves : CallerMoves env earlier call a call') :
    Acked env call' := by
  have hlaunch (phase : Phase T) (sentNow : Bool) (hphase : call.phase = .created)
      (hnew : ∀ t out, phase ≠ .returned t out) :
      Acked env { call.launch earlier with phase := phase, sentNow := sentNow } := by
    refine ⟨fun q hq => ?_, h.sent, fun t out ht => absurd ht (hnew t out), fun hnil => ?_⟩
    · rw [Call.launch, List.getElem?_map, Option.map_eq_some_iff] at hq
      obtain ⟨node, -, hstage⟩ := hq
      cases hstage
    · obtain ⟨out, hout⟩ := h.nonempty hnil
      rw [hphase] at hout
      cases hout
  have hreject {phase : Phase T} (hphase : call.phase = phase) (hne : ∀ out, phase ≠ .rejected out)
      {P : Prop} : (∃ out, call.phase = .rejected out) → P := by
    rintro ⟨out, hout⟩
    exact absurd (hphase.symm.trans hout) (hne out)
  cases hmoves with
  | sendNow hphase => exact hlaunch _ _ hphase (by simp)
  | sendAgain => exact h
  | terminal _ hphase => exact hlaunch _ _ hphase (by simp)
  | await _ hphase => exact h.of_reads rfl rfl rfl (by simp) (hreject hphase (by simp))
  | leave hphase _ _ _ hexit =>
      -- the loop never leaves before its channel closes
      cases hinv.eq_acks hkind (Or.inl hphase)
      simp only [Env.loop, ReceiveLoop.exit?_comap, multicastLoop_exit?] at hexit
      cases hexit
  | take hphase _ hresults =>
      refine h.of_reads rfl ?_ rfl ?_ (hreject hphase (by simp))
      · rw [hresults, List.append_assoc, List.singleton_append]
      · intro t out ht
        rw [hphase] at ht
        cases ht
  | close hphase _ _ hresults hended =>
      refine h.of_reads rfl rfl rfl ?_ (hreject hphase (by simp))
      intro t out ht _
      cases ht
      exact ⟨hresults, hended, rfl⟩
  | cancelReply hphase => cases hinv.eq_acks hkind (Or.inl hphase)
  | cancel hphase _ hfired =>
      refine h.of_reads rfl rfl rfl ?_ (hreject hphase (by simp))
      intro t out _ hnot
      rw [hfired] at hnot
      cases hnot
  | fire => exact h.of_reads rfl rfl rfl (fun t out _ hnot => by cases hnot) id

/-- A task goes on to a stage that is not its last. -/
theorem Acked.setTask (h : Acked env call) (hp : call.tasks[p]? = some stage) (hne : stage ≠ .ended)
    {next : Stage} (hnext : next ≠ .ended) : Acked env (call.setTask p next) where
  complete q hq := by
    rcases ListUpdate.getElem?_set_cases hq with ⟨-, hended⟩ | ⟨-, hold⟩
    · exact absurd hended.symm hnext
    · exact h.complete q hold
  sent := h.sent
  closed t out ht hfired := absurd (h.closed t out ht hfired).2.1 (not_allEnded hp hne)
  nonempty := h.nonempty

/-- A task ends and reports how its send went. -/
theorem Acked.endTask (h : Acked env call) (hinv : Inv env call) (hkind : call.kind = .multicast)
    (hp : call.tasks[p]? = some stage) (hne : stage ≠ .ended) (node : NodeHandle)
    {result : Except Error T} (hresult : result ∈ env.sendResults) :
    Acked env ((call.setTask p .ended).report p node result) := by
  have hreply : call.phase ≠ .collecting .reply := fun hphase => by
    cases hinv.eq_acks hkind (Or.inl hphase)
  have hreport : (call.setTask p .ended).report p node result =
      { call.setTask p .ended with results := call.results ++ [⟨p, node.id, result⟩] } := by
    rw [Call.report]
    split
    · exact absurd ‹_› hreply
    · rfl
  rw [hreport]
  refine ⟨fun q hq => ?_, fun r hr => ?_, fun t out ht hfired => ?_, h.nonempty⟩
  · rcases ListUpdate.getElem?_set_cases hq with ⟨rfl, -⟩ | ⟨-, hold⟩
    · exact ⟨⟨q, node.id, result⟩, by simp, rfl⟩
    · obtain ⟨r, hr, hrq⟩ := h.complete q hold
      exact ⟨r, by rw [← List.append_assoc]; exact List.mem_append_left _ hr, hrq⟩
  · rw [← List.append_assoc, List.mem_append, List.mem_singleton] at hr
    rcases hr with hr | rfl
    · exact h.sent r hr
    · exact hresult
  · exact absurd (h.closed t out ht hfired).2.1 (not_allEnded hp hne)

theorem Acked.taskStep (h : Acked env call) (hinv : Inv env call) (hkind : call.kind = .multicast)
    {c id : Nat} {node : NodeHandle} {ch ch' : Channel} {a : CallAct T}
    (hp : call.tasks[p]? = some stage) (hsender : Act.FromSender (.on c a))
    (hmoves : TaskMoves env id call p node ch stage a call' ch') : Acked env call' := by
  cases hmoves with
  | nextSeq => exact h.setTask hp (by simp) (by simp)
  | refuse => exact h.endTask hinv hkind hp (by simp) node (by simp [Env.sendResults])
  | enqueue => exact h.setTask hp (by simp) (by simp)
  | reply _ hkind' =>
      rw [hkind] at hkind'
      simp at hkind'
  | update _ hkind' =>
      rw [hkind] at hkind'
      cases hkind'
  | ack => exact h.endTask hinv hkind hp (by simp) node (ackResult_mem hsender)
  | finish hkind' =>
      rw [hkind] at hkind'
      cases hkind'

/-- The message for the node at position `p` was handed to its stream. -/
def Handed (call : Call T) (p : Nat) : Prop := ∃ r ∈ call.taken, r.position = p ∧ r.result.isOk = true

def AllHanded (call : Call T) : Prop := ∀ p < call.size, call.Handed p

/-- `out` is `Ok` if and only if all messages were handed over, and otherwise names the nodes whose
message was not. -/
def ReportsSends (env : Env T) (call : Call T) (out : Outcome T) : Prop :=
  (out = .ok env.unit ↔ call.AllHanded) ∧
    (¬call.AllHanded → ∃ errors, out = .err (.quorumCall ⟨.sendFailure, errors⟩) ∧
      ∀ id, id ∈ errors.map NodeError.nodeId ↔
        ∃ p node, call.nodes[p]? = some node ∧ node.id = id ∧ ¬call.Handed p)

/-- A multicast that was not cancelled and has returned says `Ok`, whatever became of its messages. -/
theorem Acked.eq_ok (h : Acked env call) (hinv : Inv env call) (hkind : call.kind = .multicast)
    (hfired : call.fired = false) {t : Terminal T} {out : Outcome T}
    (hphase : call.phase = .returned t out) : out = .ok env.unit := by
  cases hinv.eq_acks hkind (Or.inr ⟨out, hphase⟩)
  obtain ⟨-, -, hout⟩ := h.closed _ out hphase hfired
  have hsent : ∀ ack ∈ call.taken.map fun r => (r.nodeId, r.result), ack.2 ∈ env.sendResults := by
    intro ack hack
    obtain ⟨r, hr, rfl⟩ := List.mem_map.mp hack
    exact h.sent r (List.mem_append_left _ hr)
  have hafter := after_multicastLoop hsent
  rw [hout, Env.loop, ReceiveLoop.result]
  have hcomap : ((multicastLoop env.unit).comap fun r : OrderedNodeResponse T =>
      (r.nodeId, r.result)).after call.taken = .ok [] := by
    rw [ReceiveLoop.after, List.foldlM_map] at hafter
    exact hafter
  rw [hcomap]
  rfl

/-- A call that did not get past its interceptors and checks has handed over nothing. -/
theorem Inv.not_handed_of_rejected (h : Inv env call) {out : Outcome T}
    (hphase : call.phase = .rejected out) : ¬call.Handed p := by
  rintro ⟨r, hr, -⟩
  have hstage := (h.fromTask r (List.mem_append_left _ hr)).stage
  rw [h.idle (Or.inr ⟨out, hphase⟩)] at hstage
  simp at hstage

/-- The call has ended with `out`: it returned, or panicked on an empty configuration. -/
def Ended (call : Call T) (out : Outcome T) : Prop :=
  (∃ t, call.phase = .returned t out) ∨ call.phase = .rejected .panicked ∧ out = .panicked

theorem Acked.reports_iff (h : Acked env call) (hinv : Inv env call)
    (hkind : call.kind = .multicast) (hfired : call.fired = false) {out : Outcome T}
    (hended : call.Ended out) : ReportsSends env call out ↔ call.nodes ≠ [] ∧ call.AllHanded := by
  rcases hended with ⟨t, hphase⟩ | ⟨hphase, rfl⟩
  · have hnodes : call.nodes ≠ [] := fun hnil => by
      obtain ⟨out', hout'⟩ := h.nonempty hnil
      rw [hphase] at hout'
      cases hout'
    cases h.eq_ok hinv hkind hfired hphase
    exact ⟨fun hreports => ⟨hnodes, hreports.1.mp rfl⟩,
      fun hall => ⟨iff_of_true rfl hall.2, fun hnot => absurd hall.2 hnot⟩⟩
  · refine iff_of_false (fun hreports => ?_) (fun ⟨hnodes, hall⟩ => ?_)
    · by_cases hall : call.AllHanded
      · cases hreports.1.mpr hall
      · obtain ⟨errors, herr, -⟩ := hreports.2 hall
        cases herr
    · exact hinv.not_handed_of_rejected hphase (hall 0 (List.length_pos_iff.mpr hnodes))

end Call

/-- Every multicast of the state. -/
def State.Acked (env : Env T) (s : State T) : Prop :=
  ∀ call ∈ s.calls, call.kind = .multicast → call.Acked env

theorem acked_step {s t : State T} {a : Act T} (hinv : s.Inv env) (h : s.Acked env)
    (hsender : a.FromSender) (hstep : step env s a = some t) : t.Acked env := by
  have hset {c : Nat} {new : Call T} (hnew : new.kind = .multicast → new.Acked env)
      (channels : Nat → Channel) : State.Acked env ⟨s.calls.set c new, channels⟩ := by
    intro x hx
    rcases List.mem_or_eq_of_mem_set hx with hx | rfl
    · exact h x hx
    · exact hnew
  cases step_cases hstep with
  | @call kind method payload metadata nodes chain _ =>
      intro x hx hkind
      rcases List.mem_append.mp hx with hx | hx
      · exact h x hx hkind
      · rw [List.mem_singleton.mp hx] at hkind ⊢
        rw [(Call.invoked s.dispatched kind method payload metadata nodes chain).kind] at hkind
        rw [hkind]
        exact Call.Acked.invoke ..
  | @caller c a call new hcall _ hcaller =>
      have hmoves := Call.moves_of_callerStep hcaller
      have hmem := List.mem_of_getElem? hcall
      refine hset (fun hkind => ?_) _
      have hkind' : call.kind = .multicast := (Call.callerFrame hmoves).kind ▸ hkind
      exact (h _ hmem hkind').callerStep (hinv _ hmem) hkind' hmoves
  | @task c p a call new stage node ch' hcall _ hp hnode htask =>
      have hmoves := Call.moves_of_taskStep htask
      have hmem := List.mem_of_getElem? hcall
      refine hset (fun hkind => ?_) _
      have hkind' : call.kind = .multicast := (Call.taskFrame hp hmoves).kind ▸ hkind
      exact (h _ hmem hkind').taskStep (hinv _ hmem) hkind' hp hsender hmoves
  | closeChannel => exact h

theorem acked_run {s : State T} {acts : List (Act T)} (hsender : ∀ a ∈ acts, a.FromSender)
    (hrun : Transition.run (step env) init acts = some s) : s.Inv env ∧ s.Acked env :=
  Transition.run_invariant_within (P := fun s => s.Inv env ∧ s.Acked env)
    (fun _ _ _ h hok hstep => ⟨inv_step h.1 hstep, acked_step h.1 h.2 hok hstep⟩)
    ⟨fun _ hx => absurd hx List.not_mem_nil, fun _ hx => absurd hx List.not_mem_nil⟩
    (Transition.within_of_forall hsender) hrun

/-- A multicast that is not cancelled reports its failed sends if and only if there are none, on a
configuration that is not empty. -/
theorem reportsSends_iff {acts : List (Act T)} {s : State T} (hsender : ∀ a ∈ acts, a.FromSender)
    (hrun : Transition.run (step env) init acts = some s) {c : Nat} {call : Call T}
    (hcall : s.calls[c]? = some call) (hkind : call.kind = .multicast) (hfired : call.fired = false)
    {out : Outcome T} (hended : call.Ended out) :
    call.ReportsSends env out ↔ call.nodes ≠ [] ∧ call.AllHanded := by
  obtain ⟨hinv, hacked⟩ := acked_run hsender hrun
  have hmem := List.mem_of_getElem? hcall
  exact (hacked call hmem hkind).reports_iff (hinv call hmem) hkind hfired hended

/-- Responses are not looked at. -/
def ackEnv : Env Unit := ⟨fun _ _ => .ok (), (), true⟩

/-- A multicast to one node, whose send is acknowledged with `r`. -/
def oneSend (r : Option (Except Error Unit)) : List (Act Unit) :=
  [.call .multicast "/s/M" [] [] [⟨1, 0⟩] [], .on 0 (.nextSeq 0), .on 0 (.enqueue 0), .on 0 (.ack 0 r),
    .on 0 .take, .on 0 .close]

/-- What the run leaves of the call: it returned `Ok` and read the given result. -/
theorem exists_run_oneSend (r : Option (Except Error Unit)) (hr : r = some (.ok ()) ∨ r = none) :
    ∃ s call, Transition.run (step ackEnv) init (oneSend r) = some s ∧ s.calls[0]? = some call ∧
      call.kind = .multicast ∧ call.fired = false ∧ call.nodes = [⟨1, 0⟩] ∧ call.Ended (.ok ()) ∧
      call.taken = [⟨0, 1, ackEnv.ackResult r⟩] := by
  rcases hr with rfl | rfl <;>
    exact ⟨_, _, rfl, rfl, rfl, rfl, rfl, Or.inl ⟨.acks, rfl⟩, rfl⟩

theorem reportsSends_iff_oneSend :
    ∃ s call, Transition.run (step ackEnv) init (oneSend (some (.ok ()))) = some s ∧
      s.calls[0]? = some call ∧ call.ReportsSends ackEnv (.ok ()) := by
  obtain ⟨s, call, hrun, hcall, hkind, hfired, hnodes, hended, htaken⟩ :=
    exists_run_oneSend (some (.ok ())) (Or.inl rfl)
  have hsender : ∀ a ∈ oneSend (some (.ok ())), a.FromSender := by
    simp [oneSend, Act.FromSender]
  refine ⟨s, call, hrun, hcall, (reportsSends_iff hsender hrun hcall hkind hfired hended).mpr
    ⟨by simp [hnodes], fun p hp => ?_⟩⟩
  rw [Call.size, hnodes, List.length_singleton, Nat.lt_one_iff] at hp
  exact ⟨_, by rw [htaken]; exact List.mem_singleton.mpr rfl, hp.symm, rfl⟩

/-- The sender of the acknowledgement is dropped, and the multicast returns `Ok`. -/
theorem not_reportsSends_dropped :
    ∃ s call, Transition.run (step ackEnv) init (oneSend none) = some s ∧
      s.calls[0]? = some call ∧ call.kind = .multicast ∧ call.fired = false ∧ call.Ended (.ok ()) ∧
      ¬call.ReportsSends ackEnv (.ok ()) := by
  obtain ⟨s, call, hrun, hcall, hkind, hfired, hnodes, hended, htaken⟩ :=
    exists_run_oneSend none (Or.inr rfl)
  refine ⟨s, call, hrun, hcall, hkind, hfired, hended, fun hreports => ?_⟩
  obtain ⟨r, hr, -, hok⟩ := hreports.1.mp rfl 0 (by simp [Call.size, hnodes])
  rw [htaken, List.mem_singleton] at hr
  rw [hr] at hok
  cases hok

end Quorums.Client
