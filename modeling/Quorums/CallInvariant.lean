import Quorums.BaseList
import Quorums.CallSystem
import Quorums.HandleCounts

/-! What holds of every call in every reachable state: a task reports a result only after it has tried
to enqueue, and all but the tasks of a correctable call report once; a call that has returned did so
because its loop left, because all its tasks had ended, or because it was cancelled. -/

namespace Quorums.Client

variable {T : Type} {env : Env T}

namespace Call

/-- Nothing of the call has been started. -/
def Idle (call : Call T) : Prop := call.phase = .created ∨ ∃ out, call.phase = .rejected out

/-- The method `t` that a call waits with, or has waited with. -/
def Awaits (call : Call T) (t : Terminal T) : Prop :=
  call.phase = .collecting t ∨ ∃ out, call.phase = .returned t out

/-- The methods a call of a kind can wait with. -/
inductive Suits : CallKind → Terminal T → Prop where
  | reply {kind : CallKind} (hsingle : kind.single = true) : Suits kind .reply
  | acks {kind : CallKind} (hkind : kind = .multicast) : Suits kind .acks
  | handle {kind : CallKind} {t : Terminal T} (hfits : t.fits kind = true) : Suits kind t

theorem Suits.single {kind : CallKind} (h : Suits kind (.reply : Terminal T)) : kind.single = true := by
  cases h with
  | reply hsingle => exact hsingle
  | handle hfits => cases hfits

def AllEnded (call : Call T) : Prop := ∀ stage ∈ call.tasks, stage = .ended

/-- Why a call has returned `out` from `t`. -/
inductive Settled (env : Env T) (call : Call T) : Terminal T → Outcome T → Prop where
  | reply {out : Outcome T} (hended : call.AllEnded) : Settled env call .reply out
  | left {t : Terminal T} {out : Outcome T}
      (hexit : (env.loop call.kind call.size t).2.exit? call.taken = some out) : Settled env call t out
  | closed {t : Terminal T} (hended : call.AllEnded) :
      Settled env call t ((env.loop call.kind call.size t).2.result call.taken)
  | cancelled {t : Terminal T} (hreply : t ≠ .reply) : Settled env call t (.err .cancelled)

/-- A result in the channel, or read from it, comes from the task at its position. -/
structure FromTask (call : Call T) (r : OrderedNodeResponse T) : Prop where
  node : ∃ node, call.nodes[r.position]? = some node ∧ node.id = r.nodeId
  stage : call.tasks[r.position]? = some .ended ∨
    call.tasks[r.position]? = some .waiting ∧ call.kind = .correctableCall

structure Inv (env : Env T) (call : Call T) : Prop where
  single : call.kind.single = true → call.nodes.length = 1
  idle : call.Idle → call.tasks = []
  started : ¬ call.Idle → call.tasks.length = call.nodes.length
  suits : ∀ t, call.Awaits t → Suits call.kind t
  fromTask : ∀ r ∈ call.taken ++ call.results, call.FromTask r
  nodup : call.kind ≠ .correctableCall →
    ((call.taken ++ call.results).map OrderedNodeResponse.position).Nodup
  settled : ∀ t out, call.phase = .returned t out → Settled env call t out

variable {call : Call T} {p : Nat} {stage : Stage}

theorem not_idle_of_collecting {t : Terminal T} (h : call.phase = .collecting t) : ¬ call.Idle := by
  rintro (hc | ⟨out, hc⟩) <;> rw [h] at hc <;> cases hc

theorem not_idle_of_launched (h : call.phase = .launched) : ¬ call.Idle := by
  rintro (hc | ⟨out, hc⟩) <;> rw [h] at hc <;> cases hc

/-- No result of a task is there before it ends, unless the call is a correctable one. -/
theorem Inv.position_ne (h : Inv env call) (hp : call.tasks[p]? = some stage) (hne : stage ≠ .ended)
    (hfresh : stage = .waiting → call.kind ≠ .correctableCall) {r : OrderedNodeResponse T}
    (hr : r ∈ call.taken ++ call.results) : r.position ≠ p := by
  rintro rfl
  rcases (h.fromTask r hr).stage with hended | ⟨hwaiting, hkind⟩
  · exact hne (Option.some.inj (hp.symm.trans hended))
  · exact hfresh (Option.some.inj (hp.symm.trans hwaiting)) hkind

theorem not_allEnded (hp : call.tasks[p]? = some stage) (hne : stage ≠ .ended) : ¬ call.AllEnded :=
  fun h => hne (h stage (List.mem_of_getElem? hp))

/-- A step of a task that is not over keeps the reason for which the call has returned. -/
theorem Settled.setTask {t : Terminal T} {out : Outcome T} (h : Settled env call t out)
    (hp : call.tasks[p]? = some stage) (hne : stage ≠ .ended) (next : Stage) :
    Settled env (call.setTask p next) t out := by
  cases h with
  | reply hended => exact absurd hended (not_allEnded hp hne)
  | left hexit => exact .left hexit
  | closed hended => exact absurd hended (not_allEnded hp hne)
  | cancelled hreply => exact .cancelled hreply

theorem Inv.setTask (h : Inv env call) (hp : call.tasks[p]? = some stage) (hne : stage ≠ .ended)
    {next : Stage} (hnext : next = .ended ∨ stage.passed = false) : Inv env (call.setTask p next) where
  single := h.single
  idle hidle := by
    rw [h.idle hidle] at hp
    cases hp
  started hidle := by
    rw [Call.setTask, List.length_set]
    exact h.started hidle
  suits := h.suits
  fromTask r hr := by
    have hold := h.fromTask r hr
    refine ⟨hold.node, ?_⟩
    by_cases hpos : p = r.position
    · subst hpos
      rcases hnext with rfl | hnot
      · exact Or.inl (ListUpdate.getElem?_set_of_some hp)
      · refine absurd rfl (h.position_ne hp hne (fun hw => ?_) hr)
        rw [hw] at hnot
        cases hnot
    · rcases hold.stage with hended | ⟨hwaiting, hkind⟩
      · exact Or.inl (by rw [Call.setTask, List.getElem?_set, if_neg hpos]; exact hended)
      · exact Or.inr ⟨by rw [Call.setTask, List.getElem?_set, if_neg hpos]; exact hwaiting, hkind⟩
  nodup := h.nodup
  settled t out hphase := (h.settled t out hphase).setTask hp hne next

/-- The reason for which a call has returned is made from its kind, nodes, tasks and what it has read. -/
theorem Settled.of_eq {call' : Call T} {t : Terminal T} {out : Outcome T} (h : Settled env call t out)
    (hkind : call'.kind = call.kind) (hnodes : call'.nodes = call.nodes)
    (htasks : call'.tasks = call.tasks) (htaken : call'.taken = call.taken) : Settled env call' t out := by
  have hended (hall : call.AllEnded) : call'.AllEnded := by
    rw [AllEnded, htasks]
    exact hall
  have hsize : call'.size = call.size := by rw [Call.size, hnodes, Call.size]
  cases h with
  | reply hall => exact .reply (hended hall)
  | left hexit => exact .left (by rw [hkind, hsize, htaken]; exact hexit)
  | closed hall =>
      rw [← hkind, ← hsize, ← htaken]
      exact .closed (hended hall)
  | cancelled hreply => exact .cancelled hreply

/-- A task that has ended, or a correctable one, reports a result. -/
theorem Inv.report (h : Inv env call) {node : NodeHandle} (hnode : call.nodes[p]? = some node)
    (hstage : call.tasks[p]? = some .ended ∨
      call.tasks[p]? = some .waiting ∧ call.kind = .correctableCall)
    (hfresh : call.kind ≠ .correctableCall → ∀ r ∈ call.taken ++ call.results, r.position ≠ p)
    (result : Except Error T) : Inv env (call.report p node result) := by
  rw [Call.report]
  split
  · rename_i hphase
    have hsuits := h.suits .reply (Or.inl hphase)
    have hsingle := hsuits.single
    have hended : call.AllEnded := by
      -- the only task is the one that reports
      have hlen : call.tasks.length = 1 := by
        rw [h.started (not_idle_of_collecting hphase), h.single hsingle]
      obtain ⟨only, honly⟩ := List.length_eq_one_iff.mp hlen
      rcases hstage with hstage | ⟨-, hkind⟩
      · rw [AllEnded, honly]
        rw [honly, List.getElem?_singleton] at hstage
        split at hstage
        · rw [Option.some.inj hstage]
          simp
        · cases hstage
      · rw [hkind] at hsingle
        cases hsingle
    exact {
      single := h.single
      idle := by
        rintro (hc | ⟨out, hc⟩) <;> cases hc
      started := fun _ => h.started (not_idle_of_collecting hphase)
      suits := by
        rintro t (ht | ⟨out, ht⟩)
        · cases ht
        · cases ht
          exact hsuits
      fromTask := fun r hr => ⟨(h.fromTask r hr).node, (h.fromTask r hr).stage⟩
      nodup := h.nodup
      settled := by
        intro t out ht
        cases ht
        exact .reply hended }
  · refine { h with
      fromTask := fun r hr => ?_
      nodup := fun hkind => ?_
      settled := fun t out ht => ?_ }
    · rw [← List.append_assoc, List.mem_append, List.mem_singleton] at hr
      rcases hr with hr | rfl
      · exact ⟨(h.fromTask r hr).node, (h.fromTask r hr).stage⟩
      · exact ⟨⟨node, hnode, rfl⟩, hstage⟩
    · rw [← List.append_assoc, List.map_append, List.nodup_append]
      refine ⟨h.nodup hkind, by simp, ?_⟩
      rintro a ha b hb rfl
      obtain ⟨r, hr, rfl⟩ := List.mem_map.mp ha
      exact hfresh hkind r hr (by simpa using hb)
    · exact (h.settled t out ht).of_eq rfl rfl rfl rfl

/-- What a call is once its interceptors have run: it is idle, or it waits with its tasks spawned. -/
inductive Invoked (earlier : List Nat) (kind : CallKind) (method : String) (payload : Payload)
    (metadata : List (String × String)) (nodes : List NodeHandle) : Call T → Prop where
  | idle {phase : Phase T} (hphase : phase = .created ∨ ∃ out, phase = .rejected out) :
      Invoked earlier kind method payload metadata nodes
        ⟨kind, method, payload, metadata, nodes, [], [], [], false, phase, false, []⟩
  | started {t : Terminal T} (hsuits : Suits kind t) (ht : t = .reply ∨ t = .acks) :
      Invoked earlier kind method payload metadata nodes
        ⟨kind, method, payload, metadata, nodes, nodes.map fun _ => .spawned, [], [], false,
          .collecting t, false, earlier⟩

theorem invoked (earlier : List Nat) (kind : CallKind) (method : String) (payload : Payload)
    (metadata : List (String × String)) (nodes : List NodeHandle)
    (chain : List (CallInfo → Except Error Unit)) :
    Invoked earlier kind method payload metadata nodes
      (Call.invoke earlier kind method payload metadata nodes chain : Call T) := by
  unfold Call.invoke
  dsimp only
  split
  · exact .idle (Or.inr ⟨_, rfl⟩)
  · split
    · exact .idle (Or.inr ⟨_, rfl⟩)
    · cases kind with
      | rpcCall | unicast => exact .started (.reply rfl) (Or.inl rfl)
      | multicast => exact .started (.acks rfl) (Or.inr rfl)
      | quorumCall | orderedQuorumCall | correctableCall => exact .idle (Or.inl rfl)

theorem Inv.invoke {earlier : List Nat} {kind : CallKind} {method : String} {payload : Payload}
    {metadata : List (String × String)} {nodes : List NodeHandle}
    (hinvoked : Invoked earlier kind method payload metadata nodes call)
    (hsingle : kind.single = true → nodes.length = 1) : Inv env call := by
  cases hinvoked with
  | idle hphase =>
      exact {
        single := hsingle
        idle := fun _ => rfl
        started := fun hnot => absurd hphase hnot
        suits := by
          rintro t (ht | ⟨out, ht⟩) <;> rcases hphase with hc | ⟨out', hc⟩ <;> simp_all
        fromTask := nofun
        nodup := fun _ => List.nodup_nil
        settled := by
          intro t out ht
          rcases hphase with hc | ⟨out', hc⟩ <;> simp_all }
  | started hsuits =>
      exact {
        single := hsingle
        idle := fun hc => absurd hc (not_idle_of_collecting rfl)
        started := fun _ => List.length_map _
        suits := by
          rintro u (hu | ⟨out, hu⟩)
          · cases hu
            exact hsuits
          · cases hu
        fromTask := nofun
        nodup := fun _ => List.nodup_nil
        settled := nofun }

/-- The call waits with `t` from now on. -/
theorem Inv.collect (h : Inv env call) {t : Terminal T} (hsuits : Suits call.kind t)
    (hidle : ¬ call.Idle) : Inv env { call with phase := .collecting t } :=
  { h with
    idle := fun hc => absurd hc (not_idle_of_collecting rfl)
    started := fun _ => h.started hidle
    suits := by
      rintro u (hu | ⟨out, hu⟩)
      · cases hu
        exact hsuits
      · cases hu
    fromTask := fun r hr => ⟨(h.fromTask r hr).node, (h.fromTask r hr).stage⟩
    settled := nofun }

/-- The fan-out starts: nothing can have been reported before. -/
theorem Inv.launch (h : Inv env call) (hphase : call.phase = .created) (earlier : List Nat)
    (sentNow : Bool) : Inv env { call.launch earlier with phase := .launched, sentNow := sentNow } :=
  { h with
    idle := fun hc => absurd hc (not_idle_of_launched rfl)
    started := fun _ => List.length_map _
    suits := by
      rintro u (hu | ⟨out, hu⟩) <;> cases hu
    fromTask := by
      intro r hr
      have hstage := (h.fromTask r hr).stage
      rw [h.idle (Or.inl hphase)] at hstage
      simp at hstage
    settled := nofun }

/-- The call returns `out` from the method it waits with. -/
theorem Inv.return (h : Inv env call) {t : Terminal T} {out : Outcome T}
    (hphase : call.phase = .collecting t)
    (hsettled : Settled env { call with phase := .returned t out } t out) :
    Inv env { call with phase := .returned t out } :=
  { h with
    idle := by
      rintro (hc | ⟨out, hc⟩) <;> cases hc
    started := fun _ => h.started (not_idle_of_collecting hphase)
    suits := by
      rintro u (hu | ⟨out, hu⟩)
      · cases hu
      · cases hu
        exact h.suits t (Or.inl hphase)
    fromTask := fun r hr => ⟨(h.fromTask r hr).node, (h.fromTask r hr).stage⟩
    settled := by
      intro u out' hu
      cases hu
      exact hsettled }

/-- The caller reads a result. -/
theorem Inv.read (h : Inv env call) {t : Terminal T} {r : OrderedNodeResponse T}
    {rest : List (OrderedNodeResponse T)} (hphase : call.phase = .collecting t)
    (hresults : call.results = r :: rest) :
    Inv env { call with results := rest, taken := call.taken ++ [r] } := by
  have hread : call.taken ++ [r] ++ rest = call.taken ++ call.results := by
    rw [hresults, List.append_assoc, List.singleton_append]
  refine { h with
    fromTask := fun x hx => ?_
    nodup := fun hkind => ?_
    settled := fun u out hu => ?_ }
  · have hx' : x ∈ call.taken ++ call.results := hread ▸ hx
    exact ⟨(h.fromTask x hx').node, (h.fromTask x hx').stage⟩
  · rw [hread]
    exact h.nodup hkind
  · rw [hphase] at hu
    cases hu

theorem Inv.callerStep (h : Inv env call) {earlier : List Nat} {a : CallAct T} {call' : Call T}
    (hmoves : CallerMoves env earlier call a call') : Inv env call' := by
  cases hmoves with
  | sendNow hphase => exact h.launch hphase earlier true
  | sendAgain => exact h
  | terminal hfits hphase =>
      exact (h.launch hphase earlier call.sentNow).collect (.handle hfits) (not_idle_of_launched rfl)
  | await hfits hphase => exact h.collect (.handle hfits) (not_idle_of_launched hphase)
  | leave hphase _ hresults _ hexit => exact (h.read hphase hresults).return hphase (.left hexit)
  | take hphase _ hresults => exact h.read hphase hresults
  | close hphase _ _ _ hended => exact h.return hphase (.closed hended)
  | cancelReply hphase _ htasks =>
      have hp : call.tasks[0]? = some .waiting := by rw [htasks]; rfl
      have hset : call.setTask 0 .ended = { call with tasks := [.ended] } := by
        rw [Call.setTask, htasks]
        rfl
      have hended := h.setTask hp nofun (Or.inl rfl)
      rw [hset] at hended
      exact hended.return hphase (.reply (by simp [AllEnded]))
  | cancel hphase hreply => exact h.return hphase (.cancelled hreply)
  | fire =>
      exact { h with
        fromTask := fun r hr => ⟨(h.fromTask r hr).node, (h.fromTask r hr).stage⟩
        settled := fun t out ht => (h.settled t out ht).of_eq rfl rfl rfl rfl }

/-- A task ends and reports. -/
theorem Inv.endTask (h : Inv env call) {node : NodeHandle} (hp : call.tasks[p]? = some stage)
    (hnode : call.nodes[p]? = some node) (hne : stage ≠ .ended)
    (hfresh : stage = .waiting → call.kind ≠ .correctableCall) (result : Except Error T) :
    Inv env ((call.setTask p .ended).report p node result) :=
  (h.setTask hp hne (Or.inl rfl)).report hnode (Or.inl (ListUpdate.getElem?_set_of_some hp))
    (fun _ _ hr => h.position_ne hp hne hfresh hr) result

theorem Inv.taskStep (h : Inv env call) {id : Nat} {node : NodeHandle} {ch ch' : Channel} {a : CallAct T}
    {call' : Call T} (hp : call.tasks[p]? = some stage) (hnode : call.nodes[p]? = some node)
    (hmoves : TaskMoves env id call p node ch stage a call' ch') : Inv env call' := by
  cases hmoves with
  | nextSeq => exact h.setTask hp nofun (Or.inr rfl)
  | refuse => exact h.endTask hp hnode nofun nofun _
  | enqueue => exact h.setTask hp nofun (Or.inr rfl)
  | reply _ hkind =>
      refine h.endTask hp hnode nofun (fun _ => ?_) _
      rcases hkind with hkind | hkind | hkind <;> rw [hkind] <;> nofun
  | update _ hkind => exact h.report hnode (Or.inr ⟨hp, hkind⟩) (fun hc => absurd hkind hc) _
  | ack _ hkind =>
      refine h.endTask hp hnode nofun (fun _ => ?_) _
      rcases hkind with hkind | hkind <;> rw [hkind] <;> nofun
  | finish => exact h.setTask hp nofun (Or.inl rfl)

end Call

/-- What a step can be: a new call, a step of one call with one channel, or the end of a node. -/
inductive StepCases (env : Env T) (s : State T) : Act T → State T → Prop where
  | call {kind : CallKind} {method : String} {payload : Payload} {metadata : List (String × String)}
      {nodes : List NodeHandle} {chain : List (CallInfo → Except Error Unit)}
      (hsingle : kind.single = true → nodes.length = 1) :
      StepCases env s (.call kind method payload metadata nodes chain) { s with
        calls := s.calls ++ [Call.invoke s.dispatched kind method payload metadata nodes chain] }
  | caller {c : Nat} {a : CallAct T} {call call' : Call T} (hcall : s.calls[c]? = some call)
      (htask : a.task? = none) (hstep : call.callerStep env s.dispatched a = some call') :
      StepCases env s (.on c a) { s with calls := s.calls.set c call' }
  | task {c p : Nat} {a : CallAct T} {call call' : Call T} {stage : Stage} {node : NodeHandle}
      {ch' : Channel} (hcall : s.calls[c]? = some call) (htask : a.task? = some p)
      (hp : call.tasks[p]? = some stage) (hnode : call.nodes[p]? = some node)
      (hstep : call.taskStep env c p stage node (s.channels node.channel) a = some (call', ch')) :
      StepCases env s (.on c a)
        ⟨s.calls.set c call', Function.update s.channels node.channel ch'⟩
  | closeChannel {x : Nat} :
      StepCases env s (.closeChannel x) { s with
        channels := Function.update s.channels x { s.channels x with closed := true } }

theorem step_cases {s t : State T} {a : Act T} (h : step env s a = some t) : StepCases env s a t := by
  cases a with
  | call kind method payload metadata nodes chain =>
      simp only [step] at h
      split at h
      · cases h
        exact .call ‹_›
      · cases h
  | on c a =>
      obtain ⟨call, hcall, hstep⟩ := Option.bind_eq_some_iff.mp h
      rw [State.callStep] at hstep
      split at hstep
      · rename_i htask
        obtain ⟨call', hcaller, rfl⟩ := Option.map_eq_some_iff.mp hstep
        exact .caller hcall htask hcaller
      · rename_i p htask
        split at hstep
        · rename_i stage node hp hnode
          obtain ⟨⟨call', ch'⟩, htaskStep, rfl⟩ := Option.map_eq_some_iff.mp hstep
          exact .task hcall htask hp hnode htaskStep
        · cases hstep
  | closeChannel x =>
      cases h
      exact .closeChannel

/-- Every call of the state meets the invariant. -/
def State.Inv (env : Env T) (s : State T) : Prop := ∀ call ∈ s.calls, call.Inv env

theorem State.Inv.set {s : State T} (h : s.Inv env) {c : Nat} {call : Call T} (hcall : call.Inv env)
    (channels : Nat → Channel) : State.Inv env ⟨s.calls.set c call, channels⟩ := by
  intro x hx
  rcases List.mem_or_eq_of_mem_set hx with hx | rfl
  · exact h x hx
  · exact hcall

theorem inv_step {s t : State T} {a : Act T} (h : s.Inv env) (hstep : step env s a = some t) :
    t.Inv env := by
  cases step_cases hstep with
  | call hsingle =>
      intro x hx
      rcases List.mem_append.mp hx with hx | hx
      · exact h x hx
      · rw [List.mem_singleton.mp hx]
        exact Call.Inv.invoke (Call.invoked ..) hsingle
  | caller hcall _ hcaller =>
      exact h.set ((h _ (List.mem_of_getElem? hcall)).callerStep (Call.moves_of_callerStep hcaller)) _
  | task hcall _ hp hnode htask =>
      exact h.set ((h _ (List.mem_of_getElem? hcall)).taskStep hp hnode (Call.moves_of_taskStep htask)) _
  | closeChannel => exact h

theorem inv_run {s : State T} {acts : List (Act T)}
    (hrun : Transition.run (step env) init acts = some s) : s.Inv env :=
  Transition.run_invariant (P := State.Inv env) (fun _ _ _ h hstep => inv_step h hstep)
    (fun _ hx => absurd hx List.not_mem_nil) hrun

end Quorums.Client
