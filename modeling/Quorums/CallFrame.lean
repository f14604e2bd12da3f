import Quorums.CallInvariant

/-! What the steps of a call leave alone, and what holds of the send queues in every reachable state: a
task that has tried to enqueue has its message in the queue, unless the node is closed, and nothing else
enters the queue. -/

namespace Quorums.Client

variable {T : Type} {env : Env T}

namespace Call

/-- The task at position `p` has tried to enqueue. -/
def Passed (call : Call T) (p : Nat) : Prop := ∃ stage, call.tasks[p]? = some stage ∧ stage.passed = true

variable {call call' : Call T} {p : Nat} {stage : Stage}

theorem passed_setTask {next : Stage} {q : Nat} (h : (call.setTask p next).Passed q) :
    call.Passed q ∨ (q = p ∧ next.passed = true) := by
  obtain ⟨st, hst, hpassed⟩ := h
  rcases ListUpdate.getElem?_set_cases hst with ⟨rfl, rfl⟩ | ⟨-, hold⟩
  · exact Or.inr ⟨rfl, hpassed⟩
  · exact Or.inl ⟨st, hold, hpassed⟩

theorem Passed.setTask {next : Stage} {q : Nat} (h : call.Passed q) (hp : call.tasks[p]? = some stage)
    (hnext : next.passed = true ∨ stage.passed = false) : (call.setTask p next).Passed q := by
  obtain ⟨st, hst, hpassed⟩ := h
  by_cases hqp : p = q
  · subst hqp
    rcases hnext with hnext | hnot
    · exact ⟨next, ListUpdate.getElem?_set_of_some hp, hnext⟩
    · rw [Option.some.inj (hp.symm.trans hst), hpassed] at hnot
      cases hnot
  · exact ⟨st, by rw [Call.setTask, List.getElem?_set, if_neg hqp]; exact hst, hpassed⟩

theorem passed_of_allEnded (hended : call.AllEnded) (hlen : call.tasks.length = call.nodes.length)
    (hp : p < call.size) : call.Passed p := by
  have hlt : p < call.tasks.length := by rwa [hlen]
  refine ⟨_, List.getElem?_eq_getElem hlt, ?_⟩
  rw [hended _ (List.getElem_mem hlt)]
  rfl

@[simp] theorem tasks_report (node : NodeHandle) (result : Except Error T) :
    (call.report p node result).tasks = call.tasks := by
  rw [Call.report]
  split <;> rfl

/-- What no step changes, and the dispatch that is over stays over. -/
structure Frame (call call' : Call T) : Prop where
  nodes : call'.nodes = call.nodes
  kind : call'.kind = call.kind
  dispatched : call.dispatched = true → call'.dispatched = true

theorem Frame.setTask (next : Stage) : Frame call (call.setTask p next) := ⟨rfl, rfl, id⟩

theorem Frame.report (node : NodeHandle) (result : Except Error T) :
    Frame call (call.report p node result) := by
  rw [Call.report]
  split
  · rename_i hphase
    refine ⟨rfl, rfl, fun h => ?_⟩
    simp only [Call.dispatched, hphase, Bool.or_false] at h
    simp [Call.dispatched, h]
  · exact ⟨rfl, rfl, id⟩

theorem Frame.trans {call'' : Call T} (h : Frame call call') (h' : Frame call' call'') :
    Frame call call'' :=
  ⟨h'.nodes.trans h.nodes, h'.kind.trans h.kind, fun hd => h'.dispatched (h.dispatched hd)⟩

/-- A step of the caller: the fan-out starts only once, and the caller gets no task past the queue. -/
structure CallerFrame (earlier : List Nat) (call call' : Call T) : Prop extends Frame call call' where
  passed : ∀ q, call'.Passed q → call.Passed q
  kept : call.phase = .created ∨ (call'.after = call.after ∧ ∀ q, call.Passed q → call'.Passed q)
  after : call'.after = call.after ∨ call'.after = earlier

theorem not_passed_launch (earlier : List Nat) {q : Nat} : ¬ (call.launch earlier).Passed q := by
  rintro ⟨st, hst, hpassed⟩
  rw [Call.launch, List.getElem?_map, Option.map_eq_some_iff] at hst
  obtain ⟨node, -, rfl⟩ := hst
  cases hpassed

theorem dispatched_of_phase {t : Terminal T} (hphase : call.phase = .collecting t) :
    call.dispatched = call.sentNow := by
  simp [Call.dispatched, hphase]

/-- A caller that waits changes its phase and reads results; its tasks stay as they are. -/
theorem CallerFrame.of_collecting {earlier : List Nat} {t : Terminal T}
    (hphase : call.phase = .collecting t) (hnodes : call'.nodes = call.nodes)
    (hkind : call'.kind = call.kind) (hsent : call'.sentNow = call.sentNow)
    (hafter : call'.after = call.after) (hpassed : ∀ q, call'.Passed q ↔ call.Passed q) :
    CallerFrame earlier call call' where
  nodes := hnodes
  kind := hkind
  dispatched h := by
    rw [dispatched_of_phase hphase] at h
    simp [Call.dispatched, hsent, h]
  passed q := (hpassed q).mp
  kept := Or.inr ⟨hafter, fun q => (hpassed q).mpr⟩
  after := Or.inl hafter

theorem CallerFrame.launch (earlier : List Nat) (hphase : call.phase = .created) (phase : Phase T)
    (sentNow : Bool) (hsent : call.sentNow = true → sentNow = true) :
    CallerFrame earlier call { call.launch earlier with phase := phase, sentNow := sentNow } where
  nodes := rfl
  kind := rfl
  dispatched h := by
    simp only [Call.dispatched, hphase, Bool.or_false] at h
    simp [Call.dispatched, hsent h]
  passed q h := absurd h (not_passed_launch earlier)
  kept := Or.inl hphase
  after := Or.inr rfl

theorem callerFrame {earlier : List Nat} {a : CallAct T} (hmoves : CallerMoves env earlier call a call') :
    CallerFrame earlier call call' := by
  cases hmoves with
  | sendNow hphase => exact .launch earlier hphase _ true fun _ => rfl
  | sendAgain => exact ⟨⟨rfl, rfl, id⟩, fun _ => id, Or.inr ⟨rfl, fun _ => id⟩, Or.inl rfl⟩
  | terminal _ hphase => exact .launch earlier hphase _ _ id
  | await _ hphase =>
      refine ⟨⟨rfl, rfl, fun h => ?_⟩, fun _ => id, Or.inr ⟨rfl, fun _ => id⟩, Or.inl rfl⟩
      simp only [Call.dispatched, hphase, Bool.or_false] at h
      simp [Call.dispatched, h]
  | leave hphase | take hphase | close hphase | cancel hphase =>
      exact .of_collecting hphase rfl rfl rfl rfl fun _ => Iff.rfl
  | cancelReply hphase _ htasks =>
      refine .of_collecting hphase rfl rfl rfl rfl fun q => ?_
      rw [Passed, Passed, htasks]
      cases q <;> simp [Stage.passed]
  | fire => exact ⟨⟨rfl, rfl, id⟩, fun _ => id, Or.inr ⟨rfl, fun _ => id⟩, Or.inl rfl⟩

/-- A step of the task at position `p` and its effect on the queue: none, unless the task goes past an
open queue. -/
structure TaskFrame (id p : Nat) (stage : Stage) (ch ch' : Channel) (call call' : Call T) : Prop
    extends Frame call call' where
  after : call'.after = call.after
  closed : ch'.closed = ch.closed
  kept : ∀ q, call.Passed q → call'.Passed q
  effect : (ch'.log = ch.log ∧ ∀ q, call'.Passed q → call.Passed q ∨ (q = p ∧ ch.closed = true)) ∨
    (stage.passed = false ∧ ch.closed = false ∧ (∃ wire, ch'.log = ch.log ++ [(id, wire)]) ∧
      call'.Passed p ∧ ∀ q, call'.Passed q → call.Passed q ∨ q = p)

theorem TaskFrame.log {id : Nat} {ch ch' : Channel} (h : TaskFrame id p stage ch ch' call call') :
    ∃ more, ch'.log = ch.log ++ more := by
  rcases h.effect with ⟨hsame, -⟩ | ⟨-, -, ⟨wire, hwire⟩, -⟩
  · exact ⟨[], by rw [hsame, List.append_nil]⟩
  · exact ⟨_, hwire⟩

@[simp] theorem after_report (node : NodeHandle) (result : Except Error T) :
    (call.report p node result).after = call.after := by
  rw [Call.report]
  split <;> rfl

/-- A task that was past the queue reports, or ends, or both. -/
theorem TaskFrame.of_passed {id : Nat} {ch : Channel} (hp : call.tasks[p]? = some stage)
    (hframe : Frame call call') (hafter : call'.after = call.after)
    (htasks : call'.tasks = call.tasks ∨ call'.tasks = (call.setTask p .ended).tasks)
    (hpassed : stage.passed = true ∨ ch.closed = true) : TaskFrame id p stage ch ch call call' := by
  refine ⟨hframe, hafter, rfl, fun q hq => ?_, Or.inl ⟨rfl, fun q hq => ?_⟩⟩
  · rcases htasks with htasks | htasks
    · rw [Passed, htasks]
      exact hq
    · rw [Passed, htasks]
      exact hq.setTask hp (Or.inl rfl)
  · rcases htasks with htasks | htasks
    · rw [Passed, htasks] at hq
      exact Or.inl hq
    · rw [Passed, htasks] at hq
      rcases passed_setTask hq with hq | ⟨rfl, -⟩
      · exact Or.inl hq
      · rcases hpassed with hpassed | hclosed
        · exact Or.inl ⟨stage, hp, hpassed⟩
        · exact Or.inr ⟨rfl, hclosed⟩

theorem taskFrame {id : Nat} {node : NodeHandle} {ch ch' : Channel} {a : CallAct T}
    (hp : call.tasks[p]? = some stage) (hmoves : TaskMoves env id call p node ch stage a call' ch') :
    TaskFrame id p stage ch ch' call call' := by
  have hend (result : Except Error T) (hpassed : stage.passed = true ∨ ch.closed = true) :
      TaskFrame id p stage ch ch call ((call.setTask p .ended).report p node result) :=
    .of_passed hp ((Frame.setTask .ended).trans (Frame.report node result))
      (by rw [after_report]; rfl) (Or.inr (tasks_report node result)) hpassed
  cases hmoves with
  | nextSeq =>
      refine ⟨Frame.setTask _, rfl, rfl, fun q hq => hq.setTask hp (Or.inr rfl),
        Or.inl ⟨rfl, fun q hq => ?_⟩⟩
      rcases passed_setTask hq with hq | ⟨-, hnot⟩
      · exact Or.inl hq
      · cases hnot
  | refuse hclosed => exact hend _ (Or.inr hclosed)
  | enqueue hopen =>
      refine ⟨Frame.setTask _, rfl, rfl, fun q hq => hq.setTask hp (Or.inr rfl), Or.inr
        ⟨rfl, hopen, ⟨_, rfl⟩, ⟨_, ListUpdate.getElem?_set_of_some hp, rfl⟩, fun q hq => ?_⟩⟩
      exact (passed_setTask hq).imp_right And.left
  | reply | ack => exact hend _ (Or.inl rfl)
  | update =>
      exact .of_passed hp (Frame.report node _) (after_report node _) (Or.inl (tasks_report node _))
        (Or.inl rfl)
  | finish => exact .of_passed hp (Frame.setTask _) rfl (Or.inr rfl) (Or.inl rfl)

theorem Invoked.not_passed {earlier : List Nat} {kind : CallKind} {method : String} {payload : Payload}
    {metadata : List (String × String)} {nodes : List NodeHandle}
    (h : Invoked earlier kind method payload metadata nodes call) {q : Nat} : ¬ call.Passed q := by
  rintro ⟨st, hst, hpassed⟩
  cases h with
  | idle => cases hst
  | started =>
      rw [List.getElem?_map, Option.map_eq_some_iff] at hst
      obtain ⟨node, -, rfl⟩ := hst
      cases hpassed

theorem Invoked.after {earlier : List Nat} {kind : CallKind} {method : String} {payload : Payload}
    {metadata : List (String × String)} {nodes : List NodeHandle}
    (h : Invoked earlier kind method payload metadata nodes call) : call.after ⊆ earlier := by
  cases h with
  | idle => exact List.nil_subset _
  | started => exact List.Subset.refl _

end Call

namespace State

/-- A message of call `c` has entered the queue of channel `x`. -/
def Logged (s : State T) (c x : Nat) : Prop := ∃ wire, (c, wire) ∈ (s.channels x).log

/-- The dispatch of call `c` is over. -/
def Over (s : State T) (c : Nat) : Prop := ∃ call, s.calls[c]? = some call ∧ call.dispatched = true

theorem over_of_mem {s : State T} {c : Nat} (h : c ∈ s.dispatched) : s.Over c := by
  rw [State.dispatched, List.mem_filter] at h
  cases hcall : s.calls[c]? with
  | none =>
      rw [hcall] at h
      cases h.2
  | some call =>
      rw [hcall] at h
      exact ⟨call, hcall, h.2⟩

theorem Over.append {s : State T} {c : Nat} (h : s.Over c) (call : Call T) :
    State.Over ⟨s.calls ++ [call], s.channels⟩ c := by
  obtain ⟨A, hA, hdispatched⟩ := h
  exact ⟨A, ListUpdate.getElem?_append_of_some hA _, hdispatched⟩

theorem Over.set {s : State T} {c d : Nat} (h : s.Over c) {call call' : Call T}
    (hcall : s.calls[d]? = some call) (hframe : Call.Frame call call') (channels : Nat → Channel) :
    State.Over ⟨s.calls.set d call', channels⟩ c := by
  obtain ⟨A, hA, hdispatched⟩ := h
  by_cases hcd : d = c
  · subst hcd
    rw [hcall] at hA
    cases hA
    exact ⟨call', ListUpdate.getElem?_set_of_some hcall, hframe.dispatched hdispatched⟩
  · exact ⟨A, by rw [List.getElem?_set, if_neg hcd]; exact hA, hdispatched⟩

theorem Logged.update {s : State T} {c x y : Nat} (h : s.Logged c x) {ch : Channel}
    {more : List (Nat × Message)} (hlog : ch.log = (s.channels y).log ++ more) (calls : List (Call T)) :
    State.Logged ⟨calls, Function.update s.channels y ch⟩ c x := by
  obtain ⟨wire, hwire⟩ := h
  by_cases hxy : x = y
  · subst hxy
    refine ⟨wire, ?_⟩
    show (c, wire) ∈ (Function.update s.channels x ch x).log
    rw [Function.update_self, hlog]
    exact List.mem_append_left _ hwire
  · refine ⟨wire, ?_⟩
    show (c, wire) ∈ (Function.update s.channels y ch x).log
    rw [Function.update_of_ne hxy]
    exact hwire

theorem logged_update_cases {s : State T} {c x y : Nat} {ch : Channel} {calls : List (Call T)}
    (h : State.Logged ⟨calls, Function.update s.channels y ch⟩ c x) :
    s.Logged c x ∨ (x = y ∧ ∃ wire, (c, wire) ∈ ch.log) := by
  obtain ⟨wire, hwire⟩ := h
  dsimp only at hwire
  by_cases hxy : x = y
  · subst hxy
    rw [Function.update_self] at hwire
    exact Or.inr ⟨rfl, wire, hwire⟩
  · rw [Function.update_of_ne hxy] at hwire
    exact Or.inl ⟨wire, hwire⟩

theorem closed_update {s : State T} {x y : Nat} {ch : Channel} (h : ch.closed = (s.channels y).closed) :
    (Function.update s.channels y ch x).closed = (s.channels x).closed := by
  by_cases hxy : x = y
  · subst hxy
    rw [Function.update_self, h]
  · rw [Function.update_of_ne hxy]

structure QueueInv (s : State T) : Prop where
  logged : ∀ (c : Nat) call (p : Nat) node, s.calls[c]? = some call → call.nodes[p]? = some node →
    call.Passed p → s.Logged c node.channel ∨ (s.channels node.channel).closed = true
  passed : ∀ c x, s.Logged c x → ∃ call p, s.calls[c]? = some call ∧ call.Passed p
  after : ∀ (b : Nat) call, s.calls[b]? = some call → ∀ c ∈ call.after, s.Over c

end State

open State

variable {s t : State T}

theorem State.QueueInv.call (h : s.QueueInv) {kind : CallKind} {method : String} {payload : Payload}
    {metadata : List (String × String)} {nodes : List NodeHandle} {new : Call T}
    (hinvoked : Call.Invoked s.dispatched kind method payload metadata nodes new) :
    State.QueueInv { s with calls := s.calls ++ [new] } := by
  refine ⟨fun c call p node hcall hnode hpassed => ?_, fun c x hlog => ?_, fun b call hcall c hc => ?_⟩
  · rcases ListUpdate.getElem?_append_cases hcall with hold | ⟨-, rfl⟩
    · exact h.logged c call p node hold hnode hpassed
    · exact absurd hpassed hinvoked.not_passed
  · obtain ⟨call, p, hcall, hpassed⟩ := h.passed c x hlog
    exact ⟨call, p, ListUpdate.getElem?_append_of_some hcall _, hpassed⟩
  · refine Over.append ?_ _
    rcases ListUpdate.getElem?_append_cases hcall with hold | ⟨-, rfl⟩
    · exact h.after b call hold c hc
    · exact over_of_mem (hinvoked.after hc)

/-- Some task of call `d` has tried to enqueue. -/
def State.SomePassed (s : State T) (d : Nat) : Prop := ∃ call p, s.calls[d]? = some call ∧ call.Passed p

theorem State.SomePassed.set {c d : Nat} (h : s.SomePassed d) {old new : Call T}
    (hold : s.calls[c]? = some old) (hkept : ∀ q, old.Passed q → new.Passed q)
    (channels : Nat → Channel) : State.SomePassed ⟨s.calls.set c new, channels⟩ d := by
  obtain ⟨call, p, hcall, hpassed⟩ := h
  by_cases hcd : c = d
  · subst hcd
    rw [hold] at hcall
    cases hcall
    exact ⟨new, p, ListUpdate.getElem?_set_of_some hold, hkept p hpassed⟩
  · exact ⟨call, p, by rw [List.getElem?_set, if_neg hcd]; exact hcall, hpassed⟩

theorem State.QueueInv.caller (hinv : s.Inv env) (h : s.QueueInv) {c : Nat} {old new : Call T}
    (hold : s.calls[c]? = some old) (hframe : Call.CallerFrame s.dispatched old new) :
    State.QueueInv { s with calls := s.calls.set c new } := by
  have hkept (q : Nat) (hpassed : old.Passed q) : new.Passed q := by
    rcases hframe.kept with hcreated | ⟨-, hkept⟩
    · obtain ⟨st, hst, -⟩ := hpassed
      rw [(hinv old (List.mem_of_getElem? hold)).idle (Or.inl hcreated)] at hst
      cases hst
    · exact hkept q hpassed
  refine ⟨fun d call p node hcall hnode hpassed => ?_, fun d x hlog => ?_, fun b call hcall d hd => ?_⟩
  · rcases ListUpdate.getElem?_set_cases hcall with ⟨rfl, rfl⟩ | ⟨-, hcall⟩
    · rw [hframe.nodes] at hnode
      exact h.logged d old p node hold hnode (hframe.passed p hpassed)
    · exact h.logged d call p node hcall hnode hpassed
  · exact State.SomePassed.set (h.passed d x hlog) hold hkept s.channels
  · refine Over.set ?_ hold hframe.toFrame _
    rcases ListUpdate.getElem?_set_cases hcall with ⟨rfl, rfl⟩ | ⟨-, hcall⟩
    · rcases hframe.after with hafter | hafter
      · exact h.after b old hold d (hafter ▸ hd)
      · exact over_of_mem (hafter ▸ hd)
    · exact h.after b call hcall d hd

/-- A task of call `c` goes past the queue of its node, or leaves the queue as it is. -/
theorem State.QueueInv.task (h : s.QueueInv) {c p : Nat} {stage : Stage} {target : NodeHandle}
    {ch : Channel} {old new : Call T} (hold : s.calls[c]? = some old)
    (htarget : old.nodes[p]? = some target)
    (hframe : Call.TaskFrame c p stage (s.channels target.channel) ch old new) :
    State.QueueInv ⟨s.calls.set c new, Function.update s.channels target.channel ch⟩ := by
  refine ⟨fun d call q node hcall hnode hpassed => ?_, fun d x hlog => ?_, fun b call hcall d hd => ?_⟩
  · obtain ⟨more, hmore⟩ := hframe.log
    rw [closed_update hframe.closed]
    have hstays (h' : s.Logged d node.channel ∨ (s.channels node.channel).closed = true) :=
      h'.imp_left fun hlog => hlog.update hmore (s.calls.set c new)
    rcases ListUpdate.getElem?_set_cases hcall with ⟨rfl, rfl⟩ | ⟨-, hcall⟩
    · rw [hframe.nodes] at hnode
      rcases hframe.effect with ⟨-, hback⟩ | ⟨-, -, ⟨wire, hwire⟩, -, hback⟩
      · rcases hback q hpassed with hpassed | ⟨rfl, hclosed⟩
        · exact hstays (h.logged d old q node hold hnode hpassed)
        · rw [htarget] at hnode
          cases hnode
          exact Or.inr hclosed
      · rcases hback q hpassed with hpassed | rfl
        · exact hstays (h.logged d old q node hold hnode hpassed)
        · rw [htarget] at hnode
          cases hnode
          refine Or.inl ⟨wire, ?_⟩
          show (d, wire) ∈ (Function.update s.channels target.channel ch target.channel).log
          rw [Function.update_self, hwire]
          exact List.mem_append_right _ (List.mem_singleton_self _)
    · exact hstays (h.logged d call q node hcall hnode hpassed)
  · have hsome (hd : s.SomePassed d) := hd.set hold hframe.kept (Function.update s.channels target.channel ch)
    rcases logged_update_cases hlog with hlog | ⟨rfl, wire, hwire⟩
    · exact hsome (h.passed d x hlog)
    · rcases hframe.effect with ⟨hsame, -⟩ | ⟨-, -, ⟨new, hnew⟩, hpassed, -⟩
      · rw [hsame] at hwire
        exact hsome (h.passed d _ ⟨wire, hwire⟩)
      · rw [hnew, List.mem_append, List.mem_singleton] at hwire
        rcases hwire with hwire | hwire
        · exact hsome (h.passed d _ ⟨wire, hwire⟩)
        · cases hwire
          exact ⟨_, p, ListUpdate.getElem?_set_of_some hold, hpassed⟩
  · refine Over.set ?_ hold hframe.toFrame _
    rcases ListUpdate.getElem?_set_cases hcall with ⟨rfl, rfl⟩ | ⟨-, hcall⟩
    · exact h.after b old hold d (hframe.after ▸ hd)
    · exact h.after b call hcall d hd

theorem State.QueueInv.closeChannel (h : s.QueueInv) (x : Nat) :
    State.QueueInv { s with
      channels := Function.update s.channels x { s.channels x with closed := true } } := by
  have hsame : { s.channels x with closed := true }.log = (s.channels x).log ++ [] :=
    (List.append_nil _).symm
  refine ⟨fun c call p node hcall hnode hpassed => ?_, fun c y hlog => ?_, h.after⟩
  · rcases h.logged c call p node hcall hnode hpassed with hlog | hclosed
    · exact Or.inl (hlog.update hsame s.calls)
    · refine Or.inr ?_
      dsimp only
      by_cases hx : node.channel = x
      · rw [hx, Function.update_self]
      · rw [Function.update_of_ne hx]
        exact hclosed
  · rcases logged_update_cases hlog with hold | ⟨rfl, wire, hwire⟩
    · exact h.passed c y hold
    · exact h.passed c y ⟨wire, hwire⟩

theorem queueInv_step {a : Act T} (hinv : s.Inv env) (h : s.QueueInv) (hstep : step env s a = some t) :
    t.QueueInv := by
  cases step_cases hstep with
  | call hsingle => exact h.call (Call.invoked ..)
  | caller hcall _ hcaller => exact h.caller hinv hcall (Call.callerFrame (Call.moves_of_callerStep hcaller))
  | task hcall _ hp hnode htask =>
      exact h.task hcall hnode (Call.taskFrame hp (Call.moves_of_taskStep htask))
  | closeChannel => exact h.closeChannel _

theorem queueInv_init : (init : State T).QueueInv := by
  refine ⟨fun c call p node hcall => ?_, fun c x hlog => ?_, fun b call hcall => ?_⟩
  · cases hcall
  · obtain ⟨wire, hwire⟩ := hlog
    cases hwire
  · cases hcall

end Quorums.Client
