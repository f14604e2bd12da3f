import Quorums.CallContext
import Quorums.CallDefined
import Quorums.CallQuorum

/-! Calls made with contexts. The token of its context decides over a call: every `select!` of a call looks
at the token first, so that a call whose context is cancelled gives nothing but `Cancelled`, however many
replies are there already; and a call is cancelled in no other case. -/

namespace Quorums.Client

variable {T : Type}

/-- A program with the calls it has made. `made` has the context of every call as it was then. -/
structure Scene (T : Type) where
  program : Program
  client : State T
  made : List CallContext

namespace Scene

def init : Scene T := ⟨Program.init, Client.init, []⟩

inductive Act (T : Type) where
  | program (a : Program.Act)
  | call (x : Nat) (kind : CallKind) (method : String) (payload : Payload)
  | on (c : Nat) (a : CallAct T)
  | closeChannel (x : Nat)

def Act.program? : Act T → Option Program.Act
  | .program a => some a
  | _ => none

/-- Every call sees its token. -/
def notify (s : Scene T) : Scene T :=
  { s with client := { s.client with
      calls := s.client.calls.zipWith
        (fun call ctx => { call with fired := s.program.tokens.cancelled ctx.cancel }) s.made } }

def step (env : Env T) (s : Scene T) : Act T → Option (Scene T)
  | .program a => (s.program.step a).map fun program => { s with program }.notify
  | .call x kind method payload =>
      s.program.contexts[x]?.bind fun ctx =>
        (Client.step env s.client (.call kind method payload ctx.metadata ctx.nodes ctx.interceptors)).map
          fun client => { s with client, made := s.made ++ [ctx] }.notify
  -- a token fires through the program alone
  | .on _ .fire => none
  | .on c a => (Client.step env s.client (.on c a)).map fun client => { s with client }
  | .closeChannel x => (Client.step env s.client (.closeChannel x)).map fun client => { s with client }

end Scene

/-! ### What a cancelled call can still do -/

namespace Call

variable {env : Env T} {call call' : Call T} {p : Nat} {node : NodeHandle}

/-- What the call has returned, if it has, is `Cancelled`; a call on a single node may also have found the
node closed. -/
def Quiet (call : Call T) : Prop :=
  ∀ t out, call.phase = .returned t out → out = .err .cancelled ∨ t = .reply ∧ out = .err .nodeClosed

/-- What the call is and whether its token has fired stay as they are. -/
structure Silenced (call : Call T) : Prop where
  fired : call.fired = true
  quiet : call.Quiet

theorem Silenced.caller (h : Silenced call) {earlier : List Nat} {a : CallAct T}
    (hmoves : CallerMoves env earlier call a call') : Silenced call' := by
  have hopen (hfired : call.fired = false) : False := by
    rw [h.fired] at hfired
    cases hfired
  cases hmoves with
  | sendNow | terminal | await => exact ⟨h.fired, fun _ _ hc => by cases hc⟩
  | sendAgain => exact h
  | leave _ _ _ hfired | take _ _ _ hfired | close _ _ hfired => exact (hopen hfired).elim
  | cancelReply | cancel =>
      refine ⟨h.fired, fun t out hout => Or.inl ?_⟩
      cases hout
      rfl
  | fire => exact ⟨rfl, h.quiet⟩

theorem fired_report (call : Call T) (p : Nat) (node : NodeHandle) (result : Except Error T) :
    (call.report p node result).fired = call.fired := by
  rw [report]
  split <;> rfl

/-- A result that a task reports reaches the caller's return value only in a call on a single node. -/
theorem Silenced.report (h : Silenced call) {result : Except Error T}
    (hreply : call.phase = .collecting .reply → result = .error .nodeClosed) :
    Silenced (call.report p node result) := by
  refine ⟨(fired_report ..).trans h.fired, fun t out hout => ?_⟩
  rw [Call.report] at hout
  split at hout
  · rename_i hphase
    cases hout
    rw [hreply hphase]
    exact Or.inr ⟨rfl, rfl⟩
  · exact h.quiet t out hout

theorem Silenced.task (h : Silenced call) {id : Nat} {ch ch' : Channel} {stage : Stage} {a : CallAct T}
    (hmoves : TaskMoves env id call p node ch stage a call' ch') : Silenced call' := by
  have hready {result : Except Error T} (hready : call.ready = true) (hphase : call.phase = .collecting .reply) :
      result = .error .nodeClosed := by
    rw [ready, hphase] at hready
    simp only [h.fired, Bool.not_true] at hready
    cases hready
  have hset (stage : Stage) : Silenced (call.setTask p stage) := ⟨h.fired, h.quiet⟩
  cases hmoves with
  | nextSeq | enqueue | finish => exact hset _
  | refuse => exact (hset .ended).report fun _ => rfl
  | reply hr | ack hr => exact (hset .ended).report (hready hr)
  | update hr => exact h.report (hready hr)

/-- A call that was just made has returned nothing. -/
theorem Invoked.fresh {earlier : List Nat} {kind : CallKind} {method : String} {payload : Payload}
    {metadata : List (String × String)} {nodes : List NodeHandle}
    (h : Invoked earlier kind method payload metadata nodes call) :
    call.fired = false ∧ ∀ t out, call.phase ≠ .returned t out := by
  cases h with
  | idle hphase =>
      refine ⟨rfl, fun t out hout => ?_⟩
      rcases hphase with hc | ⟨out', hc⟩ <;> rw [hc] at hout <;> cases hout
  | started => exact ⟨rfl, fun t out hout => by cases hout⟩

/-- A step of the caller or of a task, the token apart. -/
inductive Proceeds (env : Env T) (call call' : Call T) : Prop where
  | caller {earlier : List Nat} {a : CallAct T} (hfire : a ≠ .fire)
      (hmoves : CallerMoves env earlier call a call') : Proceeds env call call'
  | task {id p : Nat} {node : NodeHandle} {ch ch' : Channel} {stage : Stage} {a : CallAct T}
      (hmoves : TaskMoves env id call p node ch stage a call' ch') : Proceeds env call call'

theorem Proceeds.fired (h : Proceeds env call call') : call'.fired = call.fired := by
  cases h with
  | caller hfire hmoves =>
      cases hmoves with
      | fire => exact absurd rfl hfire
      | _ => rfl
  | task hmoves =>
      cases hmoves with
      | nextSeq | enqueue | finish => rfl
      | refuse | reply | update | ack => exact fired_report ..

theorem Proceeds.silenced (h : Proceeds env call call') (hsilenced : Silenced call) : Silenced call' := by
  cases h with
  | caller _ hmoves => exact hsilenced.caller hmoves
  | task hmoves => exact hsilenced.task hmoves

end Call

/-- A step of the client that is neither a call nor a token makes one call proceed at most. -/
theorem exists_proceeds {env : Env T} {s t : State T} {c : Nat} {a : CallAct T} (hfire : a ≠ .fire)
    (hstep : step env s (.on c a) = some t) : ∃ call call', s.calls[c]? = some call ∧
      Call.Proceeds env call call' ∧ t.calls = s.calls.set c call' := by
  cases step_cases hstep with
  | caller hcall _ hcaller => exact ⟨_, _, hcall, .caller hfire (Call.moves_of_callerStep hcaller), rfl⟩
  | task hcall _ hp hnode htask => exact ⟨_, _, hcall, .task (Call.moves_of_taskStep htask), rfl⟩

theorem fired_of_cancel {env : Env T} {s t : State T} {c : Nat} {call : Call T} (hcall : s.calls[c]? = some call)
    (hstep : step env s (.on c .cancel) = some t) : call.fired = true := by
  cases step_cases hstep with
  | caller hold _ hcaller =>
      obtain rfl := Option.some.inj (hold.symm.trans hcall)
      cases Call.moves_of_callerStep hcaller with
      | cancelReply _ hfired | cancel _ _ hfired => exact hfired
  | task _ htask => cases htask

namespace Scene

variable {env : Env T} {s t : Scene T} {a : Act T} {c : Nat}

/-! ### What a step can do -/

inductive Moves (env : Env T) (s : Scene T) : Act T → Scene T → Prop where
  | program {a : Program.Act} {program : Program} (hprogram : s.program.step a = some program) :
      Moves env s (.program a) { s with program }.notify
  | call {x : Nat} {kind : CallKind} {method : String} {payload : Payload} {ctx : CallContext}
      (hctx : s.program.contexts[x]? = some ctx) {client : State T} {new : Call T} (hfired : new.fired = false)
      (hreturned : ∀ t out, new.phase ≠ .returned t out) (hclient : client.calls = s.client.calls ++ [new]) :
      Moves env s (.call x kind method payload) { s with client, made := s.made ++ [ctx] }.notify
  | on {c : Nat} {a : CallAct T} {client : State T} {call call' : Call T} (hcall : s.client.calls[c]? = some call)
      (hproceeds : Call.Proceeds env call call') (hclient : client.calls = s.client.calls.set c call') :
      Moves env s (.on c a) { s with client }
  | closeChannel {x : Nat} {client : State T} (hclient : client.calls = s.client.calls) :
      Moves env s (.closeChannel x) { s with client }

theorem moves_of_step (h : step env s a = some t) : Moves env s a t := by
  cases a with
  | program a =>
      obtain ⟨program, hprogram, rfl⟩ := Option.map_eq_some_iff.mp h
      exact .program hprogram
  | call x kind method payload =>
      obtain ⟨ctx, hctx, hcall⟩ := Option.bind_eq_some_iff.mp h
      obtain ⟨client, hclient, rfl⟩ := Option.map_eq_some_iff.mp hcall
      cases step_cases hclient with
      | call hsingle =>
          obtain ⟨hfired, hreturned⟩ := (Call.invoked (T := T) s.client.dispatched kind method payload
            ctx.metadata ctx.nodes ctx.interceptors).fresh
          exact .call hctx hfired hreturned rfl
  | on c a =>
      by_cases hfire : a = .fire
      · rw [hfire] at h
        cases h
      · obtain ⟨client, hclient, rfl⟩ : ∃ client, Client.step env s.client (.on c a) = some client ∧
            { s with client } = t := by
          cases a with
          | fire => exact absurd rfl hfire
          | _ => exact Option.map_eq_some_iff.mp h
        obtain ⟨call, call', hcall, hproceeds, hcalls⟩ := exists_proceeds hfire hclient
        exact .on hcall hproceeds hcalls
  | closeChannel x =>
      rw [step] at h
      obtain ⟨client, hclient, rfl⟩ := Option.map_eq_some_iff.mp h
      cases step_cases hclient with
      | closeChannel => exact .closeChannel rfl

/-! ### Calls and their tokens -/

theorem getElem?_notify {new : Call T} : s.notify.client.calls[c]? = some new ↔
    ∃ call ctx, s.client.calls[c]? = some call ∧ s.made[c]? = some ctx ∧
      { call with fired := s.program.tokens.cancelled ctx.cancel } = new :=
  List.getElem?_zipWith_eq_some

/-- Every call knows its context, and whether that is cancelled. -/
structure Synced (past : List (Act T)) (s : Scene T) : Prop where
  kept : Program.Kept (past.filterMap Act.program?) s.program
  length : s.made.length = s.client.calls.length
  sound : ∀ ctx ∈ s.made, Program.Sound s.program ctx
  fired : ∀ (c : Nat) (call : Call T) (ctx : CallContext), s.client.calls[c]? = some call →
    s.made[c]? = some ctx → call.fired = s.program.tokens.cancelled ctx.cancel

theorem synced_init : Synced [] (init : Scene T) where
  kept := Program.kept_init
  length := rfl
  sound ctx h := (List.not_mem_nil h).elim
  fired c call ctx h := by cases h

/-- Once the calls see their tokens, nothing is left to ask of the calls. -/
theorem synced_notify {past : List (Act T)} (hkept : Program.Kept (past.filterMap Act.program?) s.program)
    (hlength : s.made.length = s.client.calls.length) (hsound : ∀ ctx ∈ s.made, Program.Sound s.program ctx) :
    Synced past s.notify where
  kept := hkept
  length := by
    show s.made.length = (List.zipWith _ s.client.calls s.made).length
    rw [List.length_zipWith, hlength, Nat.min_self]
  sound := hsound
  fired c call ctx hcall hctx := by
    obtain ⟨old, ctx', -, hctx', rfl⟩ := getElem?_notify.mp hcall
    obtain rfl : ctx' = ctx := Option.some.inj (hctx'.symm.trans hctx)
    rfl

theorem synced_step {past : List (Act T)} (h : Synced past s) (hstep : step env s a = some t) :
    Synced (past ++ [a]) t := by
  have hsame (ha : a.program? = none) : (past ++ [a]).filterMap Act.program? = past.filterMap Act.program? := by
    rw [List.filterMap_append, List.filterMap_cons, ha]
    exact List.append_nil _
  cases moves_of_step hstep with
  | @program a program hprogram =>
      have hpast : (past ++ [Act.program a]).filterMap Act.program? = past.filterMap Act.program? ++ [a] := by
        rw [List.filterMap_append]
        rfl
      refine synced_notify ?_ h.length fun ctx hctx => ?_
      · rw [hpast]
        exact h.kept.step hprogram
      · exact (h.sound ctx hctx).later h.kept.ledger (Program.later_step hprogram)
  | call hctx _ _ hclient =>
      refine synced_notify ?_ ?_ fun ctx hmem => ?_
      · rw [hsame rfl]
        exact h.kept
      · show (s.made ++ [_]).length = _
        rw [hclient, List.length_append, List.length_append, h.length]
        rfl
      · rcases List.mem_append.mp hmem with hold | hnew
        · exact h.sound ctx hold
        · rw [List.mem_singleton.mp hnew]
          exact h.kept.sound _ (List.mem_of_getElem? hctx)
  | @on d _ client call call' hcall hproceeds hclient =>
      refine ⟨?_, ?_, h.sound, fun c new ctx hnew hctx => ?_⟩
      · rw [hsame rfl]
        exact h.kept
      · rw [hclient, List.length_set]
        exact h.length
      · rw [hclient] at hnew
        obtain ⟨old, hold, hfired⟩ := ListUpdate.exists_getElem?_of_set (f := Call.fired) hcall hproceeds.fired hnew
        rw [hfired]
        exact h.fired c old ctx hold hctx
  | closeChannel hclient =>
      refine ⟨?_, ?_, h.sound, ?_⟩
      · rw [hsame rfl]
        exact h.kept
      · rw [hclient]
        exact h.length
      · rw [hclient]
        exact h.fired

theorem synced_run {acts : List (Act T)} (hrun : Transition.run (step env) init acts = some s) : Synced acts s :=
  Transition.run_invariant_history (fun _ _ _ _ h hstep => synced_step h hstep) synced_init hrun

/-- The token of a call has fired if its context is cut, and in no other case. -/
theorem Synced.fired_iff {past : List (Act T)} (h : Synced past s) {call : Call T} {ctx : CallContext}
    (hcall : s.client.calls[c]? = some call) (hctx : s.made[c]? = some ctx) :
    call.fired = true ↔ Program.CutBy s.program (past.filterMap Act.program?) ctx.built := by
  rw [h.fired c call ctx hcall hctx]
  exact (h.sound ctx (List.mem_of_getElem? hctx)).chain.cancelled_iff h.kept.ledger

/-- Call `c` has context `ctx`, its token has fired, and it is silenced. -/
structure SilencedAt (c : Nat) (ctx : CallContext) (past : List (Act T)) (s : Scene T) : Prop where
  synced : Synced past s
  made : s.made[c]? = some ctx
  call : ∃ call, s.client.calls[c]? = some call ∧ call.Silenced

theorem silencedAt_step {past : List (Act T)} {ctx : CallContext} (h : SilencedAt c ctx past s)
    (hstep : step env s a = some t) : SilencedAt c ctx (past ++ [a]) t := by
  have hsynced := synced_step h.synced hstep
  obtain ⟨call, hcall, hsilenced⟩ := h.call
  cases moves_of_step hstep with
  | @program a program hprogram =>
      refine ⟨hsynced, h.made, _, getElem?_notify.mpr ⟨call, ctx, hcall, h.made, rfl⟩, ?_, hsilenced.quiet⟩
      -- what has cancelled the context goes on to cancel it
      have hsound := h.synced.sound ctx (List.mem_of_getElem? h.made)
      have hcut := (h.synced.fired_iff hcall h.made).mp hsilenced.fired
      have hlater := Program.later_step hprogram
      have hpast := List.subset_append_left (past.filterMap Act.program?) [a]
      exact ((hsound.chain.later h.synced.kept.ledger hlater).cancelled_iff
        (Program.ledger_step h.synced.kept.ledger hprogram)).mpr
          (hsound.chain.cutBy_later h.synced.kept.ledger hlater hpast hcut)
  | @call x kind method payload ctx' hctx' client new hfired hreturned hclient =>
      have hcall' : client.calls[c]? = some call := by
        rw [hclient]
        exact ListUpdate.getElem?_append_of_some hcall _
      have hmade : (s.made ++ [ctx'])[c]? = some ctx := ListUpdate.getElem?_append_of_some h.made _
      refine ⟨hsynced, hmade, _, getElem?_notify.mpr ⟨call, ctx, hcall', hmade, rfl⟩, ?_, hsilenced.quiet⟩
      show s.program.tokens.cancelled ctx.cancel = true
      rw [← h.synced.fired c call ctx hcall h.made]
      exact hsilenced.fired
  | @on d _ client old new hold hproceeds hclient =>
      refine ⟨hsynced, h.made, ?_⟩
      show ∃ call, client.calls[c]? = some call ∧ call.Silenced
      rw [hclient]
      by_cases hdc : d = c
      · subst hdc
        obtain rfl : old = call := Option.some.inj (hold.symm.trans hcall)
        exact ⟨new, ListUpdate.getElem?_set_of_some hold, hproceeds.silenced hsilenced⟩
      · exact ⟨call, (List.getElem?_set_ne hdc).trans hcall, hsilenced⟩
  | @closeChannel x client hclient =>
      refine ⟨hsynced, h.made, call, ?_, hsilenced⟩
      show client.calls[c]? = some call
      rw [hclient]
      exact hcall

theorem silencedAt_run {past later : List (Act T)} {ctx : CallContext} (h : SilencedAt c ctx past s)
    (hrun : Transition.run (step env) s later = some t) : ∃ past', SilencedAt c ctx past' t :=
  Transition.run_invariant (P := fun s => ∃ past, SilencedAt c ctx past s)
    (fun _ _ _ ⟨past, h⟩ hstep => ⟨past ++ [_], silencedAt_step h hstep⟩) ⟨past, h⟩ hrun

/-- Call `c` waits in the loop of `t`, or for the one reply it is to have. -/
def Waiting (s : Scene T) (c : Nat) (t : Terminal T) : Prop :=
  ∃ call, s.client.calls[c]? = some call ∧ call.phase = .collecting t ∧ (t = .reply → call.tasks = [.waiting])

/-- A call that waits and is silenced can only return `Cancelled`, and can do so. -/
theorem SilencedAt.exists_cancel {past : List (Act T)} {ctx : CallContext} (h : SilencedAt c ctx past s)
    {w : Terminal T} (hwaiting : s.Waiting c w) : ∃ t, step env s (.on c .cancel) = some t ∧
      ∃ call, t.client.calls[c]? = some call ∧ call.phase = .returned w (.err .cancelled) := by
  obtain ⟨call, hcall, hsilenced⟩ := h.call
  obtain ⟨call', hcall', hphase, htasks⟩ := hwaiting
  obtain rfl : call = call' := Option.some.inj (hcall.symm.trans hcall')
  have hcaller (new : Call T) (hstep : call.callerStep env s.client.dispatched .cancel = some new) :
      ∃ t, step env s (.on c .cancel) = some t ∧ t.client.calls[c]? = some new := by
    refine ⟨{ s with client := { s.client with calls := s.client.calls.set c new } }, ?_,
      ListUpdate.getElem?_set_of_some hcall⟩
    show (Client.step env s.client (.on c .cancel)).map _ = _
    rw [step_of_callerStep hcall rfl hstep]
    rfl
  by_cases hw : w = .reply
  · subst hw
    obtain ⟨t, ht, hnew⟩ := hcaller { call with phase := .returned .reply (.err .cancelled), tasks := [.ended] }
      (by rw [Call.callerStep, hphase, htasks rfl]; simp only [hsilenced.fired]; rfl)
    exact ⟨t, ht, _, hnew, rfl⟩
  · obtain ⟨t, ht, hnew⟩ := hcaller { call with phase := .returned w (.err .cancelled) }
      (by
        rw [Call.callerStep, hphase]
        cases w with
        | reply => exact absurd rfl hw
        | _ => exact if_pos hsilenced.fired)
    exact ⟨t, ht, _, hnew, rfl⟩

/-- In every run, a call is cancelled only if its context is: by the token of its last `with_cancel`, or by a
timeout that was set after that. Once the context is cancelled, a call that has not returned yet comes to
nothing but `Cancelled`, in every continuation and whatever replies have arrived or are still to come: it
returns nothing else, and whenever it waits it can return that. The exception is a call on a single node,
which looks at the token only after it has found the node open. -/
theorem cancelled_call {acts : List (Act T)} (hrun : Transition.run (step env) init acts = some s) {call : Call T}
    {ctx : CallContext} (hcall : s.client.calls[c]? = some call) (hctx : s.made[c]? = some ctx) :
    ((step env s (.on c .cancel)).isSome = true →
      Program.CutBy s.program (acts.filterMap Act.program?) ctx.built) ∧
    (Program.CutBy s.program (acts.filterMap Act.program?) ctx.built → (∀ w out, call.phase ≠ .returned w out) →
      ∀ later t, Transition.run (step env) s later = some t →
        (∃ call', t.client.calls[c]? = some call' ∧ call'.Quiet) ∧
        ∀ w, t.Waiting c w → ∃ u, step env t (.on c .cancel) = some u ∧
          ∃ call', u.client.calls[c]? = some call' ∧ call'.phase = .returned w (.err .cancelled)) := by
  have hsynced := synced_run hrun
  constructor
  · intro hsome
    refine (hsynced.fired_iff hcall hctx).mp ?_
    obtain ⟨t, hstep⟩ := Option.isSome_iff_exists.mp hsome
    obtain ⟨client, hclient, -⟩ := Option.map_eq_some_iff.mp (show (Client.step env s.client (.on c .cancel)).map _ =
      some t from hstep)
    exact fired_of_cancel hcall hclient
  · intro hcut hopen later t hlater
    have hsilenced : SilencedAt c ctx acts s :=
      ⟨hsynced, hctx, call, hcall, (hsynced.fired_iff hcall hctx).mpr hcut, fun w out hout => absurd hout (hopen w out)⟩
    obtain ⟨past, hthen⟩ := silencedAt_run hsilenced hlater
    refine ⟨?_, fun w hwaiting => hthen.exists_cancel hwaiting⟩
    obtain ⟨call', hcall', hend⟩ := hthen.call
    exact ⟨call', hcall', hend.quiet⟩

/-- A context is built with a child of a token of the program's; a quorum call is made with it, and then the
token above is cancelled. -/
def cancelledAbove : List (Act Bool) :=
  [.program .newToken, .program (.childToken 0), .program (.context [⟨1, 0⟩, ⟨2, 1⟩]), .program (.withCancel 0 1),
    .call 0 .quorumCall "/s/M" [], .program (.cancelToken 0)]

/-- The reply of the first node is in the channel before the caller looks, and would do. -/
def repliedFirst : List (Act Bool) :=
  [.on 0 (.terminal .first), .on 0 (.nextSeq 0), .on 0 (.enqueue 0),
    .on 0 (.reply 0 (some (.ok (Node.buildWireMessage 1 "/s/M" [8, 1] []))))]

theorem cancelled_call_repliedFirst : ∃ s t u, Transition.run (step boolEnv) init cancelledAbove = some s ∧
    Transition.run (step boolEnv) s repliedFirst = some t ∧
    (∃ call, t.client.calls[0]? = some call ∧ call.results.length = 1) ∧ step boolEnv t (.on 0 .cancel) = some u ∧
    ∃ call, u.client.calls[0]? = some call ∧ call.phase = .returned .first (.err .cancelled) := by
  obtain ⟨s, hs, call, ctx, hcall, hctx, hphase, hcut⟩ : ∃ s : Scene Bool,
      Transition.run (step boolEnv) init cancelledAbove = some s ∧ ∃ call ctx, s.client.calls[0]? = some call ∧
        s.made[0]? = some ctx ∧ call.phase = .created ∧ ctx.built = [.withCancel 1] ∧
          s.program.tokens.lineage 1 = [1, 0] := ⟨_, rfl, _, _, rfl, rfl, rfl, rfl, rfl⟩
  obtain ⟨t, ht, call', hcall', hlength, hcollects⟩ : ∃ t : Scene Bool,
      (Transition.run (step boolEnv) init cancelledAbove).bind
        (fun s => Transition.run (step boolEnv) s repliedFirst) = some t ∧
      ∃ call, t.client.calls[0]? = some call ∧ call.results.length = 1 ∧ call.phase = .collecting .first :=
    ⟨_, rfl, _, rfl, rfl, rfl⟩
  rw [hs, Option.bind_some] at ht
  have hcutBy : Program.CutBy s.program (cancelledAbove.filterMap Act.program?) ctx.built := by
    rw [hcut.1]
    exact ⟨0, by rw [hcut.2]; simp, by simp [cancelledAbove, Act.program?]⟩
  have hopen (w : Terminal Bool) (out : Outcome Bool) : call.phase ≠ .returned w out := by
    rw [hphase]
    rintro ⟨⟩
  obtain ⟨-, hcancel⟩ := (cancelled_call hs hcall hctx).2 hcutBy hopen repliedFirst t ht
  obtain ⟨u, hu, hreturned⟩ := hcancel .first ⟨call', hcall', hcollects, by rintro ⟨⟩⟩
  exact ⟨s, t, u, hs, ht, ⟨call', hcall', hlength⟩, hu, hreturned⟩

end Scene

end Quorums.Client
