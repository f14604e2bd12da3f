import Quorums.BaseRun
import Quorums.HandleLoops
import Quorums.NodeSystem

/-! The calls of a client (`call_types.rs`) on any nodes, with the tasks they spawn. A call runs its
interceptors and is then dispatched: `rpc_call` and `unicast` write to the send queue themselves,
`multicast` spawns a task per node, and the other three return a handle whose fan-out is started by
`send_now` or by a terminal method. Each task takes a sequence number and enqueues in steps of its own,
between which every other task of the client may run. What comes back from a node is arbitrary. -/

namespace Quorums.Client

inductive CallKind where
  | rpcCall
  | unicast
  | multicast
  | quorumCall
  | orderedQuorumCall
  | correctableCall
  deriving DecidableEq, Repr

namespace CallKind

/-- The calls on a `NodeContext`. -/
def single : CallKind → Bool
  | .rpcCall | .unicast => true
  | _ => false

/-- The calls whose results go through `mpsc::channel(n)`, which panics for `n = 0`. -/
def bounded : CallKind → Bool
  | .multicast | .quorumCall | .orderedQuorumCall => true
  | _ => false

end CallKind

/-- A handle of a node. Handles of one node share its channel. -/
structure NodeHandle where
  id : UInt32
  channel : Nat
  deriving DecidableEq, Repr

/-- A node's channel as its users see it: the counter, everything that entered the send queue so far
with the call it belongs to, and whether `run_node` is gone. -/
structure Channel where
  seq : Nat
  log : List (Nat × Message)
  closed : Bool

/-- `CallInfo`. -/
structure CallInfo where
  method : String
  nodeIds : List UInt32
  metadata : List (String × String)

/-- `interceptor::run`. -/
def runInterceptors (info : CallInfo) : List (CallInfo → Except Error Unit) → Except Error Unit
  | [] => .ok ()
  | i :: chain =>
      match i info with
      | .error e => .error e
      | .ok () => runInterceptors info chain

/-- How far a per-node task has come. -/
inductive Stage where
  | spawned
  | numbered (seq : Nat)
  | waiting
  | ended
  deriving DecidableEq, Repr

/-- It has tried to enqueue. -/
def Stage.passed : Stage → Bool
  | .waiting | .ended => true
  | _ => false

/-- What the caller waits with: the end of `rpc_call` and `unicast`, the loop of `multicast`, or a
terminal method of a handle. -/
inductive Terminal (T : Type) where
  | reply
  | acks
  | threshold (k : Nat)
  | quorum (f : List T → Option T)
  | orderedQuorum (f : List (List (Option T)) → Option T)

namespace Terminal

variable {T : Type}

def first : Terminal T := .threshold 1

def majority (size : Nat) : Terminal T := .threshold (size / 2 + 1)

def all (size : Nat) : Terminal T := .threshold size

/-- The terminal methods a handle has; `k` is a `usize`. -/
def fits (kind : CallKind) : Terminal T → Bool
  | .reply | .acks => false
  | .threshold k =>
      (kind = .quorumCall ∨ kind = .orderedQuorumCall ∨ kind = .correctableCall) ∧ k < 2 ^ 64
  | .quorum _ => kind = .quorumCall ∨ kind = .correctableCall
  | .orderedQuorum _ => kind = .orderedQuorumCall

end Terminal

inductive Phase (T : Type) where
  -- an interceptor refused the call, or it panicked
  | rejected (out : Outcome T)
  -- the handle is there, the fan-out is not started
  | created
  -- `send_now` was called
  | launched
  | collecting (t : Terminal T)
  | returned (t : Terminal T) (out : Outcome T)

/-- A call. `results` is the channel from its tasks, `taken` what its loop has read from it. `after`
records the calls whose dispatch was over when the dispatch of this one began. -/
structure Call (T : Type) where
  kind : CallKind
  method : String
  payload : Payload
  metadata : List (String × String)
  nodes : List NodeHandle
  tasks : List Stage
  results : List (OrderedNodeResponse T)
  taken : List (OrderedNodeResponse T)
  fired : Bool
  phase : Phase T
  sentNow : Bool
  after : List Nat

inductive CallAct (T : Type) where
  -- the caller
  | sendNow
  | terminal (t : Terminal T)
  | take
  | close
  | cancel
  -- the task of the node at position `p`
  | nextSeq (p : Nat)
  | enqueue (p : Nat)
  | reply (p : Nat) (r : Option Reply)
  | ack (p : Nat) (r : Option (Except Error Unit))
  | finish (p : Nat)
  -- the token of the context
  | fire

/-- How responses are decoded, the value of type `()`, and whether the build checks for overflow. `T`
holds the response types of all methods. -/
structure Env (T : Type) where
  decode : String → Payload → Except String T
  unit : T
  checked : Bool

variable {T : Type}

/-- The loop a call is in. -/
def Env.loop (env : Env T) (kind : CallKind) (size : Nat) :
    Terminal T → Σ σ : Type, ReceiveLoop σ (OrderedNodeResponse T) (Outcome T)
  | .threshold k =>
      match kind with
      | .orderedQuorumCall => ⟨_, OrderedResponses.threshold size k⟩
      | .correctableCall =>
          ⟨_, (Correctable.threshold env.checked size k).comap fun r => ⟨r.nodeId, r.result⟩⟩
      | _ => ⟨_, (Responses.threshold k).comap fun r => ⟨r.nodeId, r.result⟩⟩
  | .quorum f =>
      match kind with
      | .correctableCall => ⟨_, (Correctable.quorum f).comap fun r => ⟨r.nodeId, r.result⟩⟩
      | _ => ⟨_, (Responses.quorum f).comap fun r => ⟨r.nodeId, r.result⟩⟩
  | .orderedQuorum f => ⟨_, OrderedResponses.quorum size f⟩
  | .reply | .acks => ⟨_, (multicastLoop env.unit).comap fun r => (r.nodeId, r.result)⟩

/-- A response of a two-way call as the task reports it; `none` is a sender that was dropped. -/
def Env.twoWayResult (env : Env T) (method : String) : Option Reply → Except Error T
  | none => .error .nodeClosed
  | some (.error e) => .error e
  | some (.ok wire) =>
      match env.decode method wire.payload with
      | .error text => .error (.codec text)
      | .ok val => .ok val

/-- The acknowledgement of a one-way call. -/
def Env.ackResult (env : Env T) : Option (Except Error Unit) → Except Error T
  | none => .error .nodeClosed
  | some (.error e) => .error e
  | some (.ok ()) => .ok env.unit

namespace Call

def size (call : Call T) : Nat := call.nodes.length

/-- The dispatch is over: a one-way call or an `rpc_call` has returned `Ok`, a handle was sent off by
`send_now` or its terminal method has returned. -/
def dispatched (call : Call T) : Bool :=
  call.sentNow ||
    match call.phase with
    | .returned .reply (.returned r) => r.isOk
    | .returned .acks (.returned r) => r.isOk
    | .returned _ (.returned _) => true
    | _ => false

/-- A call up to its dispatch or to the handle it returns. -/
def invoke (earlier : List Nat) (kind : CallKind) (method : String) (payload : Payload)
    (metadata : List (String × String)) (nodes : List NodeHandle)
    (chain : List (CallInfo → Except Error Unit)) : Call T :=
  let call : Call T := ⟨kind, method, payload, metadata, nodes, [], [], [], false, .created, false, []⟩
  match runInterceptors ⟨method, nodes.map NodeHandle.id, metadata⟩ chain with
  | .error e => { call with phase := .rejected (.err e) }
  | .ok () =>
      if kind.bounded ∧ nodes = [] then { call with phase := .rejected .panicked }
      else
        match kind with
        | .rpcCall | .unicast =>
            { call with phase := .collecting .reply, tasks := nodes.map fun _ => .spawned, after := earlier }
        | .multicast =>
            { call with phase := .collecting .acks, tasks := nodes.map fun _ => .spawned, after := earlier }
        | _ => call

/-- The `launch` closure. -/
def launch (call : Call T) (earlier : List Nat) : Call T :=
  { call with tasks := call.nodes.map fun _ => .spawned, after := earlier }

/-- A task has a result: the caller itself returns it, a spawned task sends it to the caller. -/
def report (call : Call T) (p : Nat) (node : NodeHandle) (result : Except Error T) : Call T :=
  match call.phase with
  | .collecting .reply => { call with phase := .returned .reply (.returned result) }
  | _ => { call with results := call.results ++ [⟨p, node.id, result⟩] }

def setTask (call : Call T) (p : Nat) (stage : Stage) : Call T :=
  { call with tasks := call.tasks.set p stage }

/-- The loops look at the token before they look at the channel; so does the end of `rpc_call` and
`unicast`. -/
def ready (call : Call T) : Bool :=
  match call.phase with
  | .collecting .reply => !call.fired
  | _ => true

/-- The steps of the caller. -/
def callerStep (env : Env T) (earlier : List Nat) (call : Call T) : CallAct T → Option (Call T)
  | .sendNow =>
      match call.phase with
      | .created => some { call.launch earlier with phase := .launched, sentNow := true }
      | .launched => some call
      | _ => none
  | .terminal t =>
      if t.fits call.kind then
        match call.phase with
        | .created => some { call.launch earlier with phase := .collecting t }
        | .launched => some { call with phase := .collecting t }
        | _ => none
      else none
  | .take =>
      match call.phase, call.results with
      | .collecting .reply, _ => none
      | .collecting t, r :: rest =>
          if call.fired then none
          else
            let taken := call.taken ++ [r]
            match (env.loop call.kind call.size t).2.exit? taken with
            | some out => some { call with results := rest, taken, phase := .returned t out }
            | none => some { call with results := rest, taken }
      | _, _ => none
  | .close =>
      match call.phase with
      | .collecting .reply => none
      | .collecting t =>
          -- every sender is gone and nothing is left in the channel
          if call.fired = false ∧ call.results = [] ∧ ∀ stage ∈ call.tasks, stage = .ended then
            some { call with
              phase := .returned t ((env.loop call.kind call.size t).2.result call.taken) }
          else none
      | _ => none
  | .cancel =>
      match call.phase with
      | .collecting .reply =>
          if call.fired ∧ call.tasks = [.waiting] then
            some { call with phase := .returned .reply (.err .cancelled), tasks := [.ended] }
          else none
      | .collecting t =>
          if call.fired then some { call with phase := .returned t (.err .cancelled) } else none
      | _ => none
  | .fire => some { call with fired := true }
  | _ => none

/-- The steps of the task at position `p`, with what it makes of its node's channel. -/
def taskStep (env : Env T) (id : Nat) (call : Call T) (p : Nat) (stage : Stage) (node : NodeHandle)
    (ch : Channel) : CallAct T → Option (Call T × Channel)
  | .nextSeq _ =>
      match stage with
      | .spawned =>
          let seq := Node.nextSeq ch.seq
          some (call.setTask p (.numbered seq), { ch with seq })
      | _ => none
  | .enqueue _ =>
      match stage with
      | .numbered seq =>
          if ch.closed then some ((call.setTask p .ended).report p node (.error .nodeClosed), ch)
          else
            let wire := Node.buildWireMessage seq call.method call.payload call.metadata
            some (call.setTask p .waiting, { ch with log := ch.log ++ [(id, wire)] })
      | _ => none
  | .reply _ r =>
      if stage = .waiting ∧ call.ready then
        match call.kind with
        | .rpcCall | .quorumCall | .orderedQuorumCall =>
            some ((call.setTask p .ended).report p node (env.twoWayResult call.method r), ch)
        | .correctableCall =>
            -- a closed stream ends the task, see `finish`
            if r.isSome then some (call.report p node (env.twoWayResult call.method r), ch) else none
        | _ => none
      else none
  | .ack _ r =>
      if stage = .waiting ∧ call.ready ∧ (call.kind = .unicast ∨ call.kind = .multicast) then
        some ((call.setTask p .ended).report p node (env.ackResult r), ch)
      else none
  | .finish _ =>
      if stage = .waiting ∧ call.kind = .correctableCall then some (call.setTask p .ended, ch) else none
  | _ => none

end Call

/-- The task an action belongs to. -/
def CallAct.task? : CallAct T → Option Nat
  | .nextSeq p | .enqueue p | .reply p _ | .ack p _ | .finish p => some p
  | _ => none

structure State (T : Type) where
  calls : List (Call T)
  channels : Nat → Channel

def init : State T := ⟨[], fun _ => ⟨0, [], false⟩⟩

inductive Act (T : Type) where
  | call (kind : CallKind) (method : String) (payload : Payload) (metadata : List (String × String))
      (nodes : List NodeHandle) (chain : List (CallInfo → Except Error Unit))
  | on (c : Nat) (a : CallAct T)
  | closeChannel (x : Nat)

namespace State

/-- The calls whose dispatch is over. -/
def dispatched (s : State T) : List Nat :=
  (List.range s.calls.length).filter fun c => (s.calls[c]?.map Call.dispatched).getD false

/-- A step of call `c`: of its caller, or of one of its tasks. -/
def callStep (env : Env T) (s : State T) (c : Nat) (call : Call T) (a : CallAct T) : Option (State T) :=
  match a.task? with
  | none => (call.callerStep env s.dispatched a).map fun call' => { s with calls := s.calls.set c call' }
  | some p =>
      match call.tasks[p]?, call.nodes[p]? with
      | some stage, some node =>
          (call.taskStep env c p stage node (s.channels node.channel) a).map fun r =>
            ⟨s.calls.set c r.1, Function.update s.channels node.channel r.2⟩
      | _, _ => none

end State

def step (env : Env T) (s : State T) : Act T → Option (State T)
  | .call kind method payload metadata nodes chain =>
      -- a `NodeContext` has one node
      if kind.single → nodes.length = 1 then
        some { s with calls := s.calls ++ [Call.invoke s.dispatched kind method payload metadata nodes chain] }
      else none
  | .on c a => s.calls[c]?.bind fun call => s.callStep env c call a
  | .closeChannel x =>
      some { s with channels := Function.update s.channels x { s.channels x with closed := true } }

/-! ### What a step of a call can do

`CallerMoves` and `TaskMoves` say once what an enabled action of the caller and of a task requires and
what it leaves; the invariants of a call are proved by cases on them. -/

namespace Call

inductive CallerMoves (env : Env T) (earlier : List Nat) (call : Call T) : CallAct T → Call T → Prop where
  | sendNow (hphase : call.phase = .created) :
      CallerMoves env earlier call .sendNow
        { call.launch earlier with phase := .launched, sentNow := true }
  | sendAgain (hphase : call.phase = .launched) : CallerMoves env earlier call .sendNow call
  | terminal {t : Terminal T} (hfits : t.fits call.kind = true) (hphase : call.phase = .created) :
      CallerMoves env earlier call (.terminal t) { call.launch earlier with phase := .collecting t }
  | await {t : Terminal T} (hfits : t.fits call.kind = true) (hphase : call.phase = .launched) :
      CallerMoves env earlier call (.terminal t) { call with phase := .collecting t }
  | leave {t : Terminal T} {r : OrderedNodeResponse T} {rest : List (OrderedNodeResponse T)}
      {out : Outcome T} (hphase : call.phase = .collecting t) (hreply : t ≠ .reply)
      (hresults : call.results = r :: rest) (hfired : call.fired = false)
      (hexit : (env.loop call.kind call.size t).2.exit? (call.taken ++ [r]) = some out) :
      CallerMoves env earlier call .take
        { call with results := rest, taken := call.taken ++ [r], phase := .returned t out }
  | take {t : Terminal T} {r : OrderedNodeResponse T} {rest : List (OrderedNodeResponse T)}
      (hphase : call.phase = .collecting t) (hreply : t ≠ .reply) (hresults : call.results = r :: rest)
      (hfired : call.fired = false)
      (hexit : (env.loop call.kind call.size t).2.exit? (call.taken ++ [r]) = none) :
      CallerMoves env earlier call .take { call with results := rest, taken := call.taken ++ [r] }
  | close {t : Terminal T} (hphase : call.phase = .collecting t) (hreply : t ≠ .reply)
      (hfired : call.fired = false) (hresults : call.results = [])
      (hended : ∀ stage ∈ call.tasks, stage = .ended) :
      CallerMoves env earlier call .close
        { call with phase := .returned t ((env.loop call.kind call.size t).2.result call.taken) }
  | cancelReply (hphase : call.phase = .collecting .reply) (hfired : call.fired = true)
      (htasks : call.tasks = [.waiting]) :
      CallerMoves env earlier call .cancel
        { call with phase := .returned .reply (.err .cancelled), tasks := [.ended] }
  | cancel {t : Terminal T} (hphase : call.phase = .collecting t) (hreply : t ≠ .reply)
      (hfired : call.fired = true) :
      CallerMoves env earlier call .cancel { call with phase := .returned t (.err .cancelled) }
  | fire : CallerMoves env earlier call .fire { call with fired := true }

theorem moves_of_callerStep {env : Env T} {earlier : List Nat} {call call' : Call T} {a : CallAct T}
    (h : call.callerStep env earlier a = some call') : CallerMoves env earlier call a call' := by
  cases a with
  | sendNow =>
      simp only [callerStep] at h
      split at h
      · rename_i hphase
        cases h
        exact .sendNow hphase
      · rename_i hphase
        cases h
        exact .sendAgain hphase
      · cases h
  | terminal t =>
      simp only [callerStep] at h
      split at h
      · rename_i hfits
        split at h
        · rename_i hphase
          cases h
          exact .terminal hfits hphase
        · rename_i hphase
          cases h
          exact .await hfits hphase
        · cases h
      · cases h
  | take =>
      simp only [callerStep] at h
      split at h
      · cases h
      · rename_i hreply hphase hresults
        split at h
        · cases h
        · rename_i hfired
          have hfired : call.fired = false := by simpa using hfired
          split at h
          · rename_i hexit
            cases h
            exact .leave hphase hreply hresults hfired hexit
          · rename_i hexit
            cases h
            exact .take hphase hreply hresults hfired hexit
      · cases h
  | close =>
      simp only [callerStep] at h
      split at h
      · cases h
      · rename_i hreply hphase
        split at h
        · rename_i hclosed
          cases h
          exact .close hphase hreply hclosed.1 hclosed.2.1 hclosed.2.2
        · cases h
      · cases h
  | cancel =>
      simp only [callerStep] at h
      split at h
      · rename_i hphase
        split at h
        · rename_i hfired
          cases h
          exact .cancelReply hphase hfired.1 hfired.2
        · cases h
      · rename_i hreply hphase
        split at h
        · rename_i hfired
          cases h
          exact .cancel hphase hreply hfired
        · cases h
      · cases h
  | fire =>
      cases h
      exact .fire
  | _ => cases h

/-- The stage is that in which the action finds the task at position `p`. -/
inductive TaskMoves (env : Env T) (id : Nat) (call : Call T) (p : Nat) (node : NodeHandle) (ch : Channel) :
    Stage → CallAct T → Call T → Channel → Prop where
  | nextSeq {q : Nat} :
      TaskMoves env id call p node ch .spawned (.nextSeq q)
        (call.setTask p (.numbered (Node.nextSeq ch.seq))) { ch with seq := Node.nextSeq ch.seq }
  | refuse {q seq : Nat} (hclosed : ch.closed = true) :
      TaskMoves env id call p node ch (.numbered seq) (.enqueue q)
        ((call.setTask p .ended).report p node (.error .nodeClosed)) ch
  | enqueue {q seq : Nat} (hopen : ch.closed = false) :
      TaskMoves env id call p node ch (.numbered seq) (.enqueue q) (call.setTask p .waiting)
        { ch with
          log := ch.log ++ [(id, Node.buildWireMessage seq call.method call.payload call.metadata)] }
  | reply {q : Nat} {r : Option Reply} (hready : call.ready = true)
      (hkind : call.kind = .rpcCall ∨ call.kind = .quorumCall ∨ call.kind = .orderedQuorumCall) :
      TaskMoves env id call p node ch .waiting (.reply q r)
        ((call.setTask p .ended).report p node (env.twoWayResult call.method r)) ch
  | update {q : Nat} {r : Option Reply} (hready : call.ready = true)
      (hkind : call.kind = .correctableCall) (hr : r.isSome = true) :
      TaskMoves env id call p node ch .waiting (.reply q r)
        (call.report p node (env.twoWayResult call.method r)) ch
  | ack {q : Nat} {r : Option (Except Error Unit)} (hready : call.ready = true)
      (hkind : call.kind = .unicast ∨ call.kind = .multicast) :
      TaskMoves env id call p node ch .waiting (.ack q r)
        ((call.setTask p .ended).report p node (env.ackResult r)) ch
  | finish {q : Nat} (hkind : call.kind = .correctableCall) :
      TaskMoves env id call p node ch .waiting (.finish q) (call.setTask p .ended) ch

theorem moves_of_taskStep {env : Env T} {id p : Nat} {call call' : Call T} {stage : Stage}
    {node : NodeHandle} {ch ch' : Channel} {a : CallAct T}
    (h : call.taskStep env id p stage node ch a = some (call', ch')) :
    TaskMoves env id call p node ch stage a call' ch' := by
  cases a with
  | nextSeq q =>
      simp only [taskStep] at h
      split at h
      · cases h
        exact .nextSeq
      · cases h
  | enqueue q =>
      simp only [taskStep] at h
      split at h
      · split at h
        · rename_i hclosed
          cases h
          exact .refuse hclosed
        · rename_i hopen
          cases h
          exact .enqueue (by simpa using hopen)
      · cases h
  | reply q r =>
      simp only [taskStep] at h
      split at h
      · rename_i hready
        obtain ⟨rfl, hready⟩ := hready
        cases hkind : call.kind with
        | rpcCall | quorumCall | orderedQuorumCall =>
            simp only [hkind] at h
            cases h
            exact .reply hready (by rw [hkind]; decide)
        | correctableCall =>
            simp only [hkind] at h
            split at h
            · rename_i hr
              cases h
              exact .update hready hkind hr
            · cases h
        | unicast | multicast =>
            simp only [hkind] at h
            cases h
      · cases h
  | ack q r =>
      simp only [taskStep] at h
      split at h
      · rename_i hready
        obtain ⟨rfl, hready, hkind⟩ := hready
        cases h
        exact .ack hready hkind
      · cases h
  | finish q =>
      simp only [taskStep] at h
      split at h
      · rename_i hready
        obtain ⟨rfl, hkind⟩ := hready
        cases h
        exact .finish hkind
      · cases h
  | _ => cases h

end Call

end Quorums.Client
