import Quorums.BaseRun
import Quorums.EpaxosHandlers

/-! A cluster of EPaxos replicas with the `propose` and `recover` calls that run on them. Every replica is
its own process; between any two of them there is a FIFO stream for requests and one for replies, and a
message may be lost. A fan-out spawns a task per peer, and each task puts its request on the stream when
it is scheduled. A call proceeds by steps of its own: it reads one reply, gives a round up, commits, or
returns. -/

namespace Quorums.Epaxos

/-- A replica process. A handler that panics leaves its lock poisoned. -/
structure Replica where
  inner : ReplicaInner
  poisoned : Bool
  stopped : Bool

/-- `CommitInfo`. -/
structure CommitInfo where
  replica : Nat
  slot : Int
  seq : Int
  deps : List Int
  fastPath : Bool
  deriving DecidableEq, Repr

/-- Where a `propose` or `recover` call stands. `committing` has its value and has not called
`commit_local` yet, `notifying` waits for the multicast. -/
inductive Phase where
  | preAccepting (cmds : List Command) (seq : Int) (deps : List Int) (replies : List PreAcceptReply)
  | preparing (replies : List PrepareReply)
  | tryPreAccepting (v : Value) (replies : List TryPreAcceptReply)
  | accepting (v : Value) (count : Nat)
  | committing (v : Value) (fastPath : Bool)
  | notifying (v : Value) (fastPath : Bool)
  | done (info : CommitInfo)
  | failed
  deriving DecidableEq, Repr

/-- A call on instance `(replica, slot)`, run by the replica `home`. `size` is its `n`. `outbox` holds the
requests of spawned tasks that have not run yet, each with its peer. -/
structure Coordinator where
  home : Nat
  peers : List Nat
  commitPeers : List Nat
  replica : Nat
  slot : Int
  size : Nat
  ballot : Int
  phase : Phase
  outbox : List (Nat × Request)
  deriving DecidableEq, Repr

namespace Coordinator

def proposal (c : Coordinator) (v : Value) : Proposal :=
  ⟨c.home, c.replica, c.slot, c.ballot, v.seq, v.deps, v.cmds⟩

def commitRequest (c : Coordinator) (v : Value) : CommitRequest :=
  ⟨c.home, c.replica, c.slot, v.cmds, v.seq, v.deps⟩

/-- Spawn the tasks of a fan-out. -/
def fanOut (c : Coordinator) (peers : List Nat) (req : Request) : Coordinator :=
  { c with outbox := c.outbox ++ peers.map fun p => (p, req) }

/-- The Accept round for `v`. -/
def accept (c : Coordinator) (v : Value) : Coordinator :=
  { c.fanOut c.peers (.accept (c.proposal v)) with phase := .accepting v 0 }

/-- Go on to `commit_local` with `v`. -/
def commit (c : Coordinator) (v : Value) (fastPath : Bool) : Coordinator :=
  { c with phase := .committing v fastPath }

def fail (c : Coordinator) : Coordinator := { c with phase := .failed }

end Coordinator

/-! ### `propose` -/

/-- `merged[i] = merged[i].max(d)` over the common indices. -/
def mergeDeps : List Int → List Int → List Int
  | m :: merged, d :: deps => max m d :: mergeDeps merged deps
  | merged, _ => merged

/-- The closure of the PreAccept round on all replies so far: the final attributes, and whether the fast
path was taken. -/
def preAcceptDecision (fastQuorum slowQuorumPeers : Nat) (origSeq : Int) (origDeps : List Int)
    (replies : List PreAcceptReply) : Option (Int × List Int × Bool) :=
  let cnt := replies.length
  let mergedSeq := replies.foldl (fun seq r => max seq r.seq) origSeq
  let mergedDeps := replies.foldl (fun deps r => mergeDeps deps r.deps) origDeps
  let allEq := replies.all fun r => r.status = .preacceptedEq
  if cnt ≥ fastQuorum ∧ allEq then some (origSeq, origDeps, true)
  else if cnt ≥ fastQuorum then some (mergedSeq, mergedDeps, false)
  else if ¬ allEq ∧ cnt ≥ slowQuorumPeers then some (mergedSeq, mergedDeps, false)
  else none

/-- `propose` up to its first fan-out. With no peers the quorum call panics. -/
def Coordinator.propose (home : Nat) (cmds : List Command) (peers : List Nat) (thrifty : Bool)
    (slot seq : Int) (deps : List Int) : Coordinator :=
  let n := peers.length + 1
  let c : Coordinator :=
    ⟨home, peers, if thrifty then peers.take (n / 2) else peers, home, slot, n, 0,
      .preAccepting cmds seq deps [], []⟩
  if peers = [] then c.fail else c.fanOut peers (.preAccept (c.proposal ⟨cmds, seq, deps⟩))

/-! ### `recover` -/

/-- `recover` up to its first fan-out. -/
def Coordinator.recover (home n replica : Nat) (slot : Int) (peers : List Nat) : Coordinator :=
  let c : Coordinator := ⟨home, peers, peers, replica, slot, n, 1, .preparing [], []⟩
  if peers = [] then c.fail else c.fanOut peers (.prepare ⟨home, replica, slot, 1⟩)

/-- `max_by_key(|r| r.ballot)`: the last one of those with the highest ballot. -/
def maxByBallot : List PrepareReply → Option PrepareReply
  | [] => none
  | r :: rest =>
      match maxByBallot rest with
      | none => some r
      | some best => if r.ballot > best.ballot then some r else some best

/-- What `recover` concludes from the Prepare replies. -/
inductive Analysis where
  | committed (v : Value)
  | accepted (v : Value)
  | tryFast (v : Value)
  | slow (v : Value)
  deriving DecidableEq, Repr

def analyze (n : Nat) (replies : List PrepareReply) : Analysis :=
  match replies.find? fun r => r.status = .committed with
  | some r => .committed r.value
  | none =>
      match maxByBallot (replies.filter fun r => r.status = .accepted) with
      | some r => .accepted r.value
      | none =>
          let preaccepted := replies.filter fun r => r.status = .preaccepted ∨ r.status = .preacceptedEq
          let v := match preaccepted.head? with
            | some first => first.value
            | none => ⟨[], 0, List.replicate n (-1)⟩
          let eqCount := preaccepted.countP fun r => r.seq = v.seq ∧ r.deps = v.deps
          if preaccepted ≠ [] ∧ eqCount ≥ n - 1 then .tryFast v else .slow v

/-- The value a conclusion comes with. -/
def Analysis.value : Analysis → Value
  | .committed v | .accepted v | .tryFast v | .slow v => v

/-- The conclusion takes no value over from a replica that had accepted or committed one. -/
def Analysis.own : Analysis → Bool
  | .committed _ | .accepted _ => false
  | .tryFast _ | .slow _ => true

/-- The next round after the Prepare round. -/
def Coordinator.conclude (c : Coordinator) : Analysis → Coordinator
  | .committed v => c.commit v false
  | .accepted v => c.accept v
  | .tryFast v =>
      { c.fanOut c.peers (.tryPreAccept (c.proposal v)) with phase := .tryPreAccepting v [] }
  | .slow v => c.accept v

/-! ### Replies -/

/-- A call reads a reply: its next state, and the value it fixes by itself, if it does. A reply of a
round that is over goes nowhere. -/
def Coordinator.receive (c : Coordinator) : Reply → Coordinator × Option Value
  | .preAccept r =>
      match c.phase with
      | .preAccepting cmds seq deps replies =>
          let replies := replies ++ [r]
          match preAcceptDecision (c.size - 1) (c.size / 2) seq deps replies with
          | some (finalSeq, finalDeps, fastPath) =>
              let v : Value := ⟨cmds, finalSeq, finalDeps⟩
              (if fastPath then c.commit v true else c.accept v, some v)
          | none => ({ c with phase := .preAccepting cmds seq deps replies }, none)
      | _ => (c, none)
  | .prepare r =>
      match c.phase with
      | .preparing replies =>
          let replies := replies ++ [r]
          if replies.length ≥ c.peers.length then
            let analysis := analyze c.size replies
            (c.conclude analysis, if analysis.own then some analysis.value else none)
          else ({ c with phase := .preparing replies }, none)
      | _ => (c, none)
  | .tryPreAccept r =>
      match c.phase with
      | .tryPreAccepting v replies =>
          let replies := replies ++ [r]
          if replies.length ≥ c.peers.length then
            (if replies.all fun r => r.ok then c.commit v true else c.accept v, none)
          else ({ c with phase := .tryPreAccepting v replies }, none)
      | _ => (c, none)
  | .accept _ =>
      match c.phase with
      | .accepting v count =>
          -- `threshold(n / 2)`
          if count + 1 ≥ c.size / 2 then (c.commit v false, none)
          else ({ c with phase := .accepting v (count + 1) }, none)
      | _ => (c, none)

/-- The round ends without a quorum, or the multicast fails. Only TryPreAccept goes on after that. -/
def Coordinator.giveUp (c : Coordinator) : Option Coordinator :=
  match c.phase with
  | .tryPreAccepting v _ => some (c.accept v)
  | .done _ | .failed | .committing _ _ => none
  | _ => some c.fail

/-! ### The system -/

/-- `decided` records the values that calls have fixed by themselves, by instance. -/
structure State where
  replicas : List Replica
  calls : List Coordinator
  requests : Nat × Nat → List (Nat × Request)
  replies : Nat × Nat → List (Nat × Reply)
  decided : List ((Nat × Int) × Value)

def init (n : Nat) : State where
  replicas := (List.range n).map fun id => ⟨ReplicaInner.new id n, false, false⟩
  calls := []
  requests := fun _ => []
  replies := fun _ => []
  decided := []

inductive Act where
  | propose (i : Nat) (cmds : List Command) (peers : List Nat) (thrifty : Bool)
  | recover (i replica : Nat) (slot : Int) (peers : List Nat)
  -- a spawned task of call `c` puts the request at `k` of its outbox on the stream to its peer
  | enqueue (c k : Nat)
  -- the oldest request from `i` to `j` is handled, the oldest reply from `j` to `i` is read
  | deliver (i j : Nat)
  | receive (i j : Nat)
  | lose (i j k : Nat)
  | loseReply (i j k : Nat)
  | giveUp (c : Nat)
  -- `commit_local` and the start of the multicast, then its end
  | commit (c : Nat)
  | finish (c : Nat)
  | stop (i : Nat)
  deriving DecidableEq, Repr

/-- What a handler makes of a request: the new state with the reply, or nothing if it panics. -/
def handle (rt : Runtime) (inner : ReplicaInner) : Request → Option (ReplicaInner × Option Reply)
  | .preAccept req => (handlePreAcceptInner rt inner req).map fun p => (p.1, some (.preAccept p.2))
  | .accept req => (handleAcceptInner inner req).map fun p => (p.1, some (.accept p.2))
  | .commit req => (handleCommitInner rt inner req).map fun inner => (inner, none)
  | .prepare req => some (inner, some (.prepare (handlePrepareInner inner req)))
  | .tryPreAccept req =>
      (handleTryPreAcceptInner inner req).map fun reply => (inner, some (.tryPreAccept reply))

/-- The state a commit leaves behind when the executor panics: the record is written. -/
def commitRemains (inner : ReplicaInner) (r : Nat) (slot : Int) (v : Value) : ReplicaInner :=
  ((recordCommit inner r slot v).map Prod.fst).getD inner

/-- The state a handler leaves behind when it panics, as far as its records go. -/
def remains (inner : ReplicaInner) : Request → ReplicaInner
  | .commit req => commitRemains inner (asUsize req.replica) req.slot req.value
  | _ => inner

/-- A replica handles a request under its lock. -/
def Replica.serve (rt : Runtime) (rep : Replica) (req : Request) : Replica × Option Reply :=
  if rep.poisoned then (rep, none)
  else
    match handle rt rep.inner req with
    | some (inner, reply) => ({ rep with inner }, reply)
    | none => ({ rep with inner := remains rep.inner req, poisoned := true }, none)

theorem serve_eq_of_lock {rt : Runtime} {rep : Replica} (hlock : rep.poisoned = false) (req : Request) :
    rep.serve rt req =
      match handle rt rep.inner req with
      | some (inner, reply) => ({ rep with inner }, reply)
      | none => ({ rep with inner := remains rep.inner req, poisoned := true }, none) := by
  rw [Replica.serve, hlock]
  rfl

namespace State

def setCall (s : State) (c : Nat) (call : Coordinator) : State := { s with calls := s.calls.set c call }

/-- The call at `c`, when the process it runs on is there. -/
def call? (s : State) (c : Nat) : Option Coordinator :=
  s.calls[c]?.bind fun call =>
    s.replicas[call.home]?.bind fun rep => if rep.stopped then none else some call

/-- The replica `i`, when its process is there. -/
def running? (s : State) (i : Nat) : Option Replica :=
  s.replicas[i]?.bind fun rep => if rep.stopped then none else some rep

end State

/-- A call begins. `propose` needs the lock first, and `recover` too. -/
def beginStep (rt : Runtime) (s : State) : Act → Option State
  | .propose i cmds peers thrifty =>
      (s.running? i).bind fun rep =>
        if rep.poisoned then none
        else
          match rep.inner.startProposal rt cmds with
          | some (inner, slot, seq, deps) =>
              some { s with
                replicas := s.replicas.set i { rep with inner }
                calls := s.calls ++ [Coordinator.propose rep.inner.id cmds peers thrifty slot seq deps] }
          | none => some { s with replicas := s.replicas.set i { rep with poisoned := true } }
  | .recover i replica slot peers =>
      (s.running? i).bind fun rep =>
        if rep.poisoned then none
        else
          some { s with
            calls := s.calls ++ [Coordinator.recover rep.inner.id rep.inner.n replica slot peers] }
  | _ => none

/-- The network. -/
def networkStep (rt : Runtime) (s : State) : Act → Option State
  | .enqueue c k =>
      (s.call? c).bind fun call =>
        call.outbox[k]?.map fun entry =>
          let stream := (call.home, entry.1)
          { s.setCall c { call with outbox := call.outbox.eraseIdx k } with
            requests := Function.update s.requests stream (s.requests stream ++ [(c, entry.2)]) }
  | .deliver i j =>
      match s.requests (i, j) with
      | [] => none
      | (c, req) :: rest =>
          (s.running? j).map fun rep =>
            let served := rep.serve rt req
            { s with
              replicas := s.replicas.set j served.1
              requests := Function.update s.requests (i, j) rest
              replies := match served.2 with
                | some reply => Function.update s.replies (j, i) (s.replies (j, i) ++ [(c, reply)])
                | none => s.replies }
  | .receive i j =>
      match s.replies (j, i) with
      | [] => none
      | (c, reply) :: rest =>
          (s.call? c).map fun call =>
            let next := call.receive reply
            { s.setCall c next.1 with
              replies := Function.update s.replies (j, i) rest
              decided := s.decided ++ next.2.toList.map fun v => ((call.replica, call.slot), v) }
  | .lose i j k =>
      some { s with requests := Function.update s.requests (i, j) ((s.requests (i, j)).eraseIdx k) }
  | .loseReply i j k =>
      some { s with replies := Function.update s.replies (j, i) ((s.replies (j, i)).eraseIdx k) }
  | _ => none

/-- The end of a call, and the end of a process. -/
def endStep (rt : Runtime) (s : State) : Act → Option State
  | .giveUp c => (s.call? c).bind fun call => call.giveUp.map fun next => s.setCall c next
  | .commit c =>
      (s.call? c).bind fun call =>
        match call.phase with
        | .committing v fastPath =>
            (s.running? call.home).map fun rep =>
              if rep.poisoned then s.setCall c call.fail
              else
                match commitLocal rt rep.inner call.replica call.slot v with
                | some inner =>
                    let next := call.fanOut call.commitPeers (.commit (call.commitRequest v))
                    { s.setCall c { next with phase := .notifying v fastPath } with
                      replicas := s.replicas.set call.home { rep with inner } }
                | none =>
                    let inner := commitRemains rep.inner call.replica call.slot v
                    { s.setCall c call.fail with
                      replicas := s.replicas.set call.home { rep with inner, poisoned := true } }
        | _ => none
  | .finish c =>
      (s.call? c).bind fun call =>
        match call.phase with
        | .notifying v fastPath =>
            some (s.setCall c
              { call with phase := .done ⟨call.replica, call.slot, v.seq, v.deps, fastPath⟩ })
        | _ => none
  | .stop i =>
      s.replicas[i]?.map fun rep => { s with replicas := s.replicas.set i { rep with stopped := true } }
  | _ => none

def step (rt : Runtime) (s : State) (a : Act) : Option State :=
  match a with
  | .propose .. | .recover .. => beginStep rt s a
  | .enqueue .. | .deliver .. | .receive .. | .lose .. | .loseReply .. => networkStep rt s a
  | .giveUp .. | .commit .. | .finish .. | .stop .. => endStep rt s a

/-! ### What a step can do

`Moves` says once, action by action, what an enabled step requires and what it leaves. -/

inductive Moves (rt : Runtime) (s : State) : Act → State → Prop where
  | propose {i : Nat} {cmds : List Command} {peers : List Nat} {thrifty : Bool} {rep : Replica}
      {inner : ReplicaInner} {slot seq : Int} {deps : List Int} (hrep : s.running? i = some rep)
      (hlock : rep.poisoned = false)
      (hstart : rep.inner.startProposal rt cmds = some (inner, slot, seq, deps)) :
      Moves rt s (.propose i cmds peers thrifty) { s with
        replicas := s.replicas.set i { rep with inner }
        calls := s.calls ++ [Coordinator.propose rep.inner.id cmds peers thrifty slot seq deps] }
  | proposePanic {i : Nat} {cmds : List Command} {peers : List Nat} {thrifty : Bool} {rep : Replica}
      (hrep : s.running? i = some rep) (hlock : rep.poisoned = false)
      (hstart : rep.inner.startProposal rt cmds = none) :
      Moves rt s (.propose i cmds peers thrifty) { s with
        replicas := s.replicas.set i { rep with poisoned := true } }
  | recover {i replica : Nat} {slot : Int} {peers : List Nat} {rep : Replica}
      (hrep : s.running? i = some rep) (hlock : rep.poisoned = false) :
      Moves rt s (.recover i replica slot peers) { s with
        calls := s.calls ++ [Coordinator.recover rep.inner.id rep.inner.n replica slot peers] }
  | enqueue {c k : Nat} {call : Coordinator} {entry : Nat × Request} (hcall : s.call? c = some call)
      (hentry : call.outbox[k]? = some entry) :
      Moves rt s (.enqueue c k)
        { s.setCall c { call with outbox := call.outbox.eraseIdx k } with
          requests := Function.update s.requests (call.home, entry.1)
            (s.requests (call.home, entry.1) ++ [(c, entry.2)]) }
  | deliver {i j c : Nat} {req : Request} {rest : List (Nat × Request)} {rep : Replica}
      (hqueue : s.requests (i, j) = (c, req) :: rest) (hrep : s.running? j = some rep) :
      Moves rt s (.deliver i j) { s with
        replicas := s.replicas.set j (rep.serve rt req).1
        requests := Function.update s.requests (i, j) rest
        replies := match (rep.serve rt req).2 with
          | some reply => Function.update s.replies (j, i) (s.replies (j, i) ++ [(c, reply)])
          | none => s.replies }
  | receive {i j c : Nat} {reply : Reply} {rest : List (Nat × Reply)} {call : Coordinator}
      (hqueue : s.replies (j, i) = (c, reply) :: rest) (hcall : s.call? c = some call) :
      Moves rt s (.receive i j) { s.setCall c (call.receive reply).1 with
        replies := Function.update s.replies (j, i) rest
        decided := s.decided ++ (call.receive reply).2.toList.map fun v => ((call.replica, call.slot), v) }
  | lose {i j k : Nat} :
      Moves rt s (.lose i j k) { s with
        requests := Function.update s.requests (i, j) ((s.requests (i, j)).eraseIdx k) }
  | loseReply {i j k : Nat} :
      Moves rt s (.loseReply i j k) { s with
        replies := Function.update s.replies (j, i) ((s.replies (j, i)).eraseIdx k) }
  | giveUp {c : Nat} {call next : Coordinator} (hcall : s.call? c = some call)
      (hnext : call.giveUp = some next) : Moves rt s (.giveUp c) (s.setCall c next)
  | commit {c : Nat} {call : Coordinator} {v : Value} {fastPath : Bool} {rep : Replica}
      {inner : ReplicaInner} (hcall : s.call? c = some call) (hphase : call.phase = .committing v fastPath)
      (hrep : s.running? call.home = some rep) (hlock : rep.poisoned = false)
      (hcommit : commitLocal rt rep.inner call.replica call.slot v = some inner) :
      Moves rt s (.commit c)
        { s.setCall c { call.fanOut call.commitPeers (.commit (call.commitRequest v)) with
            phase := .notifying v fastPath } with
          replicas := s.replicas.set call.home { rep with inner } }
  | commitPanic {c : Nat} {call : Coordinator} {v : Value} {fastPath : Bool} {rep : Replica}
      (hcall : s.call? c = some call) (hphase : call.phase = .committing v fastPath)
      (hrep : s.running? call.home = some rep) (hlock : rep.poisoned = false)
      (hcommit : commitLocal rt rep.inner call.replica call.slot v = none) :
      Moves rt s (.commit c) { s.setCall c call.fail with
        replicas := s.replicas.set call.home { rep with
          inner := commitRemains rep.inner call.replica call.slot v
          poisoned := true } }
  | commitPoisoned {c : Nat} {call : Coordinator} {v : Value} {fastPath : Bool} {rep : Replica}
      (hcall : s.call? c = some call) (hphase : call.phase = .committing v fastPath)
      (hrep : s.running? call.home = some rep) (hlock : rep.poisoned = true) :
      Moves rt s (.commit c) (s.setCall c call.fail)
  | finish {c : Nat} {call : Coordinator} {v : Value} {fastPath : Bool} (hcall : s.call? c = some call)
      (hphase : call.phase = .notifying v fastPath) :
      Moves rt s (.finish c) (s.setCall c
        { call with phase := .done ⟨call.replica, call.slot, v.seq, v.deps, fastPath⟩ })
  | stop {i : Nat} {rep : Replica} (hrep : s.replicas[i]? = some rep) :
      Moves rt s (.stop i) { s with replicas := s.replicas.set i { rep with stopped := true } }

variable {rt : Runtime} {s t : State}

theorem moves_of_beginStep {a : Act} (h : beginStep rt s a = some t) : Moves rt s a t := by
  cases a with
  | propose i cmds peers thrifty =>
      obtain ⟨rep, hrep, h⟩ := Option.bind_eq_some_iff.mp h
      split at h
      · cases h
      · rename_i hlock
        have hlock : rep.poisoned = false := by simpa using hlock
        split at h
        · rename_i hstart
          cases h
          exact .propose hrep hlock hstart
        · rename_i hstart
          cases h
          exact .proposePanic hrep hlock hstart
  | recover i replica slot peers =>
      obtain ⟨rep, hrep, h⟩ := Option.bind_eq_some_iff.mp h
      split at h
      · cases h
      · rename_i hlock
        cases h
        exact .recover hrep (by simpa using hlock)
  | _ => cases h

theorem moves_of_networkStep {a : Act} (h : networkStep rt s a = some t) : Moves rt s a t := by
  cases a with
  | enqueue c k =>
      obtain ⟨call, hcall, h⟩ := Option.bind_eq_some_iff.mp h
      obtain ⟨entry, hentry, rfl⟩ := Option.map_eq_some_iff.mp h
      exact .enqueue hcall hentry
  | deliver i j =>
      simp only [networkStep] at h
      split at h
      · cases h
      · rename_i hqueue
        obtain ⟨rep, hrep, rfl⟩ := Option.map_eq_some_iff.mp h
        exact .deliver hqueue hrep
  | receive i j =>
      simp only [networkStep] at h
      split at h
      · cases h
      · rename_i hqueue
        obtain ⟨call, hcall, rfl⟩ := Option.map_eq_some_iff.mp h
        exact .receive hqueue hcall
  | lose i j k =>
      cases h
      exact .lose
  | loseReply i j k =>
      cases h
      exact .loseReply
  | _ => cases h

theorem moves_of_endStep {a : Act} (h : endStep rt s a = some t) : Moves rt s a t := by
  cases a with
  | giveUp c =>
      obtain ⟨call, hcall, h⟩ := Option.bind_eq_some_iff.mp h
      obtain ⟨next, hnext, rfl⟩ := Option.map_eq_some_iff.mp h
      exact .giveUp hcall hnext
  | commit c =>
      obtain ⟨call, hcall, h⟩ := Option.bind_eq_some_iff.mp h
      split at h
      · rename_i hphase
        obtain ⟨rep, hrep, rfl⟩ := Option.map_eq_some_iff.mp h
        split
        · rename_i hlock
          exact .commitPoisoned hcall hphase hrep hlock
        · rename_i hlock
          have hlock : rep.poisoned = false := by simpa using hlock
          split
          · rename_i hcommit
            exact .commit hcall hphase hrep hlock hcommit
          · rename_i hcommit
            exact .commitPanic hcall hphase hrep hlock hcommit
      · cases h
  | finish c =>
      obtain ⟨call, hcall, h⟩ := Option.bind_eq_some_iff.mp h
      split at h
      · rename_i hphase
        cases h
        exact .finish hcall hphase
      · cases h
  | stop i =>
      obtain ⟨rep, hrep, rfl⟩ := Option.map_eq_some_iff.mp h
      exact .stop hrep
  | _ => cases h

theorem moves_of_step {a : Act} (h : step rt s a = some t) : Moves rt s a t := by
  cases a with
  | propose | recover =>
      simp only [step] at h
      exact moves_of_beginStep h
  | enqueue | deliver | receive | lose | loseReply =>
      simp only [step] at h
      exact moves_of_networkStep h
  | giveUp | commit | finish | stop =>
      simp only [step] at h
      exact moves_of_endStep h

theorem step_of_moves {a : Act} (h : Moves rt s a t) : step rt s a = some t := by
  cases h with
  | propose hrep hlock hstart => simp [step, beginStep, hrep, hlock, hstart]
  | proposePanic hrep hlock hstart => simp [step, beginStep, hrep, hlock, hstart]
  | recover hrep hlock => simp [step, beginStep, hrep, hlock]
  | enqueue hcall hentry => simp [step, networkStep, hcall, hentry]
  | deliver hqueue hrep => simp [step, networkStep, hqueue, hrep]
  | receive hqueue hcall => simp [step, networkStep, hqueue, hcall]
  | lose => rfl
  | loseReply => rfl
  | giveUp hcall hnext => simp [step, endStep, hcall, hnext]
  | commit hcall hphase hrep hlock hcommit => simp [step, endStep, hcall, hphase, hrep, hlock, hcommit]
  | commitPanic hcall hphase hrep hlock hcommit => simp [step, endStep, hcall, hphase, hrep, hlock, hcommit]
  | commitPoisoned hcall hphase hrep hlock => simp [step, endStep, hcall, hphase, hrep, hlock]
  | finish hcall hphase => simp [step, endStep, hcall, hphase]
  | stop hrep => simp [step, endStep, hrep]

end Quorums.Epaxos
