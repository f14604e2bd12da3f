import Quorums.ClientRouter
import Quorums.ServerFifo

/-! One node of a client with everything that works on it (`channel.rs`, the per-node parts of
`call_types.rs`): the calling tasks, the send queue, `run_node` with its `sender_loop`, the router, and
for every stream opened so far its `receive_loop`, its wire and the server at its other end. Each task
advances by steps of its own between which any other task may run. A stream hands its messages over
unaltered and in order; it may die at any point, and its two ends notice this independently. -/

namespace Quorums.Node

open Server

/-- `rpc_call` and `send_twoway`; the per-node task of `correctable_call`; `unicast` and the per-node
task of `multicast`. -/
inductive CallKind where
  | oneShot
  | streaming
  | oneWay
  deriving DecidableEq, Repr

/-- How far the calling task has come. `refused`: `enqueue` answered `NodeClosed`. -/
inductive Stage where
  | issued
  | numbered
  | registered
  | enqueued
  | refused
  deriving DecidableEq, Repr

/-- A call on the node; its sequence number is meaningful from stage `numbered` on. -/
structure Call where
  kind : CallKind
  method : String
  payload : Payload
  metadata : List (String × String)
  seq : Nat
  stage : Stage
  deriving DecidableEq, Repr

/-- `build_wire_message`. -/
def buildWireMessage (seq : Nat) (method : String) (payload : Payload)
    (metadata : List (String × String)) : Message where
  messageSeqNo := seq
  method := method
  statusCode := 0
  statusMessage := ""
  payload := payload
  metadata := metadata

def Call.wire (c : Call) : Message := buildWireMessage c.seq c.method c.payload c.metadata

/-- A request on the send queue. A sender is named by the call that holds its receiver; `call` is the
call the request belongs to. -/
structure OutboundRequest where
  call : Nat
  msg : Message
  responseTx : Option Nat
  sendAck : Option Nat
  deriving DecidableEq, Repr

/-- The request a call enqueues: a response sender for a one-shot call, an acknowledgement for a
one-way call, neither for a streaming call. -/
def Call.request (c : Call) (id : Nat) : OutboundRequest where
  call := id
  msg := c.wire
  responseTx := if c.kind = .oneShot then some id else none
  sendAck := if c.kind = .oneWay then some id else none

/-- Where `sender_loop` stands: waiting on the queue, after the dequeue, after the registration, after
the attempt to send. -/
inductive Sender where
  | waiting
  | dequeued (req : OutboundRequest)
  | ready (req : OutboundRequest)
  | sent (req : OutboundRequest) (ok : Bool)
  deriving DecidableEq, Repr

/-- Where `run_node` stands. `died`, `aborted` and `cancelling` follow a `sender_loop` that returned
`true`; `closing` one that returned `false`. -/
inductive Phase where
  | connecting
  | opening
  | backoff
  | streaming (sender : Sender)
  | died
  | aborted
  | cancelling
  | closing
  | closed
  deriving DecidableEq, Repr

inductive NodeStatus where
  | connecting
  | connected
  | reconnecting
  | unreachable
  | closed
  deriving DecidableEq, Repr

/-- Where a `receive_loop` stands; in `holding` and `failing` it has an item in hand that it has not
passed to the router yet. -/
inductive RecvLoop where
  | reading
  | holding (msg : Message)
  | failing (e : Status)
  | ended
  deriving DecidableEq, Repr

/-- A stream that was opened. `handed` and `failed` record the calls whose message `wire_tx.send`
accepted and refused; `cursor` counts the responses already read. -/
structure Stream where
  wireOpen : Bool
  handed : List Nat
  failed : List Nat
  server : ServerStream
  recv : RecvLoop
  cursor : Nat
  aborted : Bool

def Stream.open (id : Nat) : Stream := ⟨true, [], [], ServerStream.init id [], .reading, 0, false⟩

/-- The node; the last stream is the current one. `log` records the calls in enqueue order, and
`statusSent` is the last status sent, before the first one the value its channel began with. -/
structure State where
  seq : Nat
  calls : List Call
  queue : List OutboundRequest
  log : List Nat
  handles : Bool
  router : Router
  acks : Nat → Mailbox (Except Error Unit)
  phase : Phase
  firstAttempt : Bool
  statusSent : NodeStatus
  streams : List Stream

/-- `NodeChannel::connect`. -/
def init : State where
  seq := 0
  calls := []
  queue := []
  log := []
  handles := true
  router := Router.new
  acks := fun _ => Mailbox.empty
  phase := .connecting
  firstAttempt := true
  statusSent := .connecting
  streams := []

inductive Act where
  -- the callers
  | issue (kind : CallKind) (method : String) (payload : Payload) (metadata : List (String × String))
  | nextSeq (c : Nat)
  | registerStream (c : Nat)
  | enqueue (c : Nat)
  | dropReceiver (c : Nat)
  | dropHandles
  -- `run_node`
  | connectErr
  | connectOk
  | openErr
  | openOk
  | retry
  | abort
  | announce
  | cancel
  -- `sender_loop`
  | recvRequest
  | recvClosed
  | register
  | send
  | ack
  -- the transport and the server
  | closeWire (k : Nat)
  | server (k : Nat) (a : ServerStream.Act)
  -- `receive_loop`
  | fetch (k : Nat)
  | fetchEnd (k : Nat)
  | fetchErr (k : Nat) (e : Status)
  | handle (k : Nat)
  | stopRecv (k : Nat)

namespace State

def setCall (s : State) (c : Nat) (call : Call) : State := { s with calls := s.calls.set c call }

def setStream (s : State) (k : Nat) (st : Stream) : State := { s with streams := s.streams.set k st }

/-- The stream `sender_loop` writes to. -/
def current (s : State) : Nat := s.streams.length - 1

end State

/-- `AtomicU64::fetch_add(1) + 1`. -/
def nextSeq (seq : Nat) : Nat := (seq + 1) % 2 ^ 64

/-- The steps of a calling task. -/
def callerStep (s : State) : Act → Option State
  | .issue kind method payload metadata =>
      if s.handles then
        some { s with calls := s.calls ++ [⟨kind, method, payload, metadata, 0, .issued⟩] }
      else none
  | .nextSeq c =>
      match s.calls[c]? with
      | some call =>
          if call.stage = .issued then
            some { s with
              seq := nextSeq s.seq
              calls := s.calls.set c { call with seq := nextSeq s.seq, stage := .numbered } }
          else none
      | none => none
  | .registerStream c =>
      match s.calls[c]? with
      | some call =>
          if call.kind = .streaming ∧ call.stage = .numbered then
            some { s with
              router := s.router.registerStream call.seq c
              calls := s.calls.set c { call with stage := .registered } }
          else none
      | none => none
  | .enqueue c =>
      match s.calls[c]? with
      | some call =>
          if call.stage = if call.kind = .streaming then .registered else .numbered then
            -- the receiver of the queue is gone once `run_node` has returned
            if s.phase = .closed then some (s.setCall c { call with stage := .refused })
            else
              some { s with
                queue := s.queue ++ [call.request c]
                log := s.log ++ [c]
                calls := s.calls.set c { call with stage := .enqueued } }
          else none
      | none => none
  | .dropReceiver c =>
      some { s with
        router := s.router.onBox c Mailbox.drop
        acks := Function.update s.acks c (s.acks c).drop }
  | .dropHandles =>
      if s.calls.all fun call => call.stage = .enqueued ∨ call.stage = .refused then
        some { s with handles := false }
      else none
  | _ => none

/-- The steps of `sender_loop`. -/
def senderStep (s : State) : Act → Option State
  | .recvRequest =>
      match s.phase, s.queue with
      | .streaming .waiting, req :: rest =>
          some { s with queue := rest, phase := .streaming (.dequeued req) }
      | _, _ => none
  | .recvClosed =>
      if s.phase = .streaming .waiting ∧ s.queue = [] ∧ s.handles = false then
        some { s with phase := .closing }
      else none
  | .register =>
      match s.phase with
      | .streaming (.dequeued req) =>
          match req.responseTx with
          | some c =>
              some { s with
                router := s.router.registerWithSender req.msg.messageSeqNo c
                phase := .streaming (.ready req) }
          | none => some { s with phase := .streaming (.ready req) }
      | _ => none
  | .send =>
      match s.phase, s.streams[s.current]? with
      | .streaming (.ready req), some st =>
          if st.wireOpen then
            some { s with
              streams := s.streams.set s.current { st with
                handed := st.handed ++ [req.call]
                server := { st.server with inbound := st.server.inbound ++ [req.msg] } }
              phase := .streaming (.sent req true) }
          else
            some { s with
              streams := s.streams.set s.current { st with failed := st.failed ++ [req.call] }
              phase := .streaming (.sent req false) }
      | _, _ => none
  | .ack =>
      match s.phase with
      | .streaming (.sent req ok) =>
          let result : Except Error Unit := if ok then .ok () else .error .streamDown
          some { s with
            acks := match req.sendAck with
              | some c => Function.update s.acks c ((s.acks c).send result).close
              | none => s.acks
            phase := if ok then .streaming .waiting else .died }
      | _ => none
  | _ => none

/-- The steps of `run_node` outside `sender_loop`. -/
def nodeStep (s : State) : Act → Option State
  | .connectErr =>
      if s.phase = .connecting then
        some { s with phase := .backoff, statusSent := .unreachable, firstAttempt := false }
      else none
  | .connectOk => if s.phase = .connecting then some { s with phase := .opening } else none
  | .openErr =>
      if s.phase = .opening then
        some { s with phase := .backoff, statusSent := .unreachable, firstAttempt := false }
      else none
  | .openOk =>
      if s.phase = .opening then
        some { s with
          phase := .streaming .waiting
          statusSent := .connected
          firstAttempt := false
          streams := s.streams ++ [Stream.open s.streams.length] }
      else none
  | .retry =>
      if s.phase = .backoff then
        some { s with
          phase := .connecting
          statusSent := if s.firstAttempt then .connecting else .reconnecting }
      else none
  | .abort =>
      match s.streams[s.current]? with
      | some st =>
          match s.phase with
          | .died => some { s.setStream s.current { st with aborted := true } with phase := .aborted }
          | .closing =>
              some { s.setStream s.current { st with aborted := true } with
                phase := .closed
                statusSent := .closed }
          | _ => none
      | none => none
  | .announce =>
      if s.phase = .aborted then some { s with phase := .cancelling, statusSent := .reconnecting } else none
  | .cancel =>
      if s.phase = .cancelling then
        some { s with phase := .backoff, router := s.router.cancelAll .streamDown }
      else none
  | _ => none

variable (srv : Server) (peerAddr : Option String)

/-- The steps of the transport, the server and the receive loops of stream `k`. An aborted loop is
stopped the next time it has to wait; until then it goes on. -/
def streamStep (s : State) : Act → Option State
  | .closeWire k =>
      match s.streams[k]? with
      | some st => some (s.setStream k { st with wireOpen := false })
      | none => none
  | .server k a =>
      match s.streams[k]? with
      | some st =>
          match ServerStream.step srv peerAddr st.server a with
          | some server => some (s.setStream k { st with server := server })
          | none => none
      | none => none
  | .fetch k =>
      match s.streams[k]? with
      | some st =>
          match st.server.outbound[st.cursor]? with
          | some (_, msg) =>
              if st.recv = .reading then
                some (s.setStream k { st with recv := .holding msg, cursor := st.cursor + 1 })
              else none
          | none => none
      | none => none
  | .fetchEnd k =>
      match s.streams[k]? with
      | some st =>
          if st.recv = .reading then some (s.setStream k { st with recv := .ended })
          else none
      | none => none
  | .fetchErr k e =>
      match s.streams[k]? with
      | some st =>
          if st.recv = .reading then some (s.setStream k { st with recv := .failing e })
          else none
      | none => none
  | .handle k =>
      match s.streams[k]? with
      | some st =>
          match st.recv with
          | .holding msg =>
              some { s.setStream k { st with recv := .reading } with router := s.router.receive msg }
          | .failing e =>
              some { s.setStream k { st with recv := .ended } with
                router := s.router.cancelAll (.transport e) }
          | _ => none
      | none => none
  | .stopRecv k =>
      match s.streams[k]? with
      | some st =>
          if st.recv = .reading ∧ st.aborted = true then some (s.setStream k { st with recv := .ended })
          else none
      | none => none
  | _ => none

/-- One step of the node. -/
def step (s : State) (a : Act) : Option State :=
  match a with
  | .issue .. | .nextSeq .. | .registerStream .. | .enqueue .. | .dropReceiver .. | .dropHandles =>
      callerStep s a
  | .recvRequest | .recvClosed | .register | .send | .ack => senderStep s a
  | .connectErr | .connectOk | .openErr | .openOk | .retry | .abort | .announce | .cancel =>
      nodeStep s a
  | .closeWire .. | .server .. | .fetch .. | .fetchEnd .. | .fetchErr .. | .handle .. | .stopRecv .. =>
      streamStep srv peerAddr s a

/-! ### What a step can do

`Moves` says once, transition by transition, what an enabled action requires and what it leaves; every
invariant below is proved by cases on it. -/

inductive Moves (srv : Server) (peerAddr : Option String) : State → Act → State → Prop
  | issue {s kind method payload metadata} (hhandles : s.handles = true) :
      Moves srv peerAddr s (.issue kind method payload metadata)
        { s with calls := s.calls ++ [⟨kind, method, payload, metadata, 0, .issued⟩] }
  | nextSeq {s c call} (hcall : s.calls[c]? = some call) (hstage : call.stage = .issued) :
      Moves srv peerAddr s (.nextSeq c)
        { s with
          seq := Node.nextSeq s.seq
          calls := s.calls.set c { call with seq := Node.nextSeq s.seq, stage := .numbered } }
  | registerStream {s c call} (hcall : s.calls[c]? = some call) (hkind : call.kind = .streaming)
      (hstage : call.stage = .numbered) :
      Moves srv peerAddr s (.registerStream c)
        { s with
          router := s.router.registerStream call.seq c
          calls := s.calls.set c { call with stage := .registered } }
  | refuse {s c call} (hcall : s.calls[c]? = some call)
      (hstage : call.stage = if call.kind = .streaming then .registered else .numbered)
      (hphase : s.phase = .closed) :
      Moves srv peerAddr s (.enqueue c) { s with calls := s.calls.set c { call with stage := .refused } }
  | enqueue {s c call} (hcall : s.calls[c]? = some call)
      (hstage : call.stage = if call.kind = .streaming then .registered else .numbered)
      (hphase : s.phase ≠ .closed) :
      Moves srv peerAddr s (.enqueue c)
        { s with
          queue := s.queue ++ [call.request c]
          log := s.log ++ [c]
          calls := s.calls.set c { call with stage := .enqueued } }
  | dropReceiver {s c} :
      Moves srv peerAddr s (.dropReceiver c)
        { s with
          router := s.router.onBox c Mailbox.drop
          acks := Function.update s.acks c (s.acks c).drop }
  | dropHandles {s}
      (hcalls : (s.calls.all fun call => call.stage = .enqueued ∨ call.stage = .refused) = true) :
      Moves srv peerAddr s .dropHandles { s with handles := false }
  | recvRequest {s req rest} (hphase : s.phase = .streaming .waiting) (hqueue : s.queue = req :: rest) :
      Moves srv peerAddr s .recvRequest { s with queue := rest, phase := .streaming (.dequeued req) }
  | recvClosed {s} (hphase : s.phase = .streaming .waiting) (hqueue : s.queue = [])
      (hhandles : s.handles = false) :
      Moves srv peerAddr s .recvClosed { s with phase := .closing }
  | register {s req c} (hphase : s.phase = .streaming (.dequeued req)) (htx : req.responseTx = some c) :
      Moves srv peerAddr s .register
        { s with
          router := s.router.registerWithSender req.msg.messageSeqNo c
          phase := .streaming (.ready req) }
  | pass {s req} (hphase : s.phase = .streaming (.dequeued req)) (htx : req.responseTx = none) :
      Moves srv peerAddr s .register { s with phase := .streaming (.ready req) }
  | send {s req st} (hphase : s.phase = .streaming (.ready req))
      (hst : s.streams[s.current]? = some st) (hopen : st.wireOpen = true) :
      Moves srv peerAddr s .send
        { s with
          streams := s.streams.set s.current { st with
            handed := st.handed ++ [req.call]
            server := { st.server with inbound := st.server.inbound ++ [req.msg] } }
          phase := .streaming (.sent req true) }
  | sendErr {s req st} (hphase : s.phase = .streaming (.ready req))
      (hst : s.streams[s.current]? = some st) (hopen : st.wireOpen = false) :
      Moves srv peerAddr s .send
        { s with
          streams := s.streams.set s.current { st with failed := st.failed ++ [req.call] }
          phase := .streaming (.sent req false) }
  | ack {s req c ok} (hphase : s.phase = .streaming (.sent req ok)) (htx : req.sendAck = some c) :
      Moves srv peerAddr s .ack
        { s with
          acks := Function.update s.acks c
            ((s.acks c).send (if ok then .ok () else .error .streamDown)).close
          phase := if ok then .streaming .waiting else .died }
  | skipAck {s req ok} (hphase : s.phase = .streaming (.sent req ok)) (htx : req.sendAck = none) :
      Moves srv peerAddr s .ack { s with phase := if ok then .streaming .waiting else .died }
  | connectErr {s} (hphase : s.phase = .connecting) :
      Moves srv peerAddr s .connectErr
        { s with phase := .backoff, statusSent := .unreachable, firstAttempt := false }
  | connectOk {s} (hphase : s.phase = .connecting) :
      Moves srv peerAddr s .connectOk { s with phase := .opening }
  | openErr {s} (hphase : s.phase = .opening) :
      Moves srv peerAddr s .openErr
        { s with phase := .backoff, statusSent := .unreachable, firstAttempt := false }
  | openOk {s} (hphase : s.phase = .opening) :
      Moves srv peerAddr s .openOk
        { s with
          phase := .streaming .waiting
          statusSent := .connected
          firstAttempt := false
          streams := s.streams ++ [Stream.open s.streams.length] }
  | retry {s} (hphase : s.phase = .backoff) :
      Moves srv peerAddr s .retry
        { s with
          phase := .connecting
          statusSent := if s.firstAttempt then .connecting else .reconnecting }
  | abort {s st} (hphase : s.phase = .died) (hst : s.streams[s.current]? = some st) :
      Moves srv peerAddr s .abort
        { s with streams := s.streams.set s.current { st with aborted := true }, phase := .aborted }
  | close {s st} (hphase : s.phase = .closing) (hst : s.streams[s.current]? = some st) :
      Moves srv peerAddr s .abort
        { s with
          streams := s.streams.set s.current { st with aborted := true }
          phase := .closed
          statusSent := .closed }
  | announce {s} (hphase : s.phase = .aborted) :
      Moves srv peerAddr s .announce { s with phase := .cancelling, statusSent := .reconnecting }
  | cancel {s} (hphase : s.phase = .cancelling) :
      Moves srv peerAddr s .cancel
        { s with phase := .backoff, router := s.router.cancelAll .streamDown }
  | closeWire {s k st} (hst : s.streams[k]? = some st) :
      Moves srv peerAddr s (.closeWire k) { s with streams := s.streams.set k { st with wireOpen := false } }
  | server {s k st a server} (hst : s.streams[k]? = some st)
      (hserver : ServerStream.step srv peerAddr st.server a = some server) :
      Moves srv peerAddr s (.server k a) { s with streams := s.streams.set k { st with server := server } }
  | fetch {s k st i msg} (hst : s.streams[k]? = some st)
      (hmsg : st.server.outbound[st.cursor]? = some (i, msg)) (hrecv : st.recv = .reading) :
      Moves srv peerAddr s (.fetch k)
        { s with streams := s.streams.set k { st with recv := .holding msg, cursor := st.cursor + 1 } }
  | fetchEnd {s k st} (hst : s.streams[k]? = some st) (hrecv : st.recv = .reading) :
      Moves srv peerAddr s (.fetchEnd k) { s with streams := s.streams.set k { st with recv := .ended } }
  | fetchErr {s k st e} (hst : s.streams[k]? = some st) (hrecv : st.recv = .reading) :
      Moves srv peerAddr s (.fetchErr k e)
        { s with streams := s.streams.set k { st with recv := .failing e } }
  | deliver {s k st msg} (hst : s.streams[k]? = some st) (hrecv : st.recv = .holding msg) :
      Moves srv peerAddr s (.handle k)
        { s with
          streams := s.streams.set k { st with recv := .reading }
          router := s.router.receive msg }
  | fail {s k st e} (hst : s.streams[k]? = some st) (hrecv : st.recv = .failing e) :
      Moves srv peerAddr s (.handle k)
        { s with
          streams := s.streams.set k { st with recv := .ended }
          router := s.router.cancelAll (.transport e) }
  | stopRecv {s k st} (hst : s.streams[k]? = some st) (hrecv : st.recv = .reading)
      (haborted : st.aborted = true) :
      Moves srv peerAddr s (.stopRecv k) { s with streams := s.streams.set k { st with recv := .ended } }

variable {srv peerAddr}

theorem moves_of_callerStep {s t : State} {a : Act} (h : callerStep s a = some t) :
    Moves srv peerAddr s a t := by
  cases a with
  | issue kind method payload metadata =>
      rw [callerStep] at h
      split at h
      · rename_i hhandles
        cases h
        exact .issue hhandles
      · cases h
  | nextSeq c =>
      rw [callerStep] at h
      split at h
      · rename_i call hcall
        split at h
        · rename_i hstage
          cases h
          exact .nextSeq hcall hstage
        · cases h
      · cases h
  | registerStream c =>
      rw [callerStep] at h
      split at h
      · rename_i call hcall
        split at h
        · rename_i hstage
          cases h
          exact .registerStream hcall hstage.1 hstage.2
        · cases h
      · cases h
  | enqueue c =>
      rw [callerStep] at h
      split at h
      · rename_i call hcall
        by_cases hstage : call.stage = if call.kind = .streaming then .registered else .numbered
        · rw [if_pos hstage] at h
          by_cases hphase : s.phase = .closed
          · rw [if_pos hphase] at h
            cases h
            exact .refuse hcall hstage hphase
          · rw [if_neg hphase] at h
            cases h
            exact .enqueue hcall hstage hphase
        · rw [if_neg hstage] at h
          cases h
      · cases h
  | dropReceiver c =>
      cases h
      exact .dropReceiver
  | dropHandles =>
      rw [callerStep] at h
      split at h
      · rename_i hcalls
        cases h
        exact .dropHandles hcalls
      · cases h
  | _ => cases h

theorem moves_of_senderStep {s t : State} {a : Act} (h : senderStep s a = some t) :
    Moves srv peerAddr s a t := by
  cases a with
  | recvRequest =>
      rw [senderStep] at h
      split at h
      · rename_i req rest hphase hqueue
        cases h
        exact .recvRequest hphase hqueue
      · cases h
  | recvClosed =>
      rw [senderStep] at h
      split at h
      · rename_i hclosed
        cases h
        exact .recvClosed hclosed.1 hclosed.2.1 hclosed.2.2
      · cases h
  | register =>
      rw [senderStep] at h
      split at h
      · rename_i req hphase
        split at h
        · rename_i c htx
          cases h
          exact .register hphase htx
        · rename_i htx
          cases h
          exact .pass hphase htx
      · cases h
  | send =>
      rw [senderStep] at h
      split at h
      · rename_i req st hphase hst
        split at h
        · rename_i hopen
          cases h
          exact .send hphase hst hopen
        · rename_i hopen
          cases h
          exact .sendErr hphase hst (by simpa using hopen)
      · cases h
  | ack =>
      rw [senderStep] at h
      split at h
      · rename_i req ok hphase
        cases h
        cases htx : req.sendAck with
        | some c => exact .ack hphase htx
        | none => exact .skipAck hphase htx
      · cases h
  | _ => cases h

theorem moves_of_nodeStep {s t : State} {a : Act} (h : nodeStep s a = some t) :
    Moves srv peerAddr s a t := by
  cases a with
  | abort =>
      rw [nodeStep] at h
      split at h
      · rename_i st hst
        split at h
        · rename_i hphase
          cases h
          exact .abort hphase hst
        · rename_i hphase
          cases h
          exact .close hphase hst
        · cases h
      · cases h
  | connectErr | connectOk | openErr | openOk | retry | announce | cancel =>
      rw [nodeStep] at h
      split at h
      · rename_i hphase
        cases h
        constructor
        exact hphase
      · cases h
  | _ => cases h

theorem moves_of_streamStep {s t : State} {a : Act} (h : streamStep srv peerAddr s a = some t) :
    Moves srv peerAddr s a t := by
  cases a with
  | closeWire k =>
      rw [streamStep] at h
      split at h
      · rename_i st hst
        cases h
        exact .closeWire hst
      · cases h
  | server k a =>
      rw [streamStep] at h
      split at h
      · rename_i st hst
        split at h
        · rename_i server hserver
          cases h
          exact .server hst hserver
        · cases h
      · cases h
  | fetch k =>
      rw [streamStep] at h
      split at h
      · rename_i st hst
        split at h
        · rename_i i msg hmsg
          split at h
          · rename_i hrecv
            cases h
            exact .fetch hst hmsg hrecv
          · cases h
        · cases h
      · cases h
  | fetchEnd k =>
      rw [streamStep] at h
      split at h
      · rename_i st hst
        split at h
        · rename_i hrecv
          cases h
          exact .fetchEnd hst hrecv
        · cases h
      · cases h
  | fetchErr k e =>
      rw [streamStep] at h
      split at h
      · rename_i st hst
        split at h
        · rename_i hrecv
          cases h
          exact .fetchErr hst hrecv
        · cases h
      · cases h
  | handle k =>
      rw [streamStep] at h
      split at h
      · rename_i st hst
        split at h
        · rename_i msg hrecv
          cases h
          exact .deliver hst hrecv
        · rename_i e hrecv
          cases h
          exact .fail hst hrecv
        · cases h
      · cases h
  | stopRecv k =>
      rw [streamStep] at h
      split at h
      · rename_i st hst
        split at h
        · rename_i hstop
          cases h
          exact .stopRecv hst hstop.1 hstop.2
        · cases h
      · cases h
  | _ => cases h

theorem moves_of_step {s t : State} {a : Act} (h : step srv peerAddr s a = some t) :
    Moves srv peerAddr s a t := by
  cases a with
  | issue | nextSeq | registerStream | enqueue | dropReceiver | dropHandles =>
      exact moves_of_callerStep h
  | recvRequest | recvClosed | register | send | ack => exact moves_of_senderStep h
  | connectErr | connectOk | openErr | openOk | retry | abort | announce | cancel =>
      exact moves_of_nodeStep h
  | closeWire | server | fetch | fetchEnd | fetchErr | handle | stopRecv => exact moves_of_streamStep h

end Quorums.Node
