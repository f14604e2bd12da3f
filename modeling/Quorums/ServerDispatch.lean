import Mathlib.Data.List.AList
import Quorums.WireMessage

/-! What the server does with one inbound message (`server.rs`, `interceptor.rs`): the interceptor
chain, the erased two-way and streaming handlers, and the task that `node_stream` spawns, written as
the list of its externally visible steps in order. A user closure may keep state of its own, so it
takes, besides its arguments, the occasion on which it is asked: the stream and the number of the
message on it. Nothing is assumed about how its answers depend on it. -/

namespace Quorums.Server

abbrev Occasion := Nat × Nat

/-- What a user handler does with its context before it returns. -/
inductive HandlerAct where
  | release
  | send (payload : Payload)
  deriving DecidableEq, Repr

/-- One run of a user handler: its uses of the context in order, whether its future keeps the context to the
end, and its result. The context is handed over by value, so a future that does not capture it, or that drops
it after the last use, does not keep it. -/
structure HandlerRun (Out : Type) where
  acts : List HandlerAct
  keepsCtx : Bool
  result : Except Status Out

structure ServerCallInfo where
  method : String
  peerAddr : Option String
  deriving DecidableEq, Repr

abbrev ServerInterceptor := Occasion → ServerCallInfo → Except Status Unit

/-- `run_server`: the first rejection, or `Ok(())` when every interceptor passes. -/
def runServer (occasion : Occasion) (info : ServerCallInfo) : List ServerInterceptor → Except Status Unit
  | [] => .ok ()
  | i :: chain =>
      match i occasion info with
      | .error status => .error status
      | .ok () => runServer occasion info chain

/-- The fields of `ServerCtx` a handler can read; the ordering guard belongs to the task. -/
structure ServerCtx where
  msgSeqNo : Nat
  method : String
  metadata : List (String × String)
  deriving DecidableEq, Repr

/-- An error reply: the status in the envelope, no payload. -/
def errorReply (seq : Nat) (method : String) (status : Status) : Message where
  messageSeqNo := seq
  method := method
  statusCode := status.code.asU32
  statusMessage := status.message
  payload := []
  metadata := []

/-- A successful reply. -/
def okReply (seq : Nat) (method : String) (payload : Payload) : Message where
  messageSeqNo := seq
  method := method
  statusCode := 0
  statusMessage := ""
  payload := payload
  metadata := []

/-- The end-of-stream sentinel of a streaming handler. -/
def doneReply (seq : Nat) (method : String) : Message where
  messageSeqNo := seq
  method := method
  statusCode := statusStreamDone
  statusMessage := ""
  payload := []
  metadata := []

/-- A visible step of the task spawned for one message. `interceptors` and `handler` mark where the
chain and the user handler start, `dropCtx` where a context that is not kept goes out of scope, and `dropGuard`
where the user's future ends or the task exits early. -/
inductive TaskEvent where
  | interceptors
  | handler
  | release
  | emit (m : Message)
  | dropCtx
  | dropGuard
  deriving DecidableEq, Repr

namespace TaskEvent

/-- The guard is given up here, if it is still held. -/
def unlocks : TaskEvent → Bool
  | .release | .dropCtx | .dropGuard => true
  | _ => false

/-- Interceptors or user code start here. -/
def starts : TaskEvent → Bool
  | .interceptors | .handler => true
  | _ => false

def emitted : TaskEvent → Option Message
  | .emit m => some m
  | _ => none

end TaskEvent

/-- `ServerCtx::release` and `ServerCtx::send` as steps of the task. -/
def ServerCtx.perform (ctx : ServerCtx) : HandlerAct → TaskEvent
  | .release => .release
  | .send payload => .emit (okReply ctx.msgSeqNo ctx.method payload)

/-- What the user's future does with the context, as steps of the task. -/
def HandlerRun.uses {Out : Type} (ctx : ServerCtx) (r : HandlerRun Out) : List TaskEvent :=
  r.acts.map ctx.perform ++ if r.keepsCtx then [] else [.dropCtx]

/-- The two kinds of erased handler. The body answers `none` when the payload does not decode as the
request type; the responses of a two-way body are already encoded. -/
inductive Handler where
  | twoWay (body : Occasion → ServerCtx → Payload → Option (HandlerRun (Option Payload)))
  | streaming (body : Occasion → ServerCtx → Payload → Option (HandlerRun Unit))

/-- The message a two-way handler's result is turned into. -/
def twoWayReply (wire : Message) : Except Status (Option Payload) → Option Message
  | .ok none => none
  | .ok (some payload) => some (okReply wire.messageSeqNo wire.method payload)
  | .error status => some (errorReply wire.messageSeqNo wire.method status)

/-- The error message a streaming handler's result is turned into. -/
def streamingError (ctx : ServerCtx) : Except Status Unit → List TaskEvent
  | .ok () => []
  | .error status => [.emit (errorReply ctx.msgSeqNo ctx.method status)]

/-- The erased handler: its steps, and the reply it leaves to the dispatcher. The guard goes with the context,
which is dropped when the user's future ends, or before if that future does not keep it. -/
def Handler.erased (occasion : Occasion) (ctx : ServerCtx) (wire : Message) :
    Handler → List TaskEvent × Option Message
  | .twoWay body =>
      match body occasion ctx wire.payload with
      | none => ([.dropGuard], none)
      | some r => (.handler :: (r.uses ctx ++ [.dropGuard]), twoWayReply wire r.result)
  | .streaming body =>
      match body occasion ctx wire.payload with
      | none => ([.dropGuard], none)
      | some r =>
          (.handler :: (r.uses ctx ++ .dropGuard :: (streamingError ctx r.result ++
            [.emit (doneReply ctx.msgSeqNo ctx.method)])), none)

end Server

open Server in
/-- The gorums server: the handler of each method and the interceptor chain. -/
structure Server where
  handlers : AList fun _ : String => Handler
  interceptors : List ServerInterceptor

namespace Server

/-- A user's run with its responses encoded. -/
def HandlerRun.encode {Resp : Type} (c : Codec Resp) (r : HandlerRun (Option Resp)) :
    HandlerRun (Option Payload) where
  acts := r.acts
  keepsCtx := r.keepsCtx
  result := r.result.map (Option.map (encodePayload c))

/-- `Server::register_handler`. -/
def registerHandler {Req Resp : Type} (srv : Server) (method : String) (req : Codec Req)
    (resp : Codec Resp) (handler : Occasion → ServerCtx → Req → HandlerRun (Option Resp)) : Server :=
  { srv with handlers := srv.handlers.insert method (.twoWay fun occasion ctx payload =>
      match req.decode payload with
      | .error _ => none
      | .ok r => some ((handler occasion ctx r).encode resp)) }

/-- `Server::register_streaming_handler`. -/
def registerStreamingHandler {Req : Type} (srv : Server) (method : String) (req : Codec Req)
    (handler : Occasion → ServerCtx → Req → HandlerRun Unit) : Server :=
  { srv with handlers := srv.handlers.insert method (.streaming fun occasion ctx payload =>
      match req.decode payload with
      | .error _ => none
      | .ok r => some (handler occasion ctx r)) }

/-- `Server::with_interceptor`. -/
def withInterceptor (srv : Server) (i : ServerInterceptor) : Server :=
  { srv with interceptors := srv.interceptors ++ [i] }

/-- The context `node_stream` builds for a message. -/
def ctxOf (msg : Message) : ServerCtx := ⟨msg.messageSeqNo, msg.method, msg.metadata⟩

/-- The task `node_stream` spawns for a message, from its first step to its end. -/
def taskEvents (srv : Server) (occasion : Occasion) (peerAddr : Option String) (msg : Message) :
    List TaskEvent :=
  .interceptors ::
    match runServer occasion ⟨msg.method, peerAddr⟩ srv.interceptors with
    | .error status => [.emit (errorReply msg.messageSeqNo msg.method status), .dropGuard]
    | .ok () =>
        match srv.handlers.lookup msg.method with
        | none => [.dropGuard]
        | some h =>
            let r := h.erased occasion (ctxOf msg) msg
            r.1 ++ (r.2.map TaskEvent.emit).toList

/-- The messages among the steps of a task. -/
def emissions (events : List TaskEvent) : List Message := events.filterMap TaskEvent.emitted

@[simp] theorem emissions_nil : emissions [] = [] := rfl

@[simp] theorem emissions_append (l l' : List TaskEvent) :
    emissions (l ++ l') = emissions l ++ emissions l' := List.filterMap_append

@[simp] theorem emissions_emit (m : Message) (l : List TaskEvent) :
    emissions (.emit m :: l) = m :: emissions l := rfl

@[simp] theorem emissions_interceptors (l : List TaskEvent) :
    emissions (.interceptors :: l) = emissions l := rfl

@[simp] theorem emissions_handler (l : List TaskEvent) :
    emissions (.handler :: l) = emissions l := rfl

@[simp] theorem emissions_dropCtx (l : List TaskEvent) :
    emissions (.dropCtx :: l) = emissions l := rfl

@[simp] theorem emissions_dropGuard (l : List TaskEvent) :
    emissions (.dropGuard :: l) = emissions l := rfl

/-- The payloads a handler pushes itself. -/
def HandlerAct.pushed : HandlerAct → Option Payload
  | .release => none
  | .send payload => some payload

theorem emissions_map_perform (ctx : ServerCtx) (acts : List HandlerAct) :
    emissions (acts.map ctx.perform) =
      (acts.filterMap HandlerAct.pushed).map (okReply ctx.msgSeqNo ctx.method) := by
  induction acts with
  | nil => rfl
  | cons act acts ih =>
      cases act with
      | release => exact ih
      | send payload => exact congrArg (okReply ctx.msgSeqNo ctx.method payload :: ·) ih

theorem emissions_uses {Out : Type} (ctx : ServerCtx) (r : HandlerRun Out) :
    emissions (r.uses ctx) =
      (r.acts.filterMap HandlerAct.pushed).map (okReply ctx.msgSeqNo ctx.method) := by
  rw [HandlerRun.uses, emissions_append, emissions_map_perform]
  cases r.keepsCtx <;> simp

/-- A use of the context is one of the handler's, or the drop at its end. -/
theorem mem_uses {Out : Type} {ctx : ServerCtx} {r : HandlerRun Out} {e : TaskEvent} (h : e ∈ r.uses ctx) :
    (∃ act, e = ctx.perform act) ∨ e = .dropCtx := by
  rw [HandlerRun.uses, List.mem_append] at h
  rcases h with hact | hdrop
  · obtain ⟨act, -, hact⟩ := List.mem_map.mp hact
    exact Or.inl ⟨act, hact.symm⟩
  · split at hdrop
    · cases hdrop
    · exact Or.inr (List.mem_singleton.mp hdrop)

/-! ### Every message a task emits answers its own request -/

/-- The envelope fields that tie a reply to a request. -/
def Echoes (request reply : Message) : Prop :=
  reply.messageSeqNo = request.messageSeqNo ∧ reply.method = request.method

theorem echoes_of_mem_erased (h : Handler) (occasion : Occasion) (msg m : Message)
    (hm : .emit m ∈ (h.erased occasion (ctxOf msg) msg).1) : Echoes msg m := by
  have huses : ∀ {Out : Type} (r : HandlerRun Out),
      TaskEvent.emit m ∈ r.uses (ctxOf msg) → Echoes msg m := by
    intro Out r hmem
    obtain ⟨act, hact⟩ | hdrop := mem_uses hmem
    · cases act with
      | release => cases hact
      | send payload =>
          cases hact
          exact ⟨rfl, rfl⟩
    · cases hdrop
  cases h with
  | twoWay body =>
      rw [Handler.erased] at hm
      split at hm
      · simp at hm
      · rename_i r hbody
        simp only [List.mem_cons, reduceCtorEq, List.mem_append, List.not_mem_nil, or_false,
          false_or] at hm
        exact huses r hm
  | streaming body =>
      rw [Handler.erased] at hm
      split at hm
      · simp at hm
      · rename_i r hbody
        simp only [List.mem_cons, reduceCtorEq, List.mem_append, List.not_mem_nil, or_false,
          false_or] at hm
        rcases hm with hacts | herr | hdone
        · exact huses r hacts
        · cases hres : r.result with
          | ok u => simp [hres, streamingError] at herr
          | error status =>
              simp only [hres, streamingError, List.mem_singleton, TaskEvent.emit.injEq] at herr
              subst herr
              exact ⟨rfl, rfl⟩
        · cases hdone
          exact ⟨rfl, rfl⟩

theorem echoes_of_reply (h : Handler) (occasion : Occasion) (msg m : Message)
    (hm : (h.erased occasion (ctxOf msg) msg).2 = some m) : Echoes msg m := by
  cases h with
  | twoWay body =>
      rw [Handler.erased] at hm
      split at hm
      · cases hm
      · rename_i r hbody
        unfold twoWayReply at hm
        split at hm
        · cases hm
        · cases hm
          exact ⟨rfl, rfl⟩
        · cases hm
          exact ⟨rfl, rfl⟩
  | streaming body =>
      rw [Handler.erased] at hm
      split at hm <;> cases hm

theorem echoes_of_mem_taskEvents (srv : Server) (occasion : Occasion) (peerAddr : Option String)
    (msg m : Message) (hm : .emit m ∈ srv.taskEvents occasion peerAddr msg) : Echoes msg m := by
  simp only [taskEvents, List.mem_cons, reduceCtorEq, false_or] at hm
  split at hm
  · simp only [List.mem_cons, TaskEvent.emit.injEq, reduceCtorEq, List.not_mem_nil, or_false] at hm
    subst hm
    exact ⟨rfl, rfl⟩
  · split at hm
    · simp at hm
    · rename_i h hlookup
      rcases List.mem_append.mp hm with hsteps | hreply
      · exact echoes_of_mem_erased h occasion msg m hsteps
      · rw [Option.mem_toList, Option.map_eq_some_iff] at hreply
        obtain ⟨m', hm', heq⟩ := hreply
        cases heq
        exact echoes_of_reply h occasion msg m hm'

end Server

end Quorums
