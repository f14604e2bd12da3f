import Mathlib.Logic.Encodable.Basic
import Mathlib.Logic.Equiv.List
import Quorums.BaseMap
import Quorums.HealthProbe
import Quorums.NodeStarts

/-! The store of `key_value.rs` behind a node. A handler locks the map for the whole of its run, so that the runs
of all connections follow one another in some order. A client's calls over one stream take their places in this
order as they were sent: a read sees the writes that were sent before it. -/

namespace Quorums

open Server

/-- `Server::new`. `request` is the encoding of `HealthCheckRequest`. -/
def Server.new (request : Codec Unit) : Server :=
  registerHandler ⟨∅, []⟩ Health.healthMethod request boolCodec fun _ _ _ => ⟨[], false, .ok (some true)⟩

/-- A registered handler runs on every request that was encoded for it. -/
theorem Server.exists_body_registerHandler {Req Resp : Type} (srv : Server) (method : String) (req : Codec Req)
    (resp : Codec Resp) (handler : Occasion → ServerCtx → Req → HandlerRun (Option Resp)) :
    ∃ body, (srv.registerHandler method req resp handler).handlers.lookup method = some (.twoWay body) ∧
      ∀ occasion ctx x, body occasion ctx (req.encode x) = some ((handler occasion ctx x).encode resp) := by
  refine ⟨_, AList.lookup_insert _, ?_⟩
  intro occasion ctx x
  rw [req.decode_encode]

theorem Server.taskEvents_twoWay {srv : Server} {occasion : Occasion} {peerAddr : Option String} {msg : Message}
    {body : Occasion → ServerCtx → Payload → Option (HandlerRun (Option Payload))}
    (hpass : Passes srv occasion peerAddr msg) (hlookup : srv.handlers.lookup msg.method = some (.twoWay body))
    {r : HandlerRun (Option Payload)} (hbody : body occasion (ctxOf msg) msg.payload = some r) :
    srv.taskEvents occasion peerAddr msg =
      .interceptors :: .handler :: (r.uses (ctxOf msg) ++
        .dropGuard :: ((twoWayReply msg r.result).map TaskEvent.emit).toList) := by
  rw [Passes] at hpass
  unfold taskEvents
  rw [hpass, hlookup]
  simp only [Handler.erased, hbody]
  rw [List.cons_append, List.append_assoc]
  rfl

namespace KeyValue

structure ReadRequest where
  key : String
  deriving DecidableEq, Repr

structure ReadResponse where
  ok : Bool
  value : String
  deriving DecidableEq, Repr

structure WriteRequest where
  key : String
  value : String
  deriving DecidableEq, Repr

/-- The message types of `storage.proto`, the empty message and that of the health check. -/
structure Codecs where
  readRequest : Codec ReadRequest
  readResponse : Codec ReadResponse
  writeRequest : Codec WriteRequest
  empty : Codec Unit
  health : Codec Unit

/-- The map of a `KvStore`. -/
abbrev Data := AList fun _ : String => String

/-- `KvStore::read`. -/
def read (data : Data) (req : ReadRequest) : ReadResponse :=
  match data.lookup req.key with
  | some v => ⟨true, v⟩
  | none => ⟨false, ""⟩

/-- `KvStore::write`. -/
def write (data : Data) (req : WriteRequest) : Data := data.insert req.key req.value

def readPath : String := "/storage.Storage/Read"

def writePath : String := "/storage.Storage/Write"

/-- The server that `spawn_node` starts. `view` is the map as a handler finds it. -/
def server (c : Codecs) (view : Occasion → Data) : Server :=
  (((Server.new c.health).withInterceptor fun _ _ => .ok ()).registerHandler readPath c.readRequest c.readResponse
    fun occasion _ req => ⟨[], true, .ok (some (read (view occasion) req))⟩).registerHandler
      writePath c.writeRequest c.empty fun _ _ _ => ⟨[], true, .ok none⟩

section Handlers

variable {c : Codecs} {view : Occasion → Data} {occasion : Occasion} {peerAddr : Option String} {msg : Message}

theorem passes_server : Passes (server c view) occasion peerAddr msg := rfl

/-- A read takes what is in the map. -/
theorem taskEvents_read (hmethod : msg.method = readPath) {req : ReadRequest}
    (hpayload : msg.payload = c.readRequest.encode req) :
    (server c view).taskEvents occasion peerAddr msg = [.interceptors, .handler, .dropGuard,
      .emit (okReply msg.messageSeqNo readPath (c.readResponse.encode (read (view occasion) req)))] := by
  obtain ⟨body, hlookup, hbody⟩ := exists_body_registerHandler
    ((Server.new c.health).withInterceptor fun _ _ => .ok ()) readPath c.readRequest c.readResponse
    fun occasion _ req => ⟨[], true, .ok (some (read (view occasion) req))⟩
  have hserver : (server c view).handlers.lookup msg.method = some (.twoWay body) := by
    rw [hmethod, ← hlookup]
    exact AList.lookup_insert_ne (by decide)
  rw [taskEvents_twoWay passes_server hserver (by rw [hpayload]; exact hbody occasion _ req), ← hmethod]
  rfl

theorem taskEvents_write (hmethod : msg.method = writePath) {req : WriteRequest}
    (hpayload : msg.payload = c.writeRequest.encode req) :
    (server c view).taskEvents occasion peerAddr msg = [.interceptors, .handler, .dropGuard] := by
  obtain ⟨body, hlookup, hbody⟩ := exists_body_registerHandler
    (((Server.new c.health).withInterceptor fun _ _ => .ok ()).registerHandler readPath c.readRequest c.readResponse
      fun occasion _ req => ⟨[], true, .ok (some (read (view occasion) req))⟩) writePath c.writeRequest c.empty
    fun _ _ _ => ⟨[], true, .ok none⟩
  have hserver : (server c view).handlers.lookup msg.method = some (.twoWay body) := by
    rw [hmethod, ← hlookup]
    rfl
  rw [taskEvents_twoWay passes_server hserver (by rw [hpayload]; exact hbody occasion _ req)]
  rfl

end Handlers

/-! ### The order of the runs -/

/-- A run of a handler: for message `i` of stream `k` of the client, or a write of someone else. -/
inductive Entry where
  | own (k i : Nat) (msg : Message)
  | foreign (req : WriteRequest)

def Entry.own? : Entry → Option (Nat × Nat × Message)
  | .own k i msg => some (k, i, msg)
  | .foreign _ => none

/-- What the run writes. -/
def Entry.write? (c : Codecs) : Entry → Option WriteRequest
  | .own _ _ msg =>
      if msg.method = writePath then
        match c.writeRequest.decode msg.payload with
        | .ok req => some req
        | .error _ => none
      else none
  | .foreign req => some req

/-- The map after some runs. -/
def contents (c : Codecs) (history : List Entry) : Data := (history.filterMap (Entry.write? c)).foldl write ∅

/-- The handlers that have started ran one after the other, among those of other clients, and each of them found
the map as the ones before it had left it. -/
structure Atomic (c : Codecs) (view : Occasion → Data) (starts : List (Nat × Nat × Message)) (history : List Entry) :
    Prop where
  own : history.filterMap Entry.own? = starts
  sees : ∀ pre k i msg post, history = pre ++ .own k i msg :: post → view (k, i) = contents c pre

section History

variable {c : Codecs} {view : Occasion → Data} {starts : List (Nat × Nat × Message)} {history : List Entry}
  {k i : Nat} {msg : Message}

theorem Atomic.mem_own (h : Atomic c view starts history) : .own k i msg ∈ history ↔ (k, i, msg) ∈ starts := by
  rw [← h.own, List.mem_filterMap]
  constructor
  · intro hmem
    exact ⟨_, hmem, rfl⟩
  · rintro ⟨e, he, heq⟩
    cases e with
    | own k' i' msg' =>
        cases heq
        exact he
    | foreign req => cases heq

/-- After a write of a key, the map has the value of this write or of a later one. -/
theorem lookup_contents (pre post : List Entry) {e : Entry} {req : WriteRequest} (he : e.write? c = some req) :
    ∃ value, (contents c (pre ++ e :: post)).lookup req.key = some value ∧
      (value = req.value ∨ ∃ e' ∈ post, e'.write? c = some ⟨req.key, value⟩) := by
  have hlookup (writes : List WriteRequest) (key : String) : (writes.foldl write ∅).lookup key =
      ((writes.reverse.find? fun x => x.key = key).map WriteRequest.value).or none :=
    HashMap.lookup_foldl_insert WriteRequest.key WriteRequest.value writes ∅ key
  unfold contents
  rw [hlookup, List.filterMap_append, List.filterMap_cons, he, List.reverse_append, List.reverse_cons,
    List.find?_append, List.find?_append]
  cases hfind : (post.filterMap (Entry.write? c)).reverse.find? fun x => decide (x.key = req.key) with
  | none =>
      refine ⟨req.value, ?_, Or.inl rfl⟩
      simp
  | some req' =>
      have hkey : req'.key = req.key := by simpa using List.find?_some hfind
      refine ⟨req'.value, by simp, Or.inr ?_⟩
      obtain ⟨e', he', heq⟩ := List.mem_filterMap.mp (List.mem_reverse.mp (List.mem_of_find?_eq_some hfind))
      refine ⟨e', he', ?_⟩
      rw [heq, ← hkey]

end History

/-! ### A client -/

open Node

/-- A call of the generated `read`. -/
def IsRead (c : Codecs) (call : Call) (req : ReadRequest) : Prop :=
  call.method = readPath ∧ call.payload = c.readRequest.encode req

/-- A call of the generated `write`. -/
def IsWrite (c : Codecs) (call : Call) (req : WriteRequest) : Prop :=
  call.method = writePath ∧ call.payload = c.writeRequest.encode req

/-- What was handed to a stream and received there. -/
theorem exists_task_of_handed {srv : Server} {peerAddr : Option String} {calls : List Call} {st : Stream}
    (h : Wired srv peerAddr calls st) {i a : Nat} {call : Call} (hi : st.handed[i]? = some a)
    (hcall : calls[a]? = some call) (hlt : i < st.server.tasks.length) :
    ∃ x, st.server.tasks[i]? = some x ∧ x.msg = call.wire := by
  refine ⟨st.server.tasks[i], List.getElem?_eq_getElem hlt, ?_⟩
  obtain ⟨hlength, hrequests⟩ := List.forall₂_iff_get.mp h.sent
  obtain ⟨hi', hget⟩ := List.getElem?_eq_some_iff.mp hi
  have hi'' : i < (st.server.tasks.map Task.msg ++ st.server.inbound).length := by
    rw [← hlength]
    exact hi'
  obtain ⟨call', hcall', -, hwire⟩ := hrequests i hi' hi''
  rw [List.get_eq_getElem, hget, hcall, Option.some.injEq] at hcall'
  rw [List.get_eq_getElem, List.getElem_append_left (by rw [List.length_map]; exact hlt), List.getElem_map] at hwire
  rw [hwire, hcall']

/-- **A read sees the writes before it.** For every run of a node and of the server behind it in which no task
panics, whatever other clients do: a read that is answered has its place in the order of the handlers' runs, and its
response is what the writes before it, of all clients, have left of its key. A write that was sent before it over
the same stream is among these; so if it has the same key, then the read gives its value or that of a later write. -/
theorem read_own_writes (c : Codecs) (view : Occasion → Data) (peerAddr : Option String) (acts : List Act)
    (s : State) (hrun : Transition.run (step (server c view) peerAddr) init acts = some s)
    (hbound : s.calls.length ≤ 2 ^ 64) (hpanic : ∀ k i, .server k (.panic i) ∉ acts) (history : List Entry)
    (hatomic : Atomic c view (Transition.trace (step (server c view) peerAddr) startsOf init acts) history)
    (a : Nat) (call : Call) (hcall : s.calls[a]? = some call) (req : ReadRequest) (hread : IsRead c call req)
    (m : Message) (hm : .ok m ∈ (s.router.boxes a).items) :
    ∃ k st i pre post, s.streams[k]? = some st ∧ st.handed[i]? = some a ∧
      history = pre ++ .own k i call.wire :: post ∧
      decodePayload c.readResponse m = .ok (read (contents c pre) req) ∧
      ∀ j b call' wreq, j < i → st.handed[j]? = some b → s.calls[b]? = some call' → IsWrite c call' wreq →
        ∃ pre' mid, pre = pre' ++ .own k j call'.wire :: mid ∧
          (wreq.key = req.key → ∃ value, read (contents c pre) req = ⟨true, value⟩ ∧
            (value = wreq.value ∨ ∃ e ∈ mid, e.write? c = some ⟨req.key, value⟩)) := by
  have hinv := node_inv_run hrun hbound
  have hstarted := started_run hpanic hrun
  obtain ⟨st, hst, i, call₀, hi, hcall₀, -, hout, hemit⟩ := hinv.proven a m hm
  obtain rfl : call₀ = call := Option.some.inj (hcall₀.symm.trans hcall)
  obtain ⟨k, hk⟩ := List.getElem?_of_mem hst
  have hkeeps := hstarted.stream k st hk
  have hwired := hinv.wired st hst
  -- the task of the read
  obtain ⟨x, hx, hmsg⟩ := exists_task_of_handed hwired hi hcall (hkeeps.paced.known i m hout)
  have hevents : (server c view).taskEvents (k, i) peerAddr call₀.wire = _ := taskEvents_read hread.1 hread.2
  rw [hkeeps.id, hevents] at hemit
  have hm' : m = okReply call₀.wire.messageSeqNo readPath (c.readResponse.encode (read (view (k, i)) req)) := by
    simpa using hemit
  have hmem := hstarted.mem_of_outbound hk hx (by rw [hmsg, hevents]; simp) hout
  rw [hmsg, ← hatomic.mem_own] at hmem
  obtain ⟨pre, post, hhistory⟩ := List.append_of_mem hmem
  have hview := hatomic.sees pre k i call₀.wire post hhistory
  refine ⟨k, st, i, pre, post, hk, hi, hhistory, ?_, ?_⟩
  · rw [hm', hview, decodePayload, okReply, c.readResponse.decode_encode]
  · intro j b call' wreq hji hj hcall' hwrite
    -- the task of the write
    have hlt := (List.getElem?_eq_some_iff.mp hx).1
    obtain ⟨y, hy, hmsg'⟩ := exists_task_of_handed hwired hj hcall' (Nat.lt_trans hji hlt)
    have hevents' : (server c view).taskEvents (k, j) peerAddr call'.wire = _ := taskEvents_write hwrite.1 hwrite.2
    have hmem' := hstarted.mem_of_lt hk hy hji hlt (by rw [hmsg', hevents']; simp)
    rw [hmsg', ← hatomic.mem_own, hhistory] at hmem'
    have hpre : .own k j call'.wire ∈ pre := by
      rcases List.mem_append.mp hmem' with hpre | hpost
      · exact hpre
      · -- it has started before the read
        exfalso
        rcases List.mem_cons.mp hpost with heq | hpost
        · rw [Entry.own.injEq] at heq
          exact Nat.ne_of_lt hji heq.2.1
        · have hsub : [.own k i call₀.wire, .own k j call'.wire].Sublist history := by
            rw [hhistory]
            exact ((List.singleton_sublist.mpr hpost).cons_cons _).trans (List.sublist_append_right _ _)
          have hstarts := hsub.filterMap Entry.own?
          rw [hatomic.own] at hstarts
          have hlt' := hstarted.lt_of_sublist hstarts
          omega
    obtain ⟨pre', mid, hsplit⟩ := List.append_of_mem hpre
    refine ⟨pre', mid, hsplit, fun hkey => ?_⟩
    have hwritten : (Entry.own k j call'.wire).write? c = some wreq := by
      show (if call'.method = writePath then _ else none) = _
      rw [if_pos hwrite.1]
      show (match c.writeRequest.decode call'.payload with
        | .ok req => some req
        | .error _ => none) = _
      rw [hwrite.2, c.writeRequest.decode_encode]
    obtain ⟨value, hvalue, hlast⟩ := lookup_contents pre' mid hwritten
    rw [hkey] at hvalue hlast
    refine ⟨value, ?_, hlast⟩
    rw [hsplit, read, hvalue]

/-! ### A write and a read -/

instance encodableChar : Encodable Char := Encodable.ofLeftInverse Char.toNat Char.ofNat Char.ofNat_toNat

instance encodableString : Encodable String :=
  Encodable.ofLeftInverse String.toList String.ofList fun _ => String.ofList_toList

instance ReadRequest.encodable : Encodable ReadRequest :=
  Encodable.ofLeftInverse ReadRequest.key ReadRequest.mk fun _ => rfl

instance ReadResponse.encodable : Encodable ReadResponse :=
  Encodable.ofLeftInverse (fun r => (r.ok, r.value)) (fun p => ⟨p.1, p.2⟩) fun _ => rfl

instance WriteRequest.encodable : Encodable WriteRequest :=
  Encodable.ofLeftInverse (fun r => (r.key, r.value)) (fun p => ⟨p.1, p.2⟩) fun _ => rfl

/-- Some encoding of a type, which is `bytes` for the message `x₀`. -/
def codecAt {T : Type} [DecidableEq T] [Encodable T] (x₀ : T) (bytes : Payload) : Codec T where
  encode x := if x = x₀ then bytes else bytes ++ List.replicate (Encodable.encode x + 1) 0
  decode payload :=
    if payload = bytes then .ok x₀
    else (Encodable.decode (payload.length - bytes.length - 1)).elim (.error "invalid message") .ok
  decode_encode x := by
    by_cases hx : x = x₀
    · rw [if_pos hx, if_pos rfl, hx]
    · have hlength : (bytes ++ List.replicate (Encodable.encode x + 1) 0).length =
          bytes.length + (Encodable.encode x + 1) := by
        rw [List.length_append, List.length_replicate]
      have hne : bytes ++ List.replicate (Encodable.encode x + 1) 0 ≠ bytes := by
        intro heq
        rw [heq] at hlength
        omega
      rw [if_neg hx, if_neg hne, hlength, Nat.add_sub_cancel_left, Nat.add_sub_cancel, Encodable.encodek,
        Option.elim_some]

/-- The encodings of the messages that follow. -/
def sampleCodecs : Codecs where
  readRequest := codecAt ⟨"k"⟩ [10, 1, 107]
  readResponse := codecAt ⟨true, "v"⟩ [8, 1, 18, 1, 118]
  writeRequest := codecAt ⟨"k", "v"⟩ [10, 1, 107, 18, 1, 118]
  empty := emptyCodec
  health := emptyCodec

/-- The map as the read finds it, and as the write does. -/
def sampleView : Occasion → Data
  | (0, 1) => write ∅ ⟨"k", "v"⟩
  | _ => ∅

/-- A write and a read of the same key go out, run, and the read is answered. -/
def writeThenRead : List Act :=
  [.connectOk, .openOk, .issue .oneWay writePath [10, 1, 107, 18, 1, 118] [], .nextSeq 0, .enqueue 0,
    .issue .oneShot readPath [10, 1, 107] [], .nextSeq 1, .enqueue 1,
    .recvRequest, .register, .send, .ack, .recvRequest, .register, .send, .ack,
    .server 0 .lock, .server 0 .recv, .server 0 (.run 0), .server 0 (.run 0), .server 0 (.run 0),
    .server 0 .lock, .server 0 .recv, .server 0 (.run 1), .server 0 (.run 1), .server 0 (.run 1), .server 0 (.run 1),
    .fetch 0, .handle 0]

/-- The node after these steps. -/
def writeThenReadEnd : State :=
  (Transition.run (step (server sampleCodecs sampleView) none) init writeThenRead).getD init

theorem run_writeThenRead :
    Transition.run (step (server sampleCodecs sampleView) none) init writeThenRead = some writeThenReadEnd := by
  rfl

/-- The runs of the two handlers. -/
def writeThenReadHistory : List Entry :=
  [.own 0 0 (buildWireMessage 1 writePath [10, 1, 107, 18, 1, 118] []),
    .own 0 1 (buildWireMessage 2 readPath [10, 1, 107] [])]

theorem atomic_writeThenRead : Atomic sampleCodecs sampleView
    (Transition.trace (step (server sampleCodecs sampleView) none) startsOf init writeThenRead)
    writeThenReadHistory where
  own := by rfl
  sees := by
    intro pre k i msg post h
    rcases pre with _ | ⟨e, _ | ⟨e', pre⟩⟩
    · cases h
      rfl
    · cases h
      rfl
    · cases pre <;> cases h

theorem read_own_writes_writeThenRead : ∃ m, .ok m ∈ (writeThenReadEnd.router.boxes 1).items ∧
    decodePayload sampleCodecs.readResponse m = .ok ⟨true, "v"⟩ := by
  have hbox : .ok (okReply 2 readPath [8, 1, 18, 1, 118]) ∈ (writeThenReadEnd.router.boxes 1).items :=
    List.mem_singleton.mpr rfl
  have hpanic : ∀ k i, .server k (.panic i) ∉ writeThenRead := by
    intro k i h
    simp [writeThenRead] at h
  obtain ⟨k, st, i, pre, post, -, -, hhistory, hresponse, -⟩ :=
    read_own_writes sampleCodecs sampleView none writeThenRead writeThenReadEnd run_writeThenRead (by decide) hpanic
      writeThenReadHistory atomic_writeThenRead 1 _ rfl ⟨"k"⟩ ⟨rfl, rfl⟩ _ hbox
  refine ⟨_, hbox, ?_⟩
  rw [hresponse]
  -- the write has run before
  rcases pre with _ | ⟨e, _ | ⟨e', pre⟩⟩
  · cases hhistory
  · cases hhistory
    rfl
  · cases pre <;> cases hhistory

end KeyValue

end Quorums
