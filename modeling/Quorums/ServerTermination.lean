import Quorums.ServerDispatch

/-! Which requests are answered on the wire. A streaming request is terminated by one end-of-stream
sentinel after everything else; a two-way request by one reply, unless its handler chose to send none.
The dispatcher's early exits do not all keep this: an interceptor's rejection of a streaming request
is answered without the sentinel, and a payload that does not decode is not answered at all. -/

namespace Quorums.Server

section

variable (srv : Server) (occasion : Occasion) (peerAddr : Option String) (msg : Message)

/-- The interceptor chain lets the message pass. -/
def Passes : Prop := runServer occasion ⟨msg.method, peerAddr⟩ srv.interceptors = .ok ()

instance : Decidable (Passes srv occasion peerAddr msg) :=
  match h : runServer occasion ⟨msg.method, peerAddr⟩ srv.interceptors with
  | .ok () => isTrue h
  | .error _ => isFalse fun hpass => by simp [Passes, h] at hpass

/-- The messages the task of `msg` emits under the sequence number of `msg`. -/
def answers : List Message :=
  (emissions (srv.taskEvents occasion peerAddr msg)).filter fun m => m.messageSeqNo == msg.messageSeqNo

/-- The messages contain exactly one end-of-stream sentinel, and it is the last of them. -/
def EndsInDone (out : List Message) : Prop :=
  ∃ before done, out = before ++ [done] ∧ done.statusCode = statusStreamDone ∧
    ∀ m ∈ before, m.statusCode ≠ statusStreamDone

/-- The task of `msg` terminates its request on the wire, for the handler `h` of its method. -/
def Terminated : Handler → Prop
  | .streaming _ => EndsInDone (answers srv occasion peerAddr msg)
  | .twoWay body =>
      (Passes srv occasion peerAddr msg ∧
        ∃ r, body occasion (ctxOf msg) msg.payload = some r ∧ r.result = .ok none) ∨
      (answers srv occasion peerAddr msg).length = 1

/-- The condition on the request: a streaming one passes the interceptors and decodes; a two-way one
is rejected by an interceptor, or decodes and its handler pushes nothing of its own beside its reply. -/
def Answerable : Handler → Prop
  | .streaming body =>
      Passes srv occasion peerAddr msg ∧ (body occasion (ctxOf msg) msg.payload).isSome
  | .twoWay body =>
      Passes srv occasion peerAddr msg →
        ∃ r, body occasion (ctxOf msg) msg.payload = some r ∧
          (r.result = .ok none ∨ r.acts.filterMap HandlerAct.pushed = [])

end

variable {srv : Server} {occasion : Occasion} {peerAddr : Option String} {msg : Message}

/-- Everything a task emits carries the sequence number of its request. -/
theorem answers_eq : answers srv occasion peerAddr msg =
    emissions (srv.taskEvents occasion peerAddr msg) := by
  rw [answers, List.filter_eq_self]
  intro m hm
  obtain ⟨e, he, hme⟩ := List.mem_filterMap.mp hm
  cases e with
  | emit m' =>
      cases hme
      rw [beq_iff_eq]
      exact (echoes_of_mem_taskEvents srv occasion peerAddr msg m he).1
  | _ => cases hme

theorem answers_rejected {status : Status}
    (h : runServer occasion ⟨msg.method, peerAddr⟩ srv.interceptors = .error status) :
    answers srv occasion peerAddr msg = [errorReply msg.messageSeqNo msg.method status] := by
  simp [answers_eq, taskEvents, h]

theorem answers_passed {h : Handler} (hpass : Passes srv occasion peerAddr msg)
    (hreg : srv.handlers.lookup msg.method = some h) :
    answers srv occasion peerAddr msg =
      emissions (h.erased occasion (ctxOf msg) msg).1 ++
        (h.erased occasion (ctxOf msg) msg).2.toList := by
  rw [Passes] at hpass
  rw [answers_eq, taskEvents, hpass, hreg, emissions_interceptors, emissions_append]
  congr 1
  cases (h.erased occasion (ctxOf msg) msg).2 <;> rfl

/-- A request that the handler cannot decode is not answered. -/
theorem answers_undecoded {h : Handler} (hpass : Passes srv occasion peerAddr msg)
    (hreg : srv.handlers.lookup msg.method = some h)
    (hnone : h.erased occasion (ctxOf msg) msg = ([.dropGuard], none)) :
    answers srv occasion peerAddr msg = [] := by
  rw [answers_passed hpass hreg, hnone]
  rfl

theorem passes_or_rejected (srv : Server) (occasion : Occasion) (peerAddr : Option String)
    (msg : Message) : Passes srv occasion peerAddr msg ∨
      ∃ status, runServer occasion ⟨msg.method, peerAddr⟩ srv.interceptors = .error status := by
  cases h : runServer occasion ⟨msg.method, peerAddr⟩ srv.interceptors with
  | ok u => exact Or.inl h
  | error status => exact Or.inr ⟨status, rfl⟩

theorem not_passes_of_rejected {status : Status}
    (h : runServer occasion ⟨msg.method, peerAddr⟩ srv.interceptors = .error status) :
    ¬Passes srv occasion peerAddr msg := by
  rw [Passes, h]
  exact fun hpass => by cases hpass

theorem endsInDone_append_done (before : List Message) (seq : Nat) (method : String)
    (hbefore : ∀ m ∈ before, m.statusCode ≠ statusStreamDone) :
    EndsInDone (before ++ [doneReply seq method]) :=
  ⟨before, doneReply seq method, rfl, rfl, hbefore⟩

theorem not_endsInDone_of_forall {out : List Message}
    (hout : ∀ m ∈ out, m.statusCode ≠ statusStreamDone) : ¬EndsInDone out := by
  rintro ⟨before, done, rfl, hdone, -⟩
  exact hout done (by simp) hdone

/-! ### Streaming handlers -/

/-- What a streaming request that reaches its handler is answered with. -/
theorem answers_streaming {body : Occasion → ServerCtx → Payload → Option (HandlerRun Unit)}
    (hpass : Passes srv occasion peerAddr msg)
    (hreg : srv.handlers.lookup msg.method = some (.streaming body)) {r : HandlerRun Unit}
    (hbody : body occasion (ctxOf msg) msg.payload = some r) :
    answers srv occasion peerAddr msg =
      (r.acts.filterMap HandlerAct.pushed).map (okReply msg.messageSeqNo msg.method) ++
        emissions (streamingError (ctxOf msg) r.result) ++
        [doneReply msg.messageSeqNo msg.method] := by
  rw [answers_passed hpass hreg, Handler.erased, hbody]
  simp [emissions_uses, ctxOf]

theorem streaming_terminated_iff {body : Occasion → ServerCtx → Payload → Option (HandlerRun Unit)}
    (hreg : srv.handlers.lookup msg.method = some (.streaming body)) :
    EndsInDone (answers srv occasion peerAddr msg) ↔
      Passes srv occasion peerAddr msg ∧ (body occasion (ctxOf msg) msg.payload).isSome := by
  rcases passes_or_rejected srv occasion peerAddr msg with hpass | ⟨status, hrej⟩
  · cases hbody : body occasion (ctxOf msg) msg.payload with
    | none =>
        have hnone : answers srv occasion peerAddr msg = [] :=
          answers_undecoded hpass hreg (by simp [Handler.erased, hbody])
        rw [hnone]
        refine ⟨fun h => absurd h (not_endsInDone_of_forall (by simp)), fun h => ?_⟩
        simp at h
    | some r =>
        refine ⟨fun _ => ⟨hpass, rfl⟩, fun _ => ?_⟩
        rw [answers_streaming hpass hreg hbody]
        apply endsInDone_append_done
        intro m hm
        rcases List.mem_append.mp hm with hpush | herr
        · obtain ⟨payload, -, rfl⟩ := List.mem_map.mp hpush
          simp [okReply, statusStreamDone]
        · cases hres : r.result with
          | ok u => simp [hres, streamingError] at herr
          | error status =>
              simp only [hres, streamingError, emissions_emit, emissions_nil,
                List.mem_singleton] at herr
              subst herr
              exact asU32_ne_streamDone status.code
  · rw [answers_rejected hrej]
    refine ⟨fun h => absurd h (not_endsInDone_of_forall ?_),
      fun h => absurd h.1 (not_passes_of_rejected hrej)⟩
    intro m hm
    rw [List.mem_singleton] at hm
    subst hm
    exact asU32_ne_streamDone status.code

/-! ### Two-way handlers -/

theorem answers_twoWay {body : Occasion → ServerCtx → Payload → Option (HandlerRun (Option Payload))}
    (hpass : Passes srv occasion peerAddr msg)
    (hreg : srv.handlers.lookup msg.method = some (.twoWay body)) {r : HandlerRun (Option Payload)}
    (hbody : body occasion (ctxOf msg) msg.payload = some r) :
    answers srv occasion peerAddr msg =
      (r.acts.filterMap HandlerAct.pushed).map (okReply msg.messageSeqNo msg.method) ++
        (twoWayReply msg r.result).toList := by
  rw [answers_passed hpass hreg, Handler.erased, hbody]
  simp [emissions_uses, ctxOf]

theorem twoWayReply_length (msg : Message) {result : Except Status (Option Payload)}
    (h : result ≠ .ok none) : (twoWayReply msg result).toList.length = 1 := by
  match result with
  | .ok none => exact absurd rfl h
  | .ok (some payload) => rfl
  | .error status => rfl

theorem twoWay_terminated_iff
    {body : Occasion → ServerCtx → Payload → Option (HandlerRun (Option Payload))}
    (hreg : srv.handlers.lookup msg.method = some (.twoWay body)) :
    Terminated srv occasion peerAddr msg (.twoWay body) ↔
      Answerable srv occasion peerAddr msg (.twoWay body) := by
  rw [Terminated, Answerable]
  rcases passes_or_rejected srv occasion peerAddr msg with hpass | ⟨status, hrej⟩
  · cases hbody : body occasion (ctxOf msg) msg.payload with
    | none =>
        have hnone : answers srv occasion peerAddr msg = [] :=
          answers_undecoded hpass hreg (by simp [Handler.erased, hbody])
        simp [hnone, hpass]
    | some r =>
        simp only [Option.some.injEq, exists_eq_left']
        by_cases hres : r.result = .ok none
        · exact ⟨fun _ _ => Or.inl hres, fun _ => Or.inl ⟨hpass, hres⟩⟩
        · rw [answers_twoWay hpass hreg hbody, List.length_append, twoWayReply_length msg hres]
          simp [hres, hpass]
  · have hnot := not_passes_of_rejected hrej
    rw [answers_rejected hrej]
    exact ⟨fun _ hpass => absurd hpass hnot, fun _ => Or.inr rfl⟩

/-- A request whose method has a handler is terminated on the wire exactly when it is answerable. -/
theorem terminated_iff_answerable (srv : Server) (occasion : Occasion) (peerAddr : Option String)
    (msg : Message) (h : Handler) (hreg : srv.handlers.lookup msg.method = some h) :
    Terminated srv occasion peerAddr msg h ↔ Answerable srv occasion peerAddr msg h := by
  cases h with
  | twoWay body => exact twoWay_terminated_iff hreg
  | streaming body => exact streaming_terminated_iff hreg

/-- A server with one streaming method, whose handler releases the guard and pushes one value. -/
def streamingServer : Server :=
  registerStreamingHandler ⟨∅, []⟩ "/svc/Stream" boolCodec fun _ _ _ => ⟨[.release, .send [8, 1]], true, .ok ()⟩

/-- A request of that method; the payload is its only free part. -/
def streamRequest (payload : Payload) : Message := ⟨7, "/svc/Stream", 0, "", payload, []⟩

theorem terminated_iff_answerable_streamRequest :
    ∃ h, streamingServer.handlers.lookup (streamRequest [8, 1]).method = some h ∧
      (Terminated streamingServer (0, 0) none (streamRequest [8, 1]) h ↔
        Answerable streamingServer (0, 0) none (streamRequest [8, 1]) h) :=
  ⟨_, rfl, terminated_iff_answerable streamingServer (0, 0) none (streamRequest [8, 1]) _ rfl⟩

/-- The payload `0xFF` is no varint: nothing at all is sent back, and the caller waits for ever. -/
theorem undecodable_stream_not_terminated :
    ∃ h, streamingServer.handlers.lookup (streamRequest [255]).method = some h ∧
      answers streamingServer (0, 0) none (streamRequest [255]) = [] ∧
      ¬Terminated streamingServer (0, 0) none (streamRequest [255]) h := by
  refine ⟨_, rfl, rfl, fun hterm => ?_⟩
  have hanswers : answers streamingServer (0, 0) none (streamRequest [255]) = [] := rfl
  rw [Terminated, hanswers] at hterm
  exact not_endsInDone_of_forall (by simp) hterm

end Quorums.Server
