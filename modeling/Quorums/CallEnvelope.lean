import Quorums.ClientRouter
import Quorums.ServerTermination

/-! The result envelope: what the server makes of a verdict on a two-way request, and what the caller
makes of the message. Success, error and end of stream are told apart by the one integer `status_code`.
A status whose code is `Ok` is written as success and read as success. -/

namespace Quorums

open Server

/-- What the server decides about a two-way request: an interceptor rejects it, or its handler returns. -/
inductive Verdict (Resp : Type) where
  | rejected (status : Status)
  | returned (result : Except Status (Option Resp))

namespace Verdict

variable {Req Resp : Type}

/-- The verdict on `wire`, if its payload decodes. -/
def of (srv : Server) (req : Codec Req) (handler : Occasion → ServerCtx → Req → HandlerRun (Option Resp))
    (occasion : Occasion) (peerAddr : Option String) (wire : Message) : Option (Verdict Resp) :=
  match runServer occasion ⟨wire.method, peerAddr⟩ srv.interceptors with
  | .error status => some (.rejected status)
  | .ok () =>
      match decodePayload req wire with
      | .error _ => none
      | .ok r => some (.returned (handler occasion (ctxOf wire) r).result)

/-- The message a verdict is turned into. -/
def reply (resp : Codec Resp) (wire : Message) : Verdict Resp → Option Message
  | .rejected status => some (errorReply wire.messageSeqNo wire.method status)
  | .returned result => twoWayReply wire (result.map (Option.map (encodePayload resp)))

/-- The status of a verdict that is an error. -/
def error? : Verdict Resp → Option Status
  | .rejected status => some status
  | .returned (.error status) => some status
  | .returned (.ok _) => none

/-- What the caller is meant to get. -/
def expected : Verdict Resp → Option (Except Error Resp)
  | .rejected status => some (.error (.transport status))
  | .returned (.error status) => some (.error (.transport status))
  | .returned (.ok (some resp)) => some (.ok resp)
  | .returned (.ok none) => none

end Verdict

/-- The end of `rpc_call`, once the reply is there: an error is passed on, a message is decoded. -/
def rpcReturn {Resp : Type} (resp : Codec Resp) : Reply → Except Error Resp
  | .error e => .error e
  | .ok wire =>
      match decodePayload resp wire with
      | .error text => .error (.codec text)
      | .ok r => .ok r

/-- What the caller of a one-shot call gets after the receive loop has handled the messages. -/
def rpcOutcome {Resp : Type} (resp : Codec Resp) (r : Router) (c : Nat) (messages : List Message) :
    Option (Except Error Resp) :=
  ((messages.foldl Router.receive r).boxes c).items.head?.map (rpcReturn resp)

section

variable {Req Resp : Type} {resp : Codec Resp} {wire : Message} {v : Verdict Resp}

theorem Router.resultOf_okReply (seq : Nat) (method : String) (payload : Payload) :
    Router.resultOf (okReply seq method payload) = .ok (okReply seq method payload) := if_pos rfl

theorem Router.resultOf_errorReply (seq : Nat) (method : String) {status : Status}
    (hcode : status.code ≠ .ok) :
    Router.resultOf (errorReply seq method status) = .error (.transport status) := by
  have hne : (errorReply seq method status).statusCode ≠ 0 := by
    rw [errorReply, Ne, Code.asU32_eq_zero]
    exact hcode
  rw [Router.resultOf, if_neg hne, errorReply, asI32_asU32, Code.fromI32_asU32]

/-- A status with code `Ok` travels as a success. -/
theorem Router.resultOf_errorReply_ok (seq : Nat) (method : String) {status : Status}
    (hcode : status.code = .ok) :
    Router.resultOf (errorReply seq method status) = .ok (errorReply seq method status) := by
  rw [Router.resultOf, if_pos]
  rw [errorReply, Code.asU32_eq_zero]
  exact hcode

/-- No reply is the end-of-stream sentinel. -/
theorem Verdict.reply_ne_streamDone {m : Message} (hm : v.reply resp wire = some m) :
    m.statusCode ≠ statusStreamDone := by
  cases v with
  | rejected status =>
      cases hm
      exact asU32_ne_streamDone status.code
  | returned result =>
      match result with
      | .ok none => cases hm
      | .ok (some r) =>
          cases hm
          simp [okReply, statusStreamDone]
      | .error status =>
          cases hm
          exact asU32_ne_streamDone status.code

/-- A reply carries the number of the request. -/
theorem Verdict.reply_seq {m : Message} (hm : v.reply resp wire = some m) :
    m.messageSeqNo = wire.messageSeqNo := by
  cases v with
  | rejected status =>
      cases hm
      rfl
  | returned result =>
      match result with
      | .ok none => cases hm
      | .ok (some r) =>
          cases hm
          rfl
      | .error status =>
          cases hm
          rfl

/-- The pending one-shot caller of a message is sent its result. -/
theorem Router.items_receive_response {r : Router} {c : Nat} {m : Message}
    (hpending : r.inner.lookup m.messageSeqNo = some (.response c)) (hempty : r.boxes c = Mailbox.empty)
    (hdone : m.statusCode ≠ statusStreamDone) :
    ((r.receive m).boxes c).items = [Router.resultOf m] := by
  rw [Router.boxes_receive, hpending]
  dsimp only
  rw [if_neg hdone, PendingCall.caller, Function.update_self, hempty]
  rfl

theorem rpcOutcome_reply {r : Router} {c : Nat}
    (hpending : r.inner.lookup wire.messageSeqNo = some (.response c)) (hempty : r.boxes c = Mailbox.empty) :
    rpcOutcome resp r c (v.reply resp wire).toList =
      (v.reply resp wire).map fun m => rpcReturn resp (Router.resultOf m) := by
  cases hm : v.reply resp wire with
  | none =>
      rw [rpcOutcome, Option.toList_none, List.foldl_nil, hempty]
      rfl
  | some m =>
      rw [← Verdict.reply_seq hm] at hpending
      have hitems := Router.items_receive_response hpending hempty (Verdict.reply_ne_streamDone hm)
      rw [rpcOutcome, Option.toList_some, List.foldl_cons, List.foldl_nil, hitems]
      rfl

/-- A successful message is never read as a transport error. -/
theorem rpcReturn_ok_ne_transport (m : Message) (status : Status) :
    rpcReturn resp (.ok m) ≠ .error (.transport status) := by
  rw [rpcReturn]
  split <;> simp

theorem rpcReturn_okReply (seq : Nat) (method : String) (x : Resp) :
    rpcReturn resp (.ok (okReply seq method (encodePayload resp x))) = .ok x := by
  rw [rpcReturn, decodePayload, okReply, encodePayload, resp.decode_encode]

/-- An error verdict arrives as that error exactly when its code is not `Ok`. -/
theorem rpcReturn_errorReply_iff (seq : Nat) (method : String) (status : Status) :
    rpcReturn resp (Router.resultOf (errorReply seq method status)) = .error (.transport status) ↔
      status.code ≠ .ok := by
  constructor
  · intro h hcode
    rw [Router.resultOf_errorReply_ok seq method hcode] at h
    exact rpcReturn_ok_ne_transport _ _ h
  · intro hcode
    rw [Router.resultOf_errorReply seq method hcode, rpcReturn]

/-- The reply is the last thing the task of the request emits. -/
theorem Verdict.reply_suffix_answers {srv : Server} {req : Codec Req}
    {handler : Occasion → ServerCtx → Req → HandlerRun (Option Resp)} {occasion : Occasion}
    {peerAddr : Option String} (hv : Verdict.of srv req handler occasion peerAddr wire = some v) :
    (v.reply resp wire).toList <:+
      answers (srv.registerHandler wire.method req resp handler) occasion peerAddr wire := by
  have hreg : (srv.registerHandler wire.method req resp handler).handlers.lookup wire.method =
      some (.twoWay fun occasion ctx payload =>
        match req.decode payload with
        | .error _ => none
        | .ok r => some ((handler occasion ctx r).encode resp)) := AList.lookup_insert _
  rw [Verdict.of] at hv
  split at hv
  · rename_i status hrej
    cases hv
    have hanswers : answers (srv.registerHandler wire.method req resp handler) occasion peerAddr wire =
        [errorReply wire.messageSeqNo wire.method status] := answers_rejected hrej
    rw [hanswers]
    exact List.suffix_refl _
  · rename_i hpass
    split at hv
    · cases hv
    · rename_i x hdecode
      cases hv
      have hpasses : Passes (srv.registerHandler wire.method req resp handler) occasion peerAddr wire :=
        hpass
      rw [decodePayload] at hdecode
      rw [answers_twoWay hpasses hreg (by rw [hdecode])]
      exact List.suffix_append _ _

/-- **The result envelope.** For every verdict on every two-way request: the reply is the last message
the request's task emits and never the end-of-stream sentinel; and a caller who is waiting for it gets
what the verdict says exactly when the verdict is not an error status with the code `Ok`. -/
theorem envelope_roundtrip_iff (srv : Server) (req : Codec Req) (resp : Codec Resp)
    (handler : Occasion → ServerCtx → Req → HandlerRun (Option Resp)) (occasion : Occasion)
    (peerAddr : Option String) (wire : Message) (v : Verdict Resp)
    (hv : Verdict.of srv req handler occasion peerAddr wire = some v) (r : Router) (c : Nat)
    (hpending : r.inner.lookup wire.messageSeqNo = some (.response c))
    (hempty : r.boxes c = Mailbox.empty) :
    (v.reply resp wire).toList <:+
        answers (srv.registerHandler wire.method req resp handler) occasion peerAddr wire ∧
      (∀ m, v.reply resp wire = some m → m.statusCode ≠ statusStreamDone) ∧
      (rpcOutcome resp r c (v.reply resp wire).toList = v.expected ↔
        ∀ status, v.error? = some status → status.code ≠ .ok) := by
  refine ⟨Verdict.reply_suffix_answers hv, fun m hm => Verdict.reply_ne_streamDone hm, ?_⟩
  rw [rpcOutcome_reply hpending hempty]
  have herror : ∀ status : Status,
      (some (rpcReturn resp (Router.resultOf (errorReply wire.messageSeqNo wire.method status))) =
          some (Except.error (Error.transport status)) ↔
        ∀ x, some status = some x → x.code ≠ .ok) := by
    intro status
    rw [Option.some.injEq, rpcReturn_errorReply_iff]
    constructor
    · intro hcode x hx
      rw [← Option.some.inj hx]
      exact hcode
    · intro h
      exact h status rfl
  cases v with
  | rejected status => exact herror status
  | returned result =>
      match result with
      | .error status => exact herror status
      | .ok none => exact ⟨fun _ status hstatus => (by cases hstatus), fun _ => rfl⟩
      | .ok (some x) =>
          refine ⟨fun _ status hstatus => (by cases hstatus), fun _ => ?_⟩
          exact congrArg some ((congrArg (rpcReturn resp) (Router.resultOf_okReply _ _ _)).trans
            (rpcReturn_okReply _ _ x))

end

/-- A request of the method `/svc/Invert` and a router in which its caller is pending. -/
def invertRequest : Message := ⟨1, "/svc/Invert", 0, "", [8, 1], []⟩

def invertRouter : Router := Router.new.registerWithSender 1 0

theorem envelope_roundtrip_iff_notFound :
    rpcOutcome boolCodec invertRouter 0
      ((Verdict.returned (.error ⟨.notFound, "gone"⟩) : Verdict Bool).reply boolCodec
        invertRequest).toList = some (.error (.transport ⟨.notFound, "gone"⟩)) := by
  have hmain := envelope_roundtrip_iff ⟨∅, []⟩ boolCodec boolCodec
    (fun _ _ _ => ⟨[], false, .error ⟨.notFound, "gone"⟩⟩) (0, 0) none invertRequest _ rfl invertRouter 0 rfl rfl
  refine hmain.2.2.mpr fun status hstatus => ?_
  cases hstatus
  decide

/-- A handler that fails with a status of code `Ok`: its error is encoded like a success with an empty
payload, and the caller is given the value that the empty payload decodes to. -/
theorem ok_status_seen_as_success :
    Verdict.of ⟨∅, []⟩ boolCodec (fun _ _ (_ : Bool) => ⟨[], false, .error ⟨.ok, "stop"⟩⟩) (0, 0) none
        invertRequest = some (.returned (.error ⟨.ok, "stop"⟩) : Verdict Bool) ∧
      rpcOutcome boolCodec invertRouter 0
        ((Verdict.returned (.error ⟨.ok, "stop"⟩) : Verdict Bool).reply boolCodec
          invertRequest).toList = some (.ok false) ∧
      (Verdict.returned (.error ⟨.ok, "stop"⟩) : Verdict Bool).expected =
        some (.error (.transport ⟨.ok, "stop"⟩)) := by
  refine ⟨rfl, rfl, rfl⟩

end Quorums
