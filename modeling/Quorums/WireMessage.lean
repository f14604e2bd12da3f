import Mathlib.Algebra.Order.Ring.Int
import Mathlib.Data.List.Basic

/-! The wire envelope of `proto/gorums.proto`, the error types of `error.rs`, and the codec helpers of
`channel.rs`. Machine integers are naturals; the places where a width matters say so. -/

namespace Quorums

/-- `tonic::Code`. -/
inductive Code where
  | ok | cancelled | unknown | invalidArgument | deadlineExceeded | notFound | alreadyExists
  | permissionDenied | resourceExhausted | failedPrecondition | aborted | outOfRange
  | unimplemented | internal | unavailable | dataLoss | unauthenticated
  deriving DecidableEq, Repr

namespace Code

/-- `status.code() as u32`. -/
def asU32 : Code → Nat
  | .ok => 0 | .cancelled => 1 | .unknown => 2 | .invalidArgument => 3 | .deadlineExceeded => 4
  | .notFound => 5 | .alreadyExists => 6 | .permissionDenied => 7 | .resourceExhausted => 8
  | .failedPrecondition => 9 | .aborted => 10 | .outOfRange => 11 | .unimplemented => 12
  | .internal => 13 | .unavailable => 14 | .dataLoss => 15 | .unauthenticated => 16

/-- `tonic::Code::from_i32`: every integer outside `0..=16` is `Unknown`. -/
def fromI32 : Int → Code
  | 0 => .ok | 1 => .cancelled | 2 => .unknown | 3 => .invalidArgument | 4 => .deadlineExceeded
  | 5 => .notFound | 6 => .alreadyExists | 7 => .permissionDenied | 8 => .resourceExhausted
  | 9 => .failedPrecondition | 10 => .aborted | 11 => .outOfRange | 12 => .unimplemented
  | 13 => .internal | 14 => .unavailable | 15 => .dataLoss | 16 => .unauthenticated
  | _ => .unknown

theorem asU32_le (c : Code) : c.asU32 ≤ 16 := by cases c <;> decide

@[simp] theorem asU32_eq_zero (c : Code) : c.asU32 = 0 ↔ c = .ok := by cases c <;> decide

@[simp] theorem fromI32_asU32 (c : Code) : fromI32 (c.asU32 : Int) = c := by cases c <;> rfl

end Code

/-- The part of `tonic::Status` that travels in the envelope. -/
structure Status where
  code : Code
  message : String
  deriving DecidableEq, Repr

/-- A per-node error inside a `QuorumCallError`. -/
structure NodeError where
  nodeId : UInt32
  cause : Status
  deriving DecidableEq, Repr

inductive QuorumCallCause where
  | incomplete
  | sendFailure
  deriving DecidableEq, Repr

structure QuorumCallError where
  cause : QuorumCallCause
  nodeErrors : List NodeError
  deriving DecidableEq, Repr

/-- All errors the runtime can produce. -/
inductive Error where
  | quorumCall (e : QuorumCallError)
  | nodeClosed
  | streamDown
  | codec (text : String)
  | cancelled
  | transport (s : Status)
  deriving DecidableEq, Repr

abbrev Payload := List UInt8

/-- The envelope around every application message. `metadata` lists the entries of the proto map. -/
structure Message where
  messageSeqNo : Nat
  method : String
  statusCode : Nat
  statusMessage : String
  payload : Payload
  metadata : List (String × String)
  deriving DecidableEq, Repr

/-- The status code a server sends to end a correctable stream. -/
def statusStreamDone : Nat := 0xFFFFFFFE

theorem asU32_ne_streamDone (c : Code) : c.asU32 ≠ statusStreamDone := by
  have h := c.asU32_le
  simp only [statusStreamDone]
  omega

/-- `n as i32` for an `n : u32`. -/
def asI32 (n : Nat) : Int := if n < 2 ^ 31 then n else (n : Int) - 2 ^ 32

theorem asI32_asU32 (c : Code) : asI32 c.asU32 = (c.asU32 : Int) := by
  have h := c.asU32_le
  rw [asI32, if_pos (by omega)]

/-- A prost message type: its encoding and its decoder, which undoes the encoding. -/
structure Codec (T : Type) where
  encode : T → Payload
  decode : Payload → Except String T
  decode_encode : ∀ x, decode (encode x) = .ok x

/-- `encode_payload`. -/
def encodePayload {T : Type} (c : Codec T) (msg : T) : Payload := c.encode msg

/-- `decode_payload`. -/
def decodePayload {T : Type} (c : Codec T) (wire : Message) : Except String T := c.decode wire.payload

/-- The message type `{ bool f = 1 }`, on encodings of at most that one field: the form of
`HealthCheckResponse`. A false field is left out of the encoding. -/
def boolCodec : Codec Bool where
  encode
    | true => [8, 1]
    | false => []
  decode
    | [] => .ok false
    | [8, b] => if b < 128 then .ok (b != 0) else .error "invalid varint"
    | _ => .error "invalid varint"
  decode_encode x := by cases x <;> rfl

/-- The message type without fields; unknown fields are skipped. -/
def emptyCodec : Codec Unit := ⟨fun _ => [], fun _ => .ok (), fun _ => rfl⟩

/-- What a pending caller is handed: a wire message or an error. -/
abbrev Reply := Except Error Message

end Quorums
