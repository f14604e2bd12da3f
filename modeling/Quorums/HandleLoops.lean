import Mathlib.Data.Finset.Card
import Quorums.BaseLoop
import Quorums.WireMessage

/-! The loops of the terminal methods of the three handles (`responses.rs`, `ordered_responses.rs`,
`correctable.rs`) and of the acknowledgement loop of `multicast`. A loop reads the results of the
per-node tasks in their order of arrival. -/

namespace Quorums

/-- A single response from one node. -/
structure NodeResponse (T : Type) where
  nodeId : UInt32
  result : Except Error T

/-- A single response from one node, tagged with the position of the node in the configuration. -/
structure OrderedNodeResponse (T : Type) where
  position : Nat
  nodeId : UInt32
  result : Except Error T

/-- How a call ends. -/
inductive Outcome (T : Type) where
  | returned (result : Except Error T)
  | panicked

namespace Outcome

variable {T : Type}

def ok (val : T) : Outcome T := .returned (.ok val)

def err (e : Error) : Outcome T := .returned (.error e)

/-- `Err(Error::QuorumCall(..))` with cause `Incomplete`. -/
def incomplete (nodeErrors : List NodeError) : Outcome T := err (.quorumCall ⟨.incomplete, nodeErrors⟩)

/-- `return Ok(val.unwrap())`. -/
def okUnwrap : Option T → Outcome T
  | some val => ok val
  | none => .panicked

end Outcome

/-- The error `threshold` records for a failed node: any cause but a transport error is replaced. -/
def thresholdError (nodeId : UInt32) : Error → NodeError
  | .transport s => ⟨nodeId, s⟩
  | _ => ⟨nodeId, ⟨.internal, "internal error"⟩⟩

/-- The errors `quorum` and `multicast` record for a failed node: nothing but transport errors. -/
def transportErrors (nodeId : UInt32) : Error → List NodeError
  | .transport s => [⟨nodeId, s⟩]
  | _ => []

/-- The local variables of a `quorum` loop. -/
structure QuorumVars (A : Type) where
  seen : A
  nodeErrors : List NodeError

variable {T : Type}

namespace Responses

/-- The local variables of `threshold`. -/
structure Vars (T : Type) where
  count : Nat
  firstOk : Option T
  nodeErrors : List NodeError

def thresholdTake (k : Nat) (s : Vars T) (nr : NodeResponse T) : Except (Outcome T) (Vars T) :=
  match nr.result with
  | .error e => .ok { s with nodeErrors := s.nodeErrors ++ [thresholdError nr.nodeId e] }
  | .ok val =>
      let count := s.count + 1
      let firstOk := if s.firstOk.isNone then some val else s.firstOk
      if count ≥ k then .error (.okUnwrap firstOk) else .ok { s with count, firstOk }

def threshold (k : Nat) : ReceiveLoop (Vars T) (NodeResponse T) (Outcome T) where
  start := ⟨0, none, []⟩
  take := thresholdTake k
  closed s := .incomplete s.nodeErrors

/-- The slice handed to `f` holds the arguments of all its earlier calls, so a closure with a state of
its own is a function of the slice. -/
def quorumTake (f : List T → Option T) (s : QuorumVars (List T)) (nr : NodeResponse T) :
    Except (Outcome T) (QuorumVars (List T)) :=
  match nr.result with
  | .error e => .ok { s with nodeErrors := s.nodeErrors ++ transportErrors nr.nodeId e }
  | .ok val =>
      let oks := s.seen ++ [val]
      match f oks with
      | some result => .error (.ok result)
      | none => .ok { s with seen := oks }

def quorum (f : List T → Option T) :
    ReceiveLoop (QuorumVars (List T)) (NodeResponse T) (Outcome T) where
  start := ⟨[], []⟩
  take := quorumTake f
  closed s := .incomplete s.nodeErrors

end Responses

namespace OrderedResponses

/-- The local variables of `threshold`. -/
structure Vars (T : Type) where
  slots : List (Option T)
  count : Nat
  nodeErrors : List NodeError

def thresholdTake (k : Nat) (s : Vars T) (nr : OrderedNodeResponse T) : Except (Outcome T) (Vars T) :=
  match nr.result with
  | .error e => .ok { s with nodeErrors := s.nodeErrors ++ [thresholdError nr.nodeId e] }
  | .ok val =>
      -- `slots[nr.position]` checks its bound
      if nr.position < s.slots.length then
        let slots := s.slots.set nr.position (some val)
        let count := s.count + 1
        if count ≥ k then
          match slots.findSome? id with
          | some v => .error (.ok v)
          | none => .ok { s with slots, count }
        else .ok { s with slots, count }
      else .error .panicked

def threshold (size k : Nat) : ReceiveLoop (Vars T) (OrderedNodeResponse T) (Outcome T) where
  start := ⟨List.replicate size none, 0, []⟩
  take := thresholdTake k
  closed s := .incomplete s.nodeErrors

/-- `all` waits for the whole configuration. -/
def all (size : Nat) : ReceiveLoop (Vars T) (OrderedNodeResponse T) (Outcome T) := threshold size size

/-- `f` sees the slots of its calls so far, the current ones last: what a closure with a state of its
own can depend on. -/
def quorumTake (f : List (List (Option T)) → Option T)
    (s : QuorumVars (List (Option T) × List (List (Option T)))) (nr : OrderedNodeResponse T) :
    Except (Outcome T) (QuorumVars (List (Option T) × List (List (Option T)))) :=
  match nr.result with
  | .error e => .ok { s with nodeErrors := s.nodeErrors ++ transportErrors nr.nodeId e }
  | .ok val =>
      if nr.position < s.seen.1.length then
        let slots := s.seen.1.set nr.position (some val)
        let calls := s.seen.2 ++ [slots]
        match f calls with
        | some result => .error (.ok result)
        | none => .ok { s with seen := (slots, calls) }
      else .error .panicked

def quorum (size : Nat) (f : List (List (Option T)) → Option T) :
    ReceiveLoop (QuorumVars (List (Option T) × List (List (Option T)))) (OrderedNodeResponse T)
      (Outcome T) where
  start := ⟨(List.replicate size none, []), []⟩
  take := quorumTake f
  closed s := .incomplete s.nodeErrors

end OrderedResponses

namespace Correctable

/-- The local variables of `threshold`. -/
structure Vars where
  responded : Finset UInt32
  failed : Finset UInt32
  nodeErrors : List NodeError

/-- `size - k` on `usize`; `none` is the panic of a build with overflow checks. -/
def usizeSub (checked : Bool) (size k : Nat) : Option Nat :=
  if k ≤ size then some (size - k)
  else if checked then none
  else some (size + 2 ^ 64 - k)

def thresholdTake (checked : Bool) (size k : Nat) (s : Vars) (nr : NodeResponse T) :
    Except (Outcome T) Vars :=
  match nr.result with
  | .ok val =>
      let isNew : Bool := nr.nodeId ∉ s.responded
      let responded := insert nr.nodeId s.responded
      if isNew ∧ responded.card ≥ k then .error (.ok val) else .ok { s with responded }
  | .error (.transport status) =>
      if nr.nodeId ∉ s.responded ∧ nr.nodeId ∉ s.failed then
        let failed := insert nr.nodeId s.failed
        let nodeErrors := s.nodeErrors ++ [⟨nr.nodeId, status⟩]
        match usizeSub checked size k with
        | none => .error .panicked
        | some spare =>
            if failed.card > spare then .error (.incomplete nodeErrors)
            else .ok { s with failed, nodeErrors }
      else .ok s
  | .error _ => .ok s

def threshold (checked : Bool) (size k : Nat) : ReceiveLoop Vars (NodeResponse T) (Outcome T) where
  start := ⟨∅, ∅, []⟩
  take := thresholdTake checked size k
  closed s := .incomplete s.nodeErrors

/-- The same loop as that of `Responses`. -/
def quorum (f : List T → Option T) :
    ReceiveLoop (QuorumVars (List T)) (NodeResponse T) (Outcome T) := Responses.quorum f

end Correctable

/-- The acknowledgement loop of `multicast`. -/
def multicastLoop (unit : T) :
    ReceiveLoop (List NodeError) (UInt32 × Except Error T) (Outcome T) where
  start := []
  take nodeErrors ack :=
    match ack.2 with
    | .error e => .ok (nodeErrors ++ transportErrors ack.1 e)
    | .ok _ => .ok nodeErrors
  closed nodeErrors :=
    if nodeErrors = [] then .ok unit else .err (.quorumCall ⟨.sendFailure, nodeErrors⟩)

end Quorums
