import Quorums.BaseRun
import Quorums.HandleLoops

/-! `Correctable` as a stream (`correctable.rs`). A poll that finds nothing spawns a task that wakes the
consumer when the token fires. The task lives until the token fires, not until the poll that spawned it
is answered. -/

namespace Quorums.CorrectableStream

variable {T : Type}

/-- `rx` is the receive queue, closed once every node's stream is; `launched` says that the fan-out was
sent. The consumer is parked from a `Pending` until it is woken. `wakers` counts the live waker tasks. -/
structure State (T : Type) where
  launched : Bool
  rx : List (NodeResponse T)
  closed : Bool
  cancelled : Bool
  parked : Bool
  wakers : Nat

def init : State T := ⟨false, [], false, false, false, 0⟩

inductive Poll (T : Type) where
  | ready (item : Option (Except Error (NodeResponse T)))
  | pending

def State.sendNow (s : State T) : State T := { s with launched := true }

/-- `poll_next`. -/
def pollNext (s : State T) : State T × Poll T :=
  let s := s.sendNow
  if s.cancelled then (s, .ready (some (.error .cancelled)))
  else
    match s.rx with
    | nr :: rest => ({ s with rx := rest }, .ready (some (.ok nr)))
    | [] =>
        if s.closed then (s, .ready none)
        else ({ s with parked := true, wakers := s.wakers + 1 }, .pending)

inductive Act (T : Type) where
  | poll
  -- a response arrives, and wakes the consumer
  | arrive (nr : NodeResponse T)
  -- the last node's stream closes, and wakes the consumer
  | close
  | cancel
  -- a waker task sees the token, wakes the consumer and ends
  | wake

def step (s : State T) : Act T → Option (State T)
  | .poll => if s.parked then none else some (pollNext s).1
  | .arrive nr =>
      if s.launched = true ∧ s.closed = false then some { s with rx := s.rx ++ [nr], parked := false }
      else none
  | .close =>
      if s.launched = true ∧ s.closed = false then some { s with closed := true, parked := false }
      else none
  | .cancel => some { s with cancelled := true }
  | .wake =>
      if s.cancelled = true ∧ 0 < s.wakers then
        some { s with wakers := s.wakers - 1, parked := false }
      else none

/-- There is nothing to answer a poll with. -/
def State.Starved (s : State T) : Prop := s.cancelled = false ∧ s.rx = [] ∧ s.closed = false

instance (s : State T) : Decidable s.Starved :=
  decidable_of_iff (s.cancelled = false ∧ s.rx.isEmpty = true ∧ s.closed = false)
    (by rw [State.Starved, List.isEmpty_iff])

/-- The polls made with nothing to answer them. -/
def starvedPolls (s : State T) : Act T → List Unit
  | .poll => if s.Starved then [()] else []
  | _ => []

variable {s t : State T} {a : Act T} {acts : List (Act T)}

/-- `poll_next` returns `Pending`, and spawns a task, in a starved state only. -/
theorem pollNext_wakers (s : State T) :
    (pollNext s).1.wakers = s.wakers + (if s.Starved then 1 else 0) ∧
      (pollNext s).1.cancelled = s.cancelled := by
  cases hcancelled : s.cancelled with
  | true => simp [pollNext, State.sendNow, State.Starved, hcancelled]
  | false =>
      cases hrx : s.rx with
      | cons nr rest => simp [pollNext, State.sendNow, State.Starved, hcancelled, hrx]
      | nil =>
          cases hclosed : s.closed <;>
            simp [pollNext, State.sendNow, State.Starved, hcancelled, hrx, hclosed]

/-- While the token has not fired, every task that was spawned is alive. -/
structure Counts (polls : List Unit) (s : State T) : Prop where
  le : s.wakers ≤ polls.length
  eq : s.cancelled = false → s.wakers = polls.length

theorem Counts.step {polls : List Unit} (h : Counts polls s) (hstep : step s a = some t) :
    Counts (polls ++ starvedPolls s a) t := by
  cases a with
  | poll =>
      simp only [CorrectableStream.step] at hstep
      split at hstep <;> cases hstep
      obtain ⟨hwakers, hcancelled⟩ := pollNext_wakers s
      have hlength : (polls ++ starvedPolls s .poll).length =
          polls.length + (if s.Starved then 1 else 0) := by
        rw [List.length_append, starvedPolls]
        split <;> rfl
      refine ⟨?_, fun hnot => ?_⟩
      · rw [hwakers, hlength]
        exact Nat.add_le_add_right h.le _
      · rw [hwakers, hlength, h.eq (hcancelled ▸ hnot)]
  | arrive nr | close =>
      simp only [CorrectableStream.step] at hstep
      split at hstep <;> cases hstep
      change Counts (polls ++ []) _
      rw [List.append_nil]
      exact ⟨h.le, h.eq⟩
  | cancel =>
      cases hstep
      change Counts (polls ++ []) _
      rw [List.append_nil]
      exact ⟨h.le, nofun⟩
  | wake =>
      simp only [CorrectableStream.step] at hstep
      split at hstep <;> cases hstep
      rename_i hguard
      change Counts (polls ++ []) _
      rw [List.append_nil]
      refine ⟨(Nat.sub_le _ _).trans h.le, fun hnot => ?_⟩
      rw [hguard.1] at hnot
      cases hnot

end Quorums.CorrectableStream
