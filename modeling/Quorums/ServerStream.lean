import Quorums.BaseRun
import Quorums.ServerTermination

/-! One `node_stream` of the server: the accept loop, the ordering mutex and the spawned tasks, under
any scheduling. The accept loop takes the mutex, waits for a message and moves the guard into the task
it spawns for it; it takes the mutex again before it reads the next message. -/

namespace Quorums

open Server

/-- The task of one message: what is left of it, and whether it owns the ordering guard. -/
structure Task where
  msg : Message
  guard : Bool
  todo : List TaskEvent

/-- `receiving`: the loop owns the guard and waits for the next message. -/
inductive AcceptLoop where
  | locking
  | receiving
  | ended
  deriving DecidableEq, Repr

/-- The history of a stream, by message number: interceptors or handler started, `release()` called, handler
ended or task over without one, guard given up. The last is the effect, the two before it are its causes. -/
inductive StreamEvent where
  | interceptors (i : Nat)
  | handler (i : Nat)
  | release (i : Nat)
  | ended (i : Nat)
  | released (i : Nat)
  deriving DecidableEq, Repr

def StreamEvent.startOf : StreamEvent → Option Nat
  | .interceptors i | .handler i => some i
  | _ => none

def StreamEvent.handlerOf : StreamEvent → Option Nat
  | .handler i => some i
  | _ => none

/-- Everything of a stream on the server. `outbound` lists the messages put into the response channel,
each with the number of the message whose task put it there. -/
structure ServerStream where
  id : Nat
  inbound : List Message
  locked : Bool
  accept : AcceptLoop
  tasks : List Task
  outbound : List (Nat × Message)
  history : List StreamEvent

namespace ServerStream

def init (id : Nat) (inbound : List Message) : ServerStream :=
  ⟨id, inbound, false, .locking, [], [], []⟩

/-- Drop the guard of task `i`, if it still owns it, and go on with `rest`; `cause` says why. -/
def dropGuard (s : ServerStream) (i : Nat) (t : Task) (rest : List TaskEvent) (cause : List StreamEvent) :
    ServerStream :=
  { s with
    tasks := s.tasks.set i { t with guard := false, todo := rest }
    locked := if t.guard then false else s.locked
    history := s.history ++ cause ++ if t.guard then [.released i] else [] }

/-- Task `i` carries out its next step `e`. -/
def perform (s : ServerStream) (i : Nat) (t : Task) (rest : List TaskEvent) : TaskEvent → ServerStream
  | .interceptors =>
      { s with tasks := s.tasks.set i { t with todo := rest }, history := s.history ++ [.interceptors i] }
  | .handler =>
      { s with tasks := s.tasks.set i { t with todo := rest }, history := s.history ++ [.handler i] }
  | .emit m =>
      { s with tasks := s.tasks.set i { t with todo := rest }, outbound := s.outbound ++ [(i, m)] }
  | .release => s.dropGuard i t rest [.release i]
  | .dropCtx => s.dropGuard i t rest []
  | .dropGuard => s.dropGuard i t rest [.ended i]

/-- `lock`, `recv` and `stop` are the accept loop's; `panic` ends a task by unwinding it. -/
inductive Act where
  | lock
  | recv
  | stop
  | run (i : Nat)
  | panic (i : Nat)
  deriving DecidableEq, Repr

variable (srv : Server) (peerAddr : Option String)

def step (s : ServerStream) : Act → Option ServerStream
  | .lock =>
      if s.accept = .locking ∧ s.locked = false then
        some { s with accept := .receiving, locked := true }
      else none
  | .recv =>
      match s.accept, s.inbound with
      | .receiving, msg :: rest =>
          some { s with
            accept := .locking
            inbound := rest
            tasks := s.tasks ++ [⟨msg, true, srv.taskEvents (s.id, s.tasks.length) peerAddr msg⟩] }
      | _, _ => none
  | .stop =>
      -- `Ok(None)` or a receive error: the loop breaks and drops its guard
      if s.accept = .receiving then some { s with accept := .ended, locked := false } else none
  | .run i =>
      match s.tasks[i]? with
      | some ⟨msg, guard, e :: rest⟩ => some (s.perform i ⟨msg, guard, e :: rest⟩ rest e)
      | _ => none
  | .panic i =>
      match s.tasks[i]? with
      | some ⟨msg, guard, e :: rest⟩ => some (s.dropGuard i ⟨msg, guard, e :: rest⟩ [] [.ended i])
      | _ => none

/-- How many parties own the guard: the accept loop while it waits for a message, and tasks. -/
def holders (s : ServerStream) : Nat :=
  (if s.accept = .receiving then 1 else 0) + s.tasks.countP fun t => t.guard

/-- The messages whose handlers have started, in the order in which they did. -/
def handlerStarts (s : ServerStream) : List Nat := s.history.filterMap StreamEvent.handlerOf

/-- From guard state `guard`, everything that `todo` starts it starts while the guard is owned, and
at the end the guard is given up. -/
def Orderly : Bool → List TaskEvent → Prop
  | guard, [] => guard = false
  | guard, e :: rest => (e.starts = true → guard = true) ∧ Orderly (guard && !e.unlocks) rest

theorem orderly_cons {guard : Bool} {e : TaskEvent} {rest : List TaskEvent} :
    Orderly guard (e :: rest) ↔
      (e.starts = true → guard = true) ∧ Orderly (guard && !e.unlocks) rest := Iff.rfl

theorem orderly_of_not_starts {todo : List TaskEvent} (h : ∀ e ∈ todo, e.starts = false) :
    Orderly false todo := by
  induction todo with
  | nil => rfl
  | cons e rest ih =>
      rw [orderly_cons]
      refine ⟨fun hstart => ?_, ih fun x hx => h x (by simp [hx])⟩
      rw [h e (by simp)] at hstart
      cases hstart

theorem orderly_append {l : List TaskEvent} (hl : ∀ e ∈ l, e.starts = false) {rest : List TaskEvent}
    (hrest : ∀ g, Orderly g rest) (guard : Bool) : Orderly guard (l ++ rest) := by
  induction l generalizing guard with
  | nil => exact hrest guard
  | cons e l ih =>
      rw [List.cons_append, orderly_cons]
      refine ⟨fun hstart => ?_, ih (fun x hx => hl x (by simp [hx])) _⟩
      rw [hl e (by simp)] at hstart
      cases hstart

theorem not_starts_of_mem_uses {Out : Type} {ctx : ServerCtx} {r : HandlerRun Out} {e : TaskEvent}
    (h : e ∈ r.uses ctx) : e.starts = false := by
  obtain ⟨act, rfl⟩ | rfl := mem_uses h
  · cases act <;> rfl
  · rfl

theorem orderly_dropGuard {rest : List TaskEvent} (h : ∀ e ∈ rest, e.starts = false) (guard : Bool) :
    Orderly guard (.dropGuard :: rest) := by
  rw [orderly_cons]
  refine ⟨fun hstart => (by cases hstart), ?_⟩
  rw [show (guard && !TaskEvent.dropGuard.unlocks) = false by cases guard <;> rfl]
  exact orderly_of_not_starts h

/-- Each of the five exits of a task gives up the guard, and only after everything it starts. -/
theorem orderly_taskEvents (occasion : Occasion) (msg : Message) :
    Orderly true (srv.taskEvents occasion peerAddr msg) := by
  have hdrop : ∀ reply : Option Message,
      ∀ e ∈ (reply.map TaskEvent.emit).toList, e.starts = false := by
    intro reply e he
    cases reply with
    | none => simp at he
    | some m =>
        simp only [Option.map_some, Option.toList_some, List.mem_singleton] at he
        rw [he]
        rfl
  rw [taskEvents, orderly_cons]
  refine ⟨fun _ => rfl, ?_⟩
  rw [show (true && !TaskEvent.interceptors.unlocks) = true from rfl]
  split
  · rw [orderly_cons]
    exact ⟨fun h => (by cases h), orderly_dropGuard (by simp) true⟩
  · split
    · exact orderly_dropGuard (by simp) true
    · rename_i h hlookup
      cases h with
      | twoWay body =>
          rw [Handler.erased]
          split
          · exact orderly_dropGuard (hdrop none) true
          · rw [List.cons_append, orderly_cons, List.append_assoc]
            refine ⟨fun _ => rfl, ?_⟩
            exact orderly_append (fun e => not_starts_of_mem_uses) (orderly_dropGuard (hdrop _)) _
      | streaming body =>
          rw [Handler.erased]
          split
          · exact orderly_dropGuard (hdrop none) true
          · rename_i r hbody
            rw [List.cons_append, orderly_cons, List.append_assoc, List.cons_append]
            refine ⟨fun _ => rfl, ?_⟩
            refine orderly_append (fun e => not_starts_of_mem_uses) (orderly_dropGuard fun e he => ?_) _
            simp only [Option.map_none, Option.toList_none, List.append_nil, List.mem_append,
              List.mem_singleton] at he
            rcases he with herr | hdone
            · cases hres : r.result with
              | ok u => simp [hres, streamingError] at herr
              | error status =>
                  simp only [hres, streamingError, List.mem_singleton] at herr
                  rw [herr]
                  rfl
            · rw [hdone]
              rfl

theorem count_handler_uses {Out : Type} (ctx : ServerCtx) (r : HandlerRun Out) :
    (r.uses ctx).count .handler = 0 := by
  rw [List.count_eq_zero]
  intro hmem
  cases not_starts_of_mem_uses hmem

/-- A task starts its handler at most once. -/
theorem count_handler_taskEvents (occasion : Occasion) (msg : Message) :
    (srv.taskEvents occasion peerAddr msg).count .handler ≤ 1 := by
  have hreply : ∀ reply : Option Message,
      ((reply.map TaskEvent.emit).toList).count .handler = 0 := by
    intro reply
    cases reply <;> rfl
  rw [taskEvents, List.count_cons_of_ne (by decide)]
  split
  · simp
  · split
    · simp
    · rename_i h hlookup
      rw [List.count_append, hreply]
      cases h with
      | twoWay body =>
          rw [Handler.erased]
          split
          · simp
          · simp [count_handler_uses]
      | streaming body =>
          rw [Handler.erased]
          split
          · simp
          · rename_i r hbody
            cases hres : r.result <;>
              simp [count_handler_uses, streamingError]

end ServerStream

end Quorums
