import Quorums.BaseList
import Quorums.ServerStream

/-! Per-stream FIFO dispatch: at any time at most one party owns the ordering guard, and a message's
interceptors and handler start only after the guard of the message before it was given up, so that
handlers start in arrival order. A guard is given up by `release()`, at the end of the handler or of a task
that exits early, and also when a handler drops its context before its end: only a handler that keeps its
context holds the guard as long as it runs. -/

namespace Quorums.ServerStream

open Server ListUpdate

/-- Whatever starts message `i + 1` in the history comes after one of the causes that `i` has. -/
def StartsAfter (causes : Nat → List StreamEvent) (history : List StreamEvent) : Prop :=
  ∀ (k i : Nat) (e : StreamEvent), history[k]? = some e → e.startOf = some (i + 1) →
    ∃ c ∈ causes i, c ∈ history.take k

/-- Message `i + 1` starts after the guard of message `i` was given up. -/
def Fifo (history : List StreamEvent) : Prop := StartsAfter (fun i => [.released i]) history

/-- Message `i + 1` starts after the handler of message `i` called `release()` or ended, or its task exited
early. -/
def Held (history : List StreamEvent) : Prop := StartsAfter (fun i => [.release i, .ended i]) history

theorem startsAfter_append {causes : Nat → List StreamEvent} {history : List StreamEvent}
    (h : StartsAfter causes history) {e : StreamEvent}
    (he : ∀ i, e.startOf = some (i + 1) → ∃ c ∈ causes i, c ∈ history) :
    StartsAfter causes (history ++ [e]) := by
  intro k i e' hk hstart
  rcases Nat.lt_or_ge k history.length with hlt | hge
  · rw [List.getElem?_append_left hlt] at hk
    rw [List.take_append_of_le_length (Nat.le_of_lt hlt)]
    exact h k i e' hk hstart
  · rw [List.getElem?_append_right hge] at hk
    have hzero : k - history.length = 0 := by
      have := (List.getElem?_eq_some_iff.mp hk).1
      simpa using this
    have hlen : k = history.length := by omega
    rw [hzero, List.getElem?_cons_zero, Option.some.injEq] at hk
    subst hk
    rw [hlen, List.take_left]
    exact he i hstart

/-- What starts nothing may follow. -/
theorem startsAfter_append_quiet {causes : Nat → List StreamEvent} {history : List StreamEvent}
    (h : StartsAfter causes history) {l : List StreamEvent} (hl : ∀ e ∈ l, e.startOf = none) :
    StartsAfter causes (history ++ l) := by
  induction l generalizing history with
  | nil => rwa [List.append_nil]
  | cons e l ih =>
      rw [← List.singleton_append, ← List.append_assoc]
      refine ih (startsAfter_append h fun i hi => ?_) fun x hx => hl x (by simp [hx])
      rw [hl e (by simp)] at hi
      cases hi

/-- What holds of a stream in every state it reaches. Only the last task can own the guard. -/
structure Inv (s : ServerStream) : Prop where
  receiving : s.accept = .receiving → s.locked = true
  holder : ∀ i t, s.tasks[i]? = some t → t.guard = true →
    s.locked = true ∧ s.accept ≠ .receiving ∧ i + 1 = s.tasks.length
  released : ∀ i t, s.tasks[i]? = some t → t.guard = false → .released i ∈ s.history
  orderly : ∀ (i : Nat) (t : Task), s.tasks[i]? = some t → Orderly t.guard t.todo
  once : ∀ i t, s.tasks[i]? = some t →
    t.todo.count .handler + s.history.count (.handler i) ≤ 1
  known : ∀ i, .handler i ∈ s.history → i < s.tasks.length
  fifo : Fifo s.history
  sorted : s.handlerStarts.Pairwise (· < ·)

theorem inv_init (id : Nat) (inbound : List Message) : Inv (init id inbound) where
  receiving h := by cases h
  holder i t h := by simp [init] at h
  released i t h := by simp [init] at h
  orderly i t h := by simp [init] at h
  once i t h := by simp [init] at h
  known i h := by simp [init] at h
  fifo k i e h := by simp [init] at h
  sorted := List.Pairwise.nil

variable {s : ServerStream} {i : Nat} {t t' : Task}

theorem Inv.lock (h : Inv s) (hfree : s.locked = false) :
    Inv { s with accept := .receiving, locked := true } where
  receiving _ := rfl
  holder i t hi hguard := by
    have hlocked := (h.holder i t hi hguard).1
    rw [hfree] at hlocked
    cases hlocked
  released := h.released
  orderly := h.orderly
  once := h.once
  known := h.known
  fifo := h.fifo
  sorted := h.sorted

/-- While the loop owns the guard, no task does. -/
theorem Inv.no_holder (h : Inv s) (hrecv : s.accept = .receiving) (hi : s.tasks[i]? = some t) :
    t.guard = false := by
  rw [← Bool.not_eq_true]
  intro hguard
  exact (h.holder i t hi hguard).2.1 hrecv

theorem Inv.stop (h : Inv s) (hrecv : s.accept = .receiving) :
    Inv { s with accept := .ended, locked := false } where
  receiving hend := by cases hend
  holder i t hi hguard := by
    rw [h.no_holder hrecv hi] at hguard
    cases hguard
  released := h.released
  orderly := h.orderly
  once := h.once
  known := h.known
  fifo := h.fifo
  sorted := h.sorted

theorem Inv.recv (h : Inv s) (hrecv : s.accept = .receiving) (rest : List Message) (msg : Message)
    {todo : List TaskEvent} (hord : Orderly true todo) (hcount : todo.count .handler ≤ 1) :
    Inv { s with accept := .locking, inbound := rest, tasks := s.tasks ++ [⟨msg, true, todo⟩] } where
  receiving hend := by cases hend
  holder i t hi hguard := by
    rcases getElem?_append_cases hi with hold | ⟨hlast, -⟩
    · rw [h.no_holder hrecv hold] at hguard
      cases hguard
    · refine ⟨h.receiving hrecv, by simp, ?_⟩
      rw [List.length_append, hlast]
      rfl
  released i t hi hguard := by
    rcases getElem?_append_cases hi with hold | ⟨-, hnew⟩
    · exact h.released i t hold hguard
    · rw [hnew] at hguard
      cases hguard
  orderly i t hi := by
    rcases getElem?_append_cases hi with hold | ⟨-, hnew⟩
    · exact h.orderly i t hold
    · rw [hnew]
      exact hord
  once i t hi := by
    rcases getElem?_append_cases hi with hold | ⟨hlast, hnew⟩
    · exact h.once i t hold
    · have hzero : s.history.count (.handler i) = 0 := by
        rw [List.count_eq_zero]
        intro hmem
        have := h.known i hmem
        omega
      rw [hnew, hzero]
      exact hcount
  known i hi := by
    have := h.known i hi
    simp only [List.length_append, List.length_singleton]
    omega
  fifo := h.fifo
  sorted := h.sorted

/-- The task before an owner of the guard has given up its own. -/
theorem Inv.released_before (h : Inv s) (hi : s.tasks[i]? = some t) (hguard : t.guard = true) {j : Nat}
    (hji : j + 1 = i) : .released j ∈ s.history := by
  have hlen := (List.getElem?_eq_some_iff.mp hi).1
  have hj : s.tasks[j]? = some s.tasks[j] := List.getElem?_eq_getElem (by omega)
  refine h.released j _ hj ?_
  rw [← Bool.not_eq_true]
  intro hown
  -- only the last task owns the guard, and that is task `j + 1`
  have hlast := (h.holder i t hi hguard).2.2
  have hlast' := (h.holder j _ hj hown).2.2
  omega

/-- The handlers that have started before that of an owner of the guard are those of earlier tasks. -/
theorem Inv.handlerStarts_lt (h : Inv s) (hi : s.tasks[i]? = some t) (hguard : t.guard = true)
    (hfresh : .handler i ∉ s.history) {a : Nat} (ha : a ∈ s.handlerStarts) : a < i := by
  obtain ⟨e, he, hea⟩ := List.mem_filterMap.mp ha
  cases e with
  | handler a' =>
      cases hea
      have hlt := h.known a he
      have hlast := (h.holder i t hi hguard).2.2
      have hne : a ≠ i := by
        rintro rfl
        exact hfresh he
      omega
  | _ => cases hea

/-- A task step that starts something: the task owns the guard, so every earlier one has given up
its own. -/
theorem Inv.start (h : Inv s) (hi : s.tasks[i]? = some t) (hguard : t.guard = true)
    {rest : List TaskEvent} (hord : Orderly true rest) {e : StreamEvent} (he : e.startOf = some i)
    (hcount : rest.count .handler + (s.history ++ [e]).count (.handler i) ≤ 1) :
    Inv { s with tasks := s.tasks.set i { t with todo := rest }, history := s.history ++ [e] } where
  receiving := h.receiving
  holder j u hj hu := by
    rw [List.length_set]
    rcases getElem?_set_cases hj with ⟨rfl, rfl⟩ | ⟨-, hold⟩
    · exact h.holder j t hi hguard
    · exact h.holder j u hold hu
  released j u hj hu := by
    rcases getElem?_set_cases hj with ⟨rfl, rfl⟩ | ⟨-, hold⟩
    · rw [show ({ t with todo := rest } : Task).guard = t.guard from rfl, hguard] at hu
      cases hu
    · exact List.mem_append_left _ (h.released j u hold hu)
  orderly j u hj := by
    rcases getElem?_set_cases hj with ⟨rfl, rfl⟩ | ⟨-, hold⟩
    · rw [show ({ t with todo := rest } : Task).guard = true from hguard]
      exact hord
    · exact h.orderly j u hold
  once j u hj := by
    rcases getElem?_set_cases hj with ⟨rfl, rfl⟩ | ⟨hne, hold⟩
    · exact hcount
    · have hother : e ≠ .handler j := by
        rintro rfl
        exact hne (Option.some.inj he)
      rw [List.count_append, List.count_singleton, if_neg (by simpa using hother)]
      exact h.once j u hold
  known j hj := by
    rw [List.length_set]
    rcases List.mem_append.mp hj with hold | hnew
    · exact h.known j hold
    · rw [List.mem_singleton] at hnew
      subst hnew
      have hji : j = i := Option.some.inj he
      rw [hji]
      exact (List.getElem?_eq_some_iff.mp hi).1
  fifo := by
    refine startsAfter_append h.fifo fun j hj => ⟨_, List.mem_singleton_self _, ?_⟩
    exact h.released_before hi hguard (Option.some.inj (hj.symm.trans he))
  sorted := by
    rw [handlerStarts, List.filterMap_append, List.pairwise_append]
    refine ⟨h.sorted, ?_, ?_⟩
    · cases e with
      | handler j => exact List.pairwise_singleton _ _
      | _ => exact List.Pairwise.nil
    · intro a ha b hb
      cases e with
      | handler j =>
          simp only [StreamEvent.startOf, Option.some.injEq] at he
          subst he
          rw [List.mem_singleton.mp hb]
          refine h.handlerStarts_lt hi hguard (fun hmem => ?_) ha
          have hpos := List.count_pos_iff.mpr hmem
          rw [List.count_append, List.count_singleton_self] at hcount
          omega
      | _ => exact absurd hb List.not_mem_nil

/-- A task step that neither starts anything nor touches the guard. -/
theorem Inv.quiet (h : Inv s) (hi : s.tasks[i]? = some t) {rest : List TaskEvent}
    (hord : Orderly t.guard rest) (hcount : rest.count .handler ≤ t.todo.count .handler)
    (out : List (Nat × Message)) :
    Inv { s with tasks := s.tasks.set i { t with todo := rest }, outbound := out } where
  receiving := h.receiving
  holder j u hj hu := by
    rw [List.length_set]
    rcases getElem?_set_cases hj with ⟨rfl, rfl⟩ | ⟨-, hold⟩
    · exact h.holder j t hi hu
    · exact h.holder j u hold hu
  released j u hj hu := by
    rcases getElem?_set_cases hj with ⟨rfl, rfl⟩ | ⟨-, hold⟩
    · exact h.released j t hi hu
    · exact h.released j u hold hu
  orderly j u hj := by
    rcases getElem?_set_cases hj with ⟨rfl, rfl⟩ | ⟨-, hold⟩
    · exact hord
    · exact h.orderly j u hold
  once j u hj := by
    rcases getElem?_set_cases hj with ⟨rfl, rfl⟩ | ⟨-, hold⟩
    · have := h.once j t hi
      show rest.count .handler + s.history.count (.handler j) ≤ 1
      omega
    · exact h.once j u hold
  known j hj := by
    rw [List.length_set]
    exact h.known j hj
  fifo := h.fifo
  sorted := h.sorted

/-- A task gives up its guard, whatever the cause is. -/
theorem Inv.dropGuard (h : Inv s) (hi : s.tasks[i]? = some t) {rest : List TaskEvent}
    {cause : List StreamEvent} (hcause : ∀ e ∈ cause, e.startOf = none)
    (hord : Orderly false rest) (hcount : rest.count .handler ≤ t.todo.count .handler) :
    Inv (s.dropGuard i t rest cause) := by
  have hhistory : (s.dropGuard i t rest cause).history =
      s.history ++ (cause ++ if t.guard then [.released i] else []) := List.append_assoc _ _ _
  have hquiet : ∀ e ∈ cause ++ (if t.guard then [StreamEvent.released i] else []), e.startOf = none := by
    intro e he
    rcases List.mem_append.mp he with he | he
    · exact hcause e he
    · split at he
      · rw [List.mem_singleton.mp he]
        rfl
      · cases he
  have hhandler : ∀ j, (s.dropGuard i t rest cause).history.count (.handler j) =
      s.history.count (.handler j) := by
    intro j
    rw [hhistory, List.count_append, Nat.add_eq_left, List.count_eq_zero]
    intro hmem
    cases hquiet _ hmem
  constructor
  · intro hrecv
    rw [show (s.dropGuard i t rest cause).locked = if t.guard then false else s.locked from rfl,
      h.no_holder hrecv hi]
    exact h.receiving hrecv
  · intro j u hj hu
    rcases getElem?_set_cases hj with ⟨rfl, rfl⟩ | ⟨hne, hold⟩
    · cases hu
    · -- another owner would be the last task; then `i` is not an owner and the mutex stays locked
      obtain ⟨hlocked, haccept, hlast⟩ := h.holder j u hold hu
      have hfree : t.guard = false := by
        rw [← Bool.not_eq_true]
        intro hown
        have := (h.holder i t hi hown).2.2
        omega
      refine ⟨?_, haccept, ?_⟩
      · rw [show (s.dropGuard i t rest cause).locked = if t.guard then false else s.locked from rfl, hfree]
        exact hlocked
      · rw [show (s.dropGuard i t rest cause).tasks = s.tasks.set i _ from rfl, List.length_set]
        exact hlast
  · intro j u hj hu
    rw [hhistory]
    rcases getElem?_set_cases hj with ⟨rfl, rfl⟩ | ⟨-, hold⟩
    · cases hg : t.guard with
      | false => exact List.mem_append_left _ (h.released j t hi hg)
      | true => simp
    · exact List.mem_append_left _ (h.released j u hold hu)
  · intro j u hj
    rcases getElem?_set_cases hj with ⟨rfl, rfl⟩ | ⟨-, hold⟩
    · exact hord
    · exact h.orderly j u hold
  · intro j u hj
    rw [hhandler]
    rcases getElem?_set_cases hj with ⟨rfl, rfl⟩ | ⟨-, hold⟩
    · have := h.once j t hi
      show rest.count .handler + s.history.count (.handler j) ≤ 1
      omega
    · exact h.once j u hold
  · intro j hj
    rw [show (s.dropGuard i t rest cause).tasks = s.tasks.set i _ from rfl, List.length_set]
    apply h.known j
    rw [← List.count_pos_iff] at hj ⊢
    rwa [hhandler] at hj
  · rw [hhistory]
    exact startsAfter_append_quiet h.fifo hquiet
  · rw [handlerStarts, hhistory, List.filterMap_append]
    have hnone : (cause ++ if t.guard then [StreamEvent.released i] else []).filterMap
        StreamEvent.handlerOf = [] := by
      rw [List.filterMap_eq_nil_iff]
      intro e he
      cases e with
      | handler j => cases hquiet _ he
      | _ => rfl
    rw [hnone, List.append_nil]
    exact h.sorted

variable {srv : Server} {peerAddr : Option String}

theorem inv_run {e : TaskEvent} {rest : List TaskEvent} {msg : Message} {guard : Bool} (h : Inv s)
    (hi : s.tasks[i]? = some ⟨msg, guard, e :: rest⟩) :
    Inv (s.perform i ⟨msg, guard, e :: rest⟩ rest e) := by
  obtain ⟨hstart, hord⟩ := orderly_cons.mp (h.orderly i _ hi)
  have honce := h.once i _ hi
  cases e with
  | interceptors =>
      have hguard : guard = true := hstart rfl
      subst hguard
      refine h.start hi rfl hord rfl ?_
      rw [List.count_append, List.count_singleton, if_neg (by simp)]
      rw [List.count_cons_of_ne (by decide)] at honce
      exact honce
  | handler =>
      have hguard : guard = true := hstart rfl
      subst hguard
      refine h.start hi rfl hord rfl ?_
      rw [List.count_append, List.count_singleton_self]
      rw [List.count_cons_self] at honce
      omega
  | emit m =>
      refine h.quiet hi ?_ ?_ _
      · simpa [TaskEvent.unlocks] using hord
      · exact List.count_le_count_cons
  | release | dropCtx | dropGuard =>
      refine h.dropGuard hi (by simp [StreamEvent.startOf]) ?_ List.count_le_count_cons
      simpa [TaskEvent.unlocks] using hord

/-- **Every step of a stream keeps the invariant.** -/
theorem inv_step (s : ServerStream) (a : Act) (u : ServerStream) (h : Inv s)
    (hstep : step srv peerAddr s a = some u) : Inv u := by
  cases a with
  | lock =>
      rw [step] at hstep
      split at hstep
      · rename_i hfree
        cases hstep
        exact h.lock hfree.2
      · cases hstep
  | recv =>
      rw [step] at hstep
      split at hstep
      · rename_i msg rest hrecv hinbound
        cases hstep
        exact h.recv hrecv rest msg (orderly_taskEvents srv peerAddr _ msg)
          (count_handler_taskEvents srv peerAddr _ msg)
      · cases hstep
  | stop =>
      rw [step] at hstep
      split at hstep
      · rename_i hrecv
        cases hstep
        exact h.stop hrecv
      · cases hstep
  | run i =>
      rw [step] at hstep
      split at hstep
      · rename_i msg guard e rest hi
        cases hstep
        exact inv_run h hi
      · cases hstep
  | panic i =>
      rw [step] at hstep
      split at hstep
      · rename_i msg guard e rest hi
        cases hstep
        exact h.dropGuard hi (by simp [StreamEvent.startOf]) rfl (Nat.zero_le _)
      · cases hstep

theorem Inv.holders_le_one (h : Inv s) : s.holders ≤ 1 := by
  rw [holders]
  rcases List.eq_nil_or_concat s.tasks with hnil | ⟨init, last, hconcat⟩
  · rw [hnil, List.countP_nil]
    split <;> omega
  · have hinit : init.countP (fun t => t.guard) = 0 := by
      rw [List.countP_eq_zero]
      intro t ht hguard
      obtain ⟨i, hlt, rfl⟩ := List.getElem_of_mem ht
      have hi : s.tasks[i]? = some init[i] := by
        rw [hconcat, List.concat_eq_append, List.getElem?_append_left hlt,
          List.getElem?_eq_getElem hlt]
      have hlen := (h.holder i _ hi hguard).2.2
      rw [hconcat, List.length_concat] at hlen
      omega
    have hlast : s.tasks[init.length]? = some last := by
      rw [hconcat, List.concat_eq_append, List.getElem?_append_right le_rfl]
      simp
    rw [hconcat, List.concat_eq_append, List.countP_append, hinit, List.countP_singleton]
    split
    · rename_i hrecv
      rw [h.no_holder hrecv hlast]
      simp
    · split <;> omega

/-- The messages of a stream become tasks in the order in which they arrive. -/
theorem tasks_append_inbound_step (s : ServerStream) (a : Act) (u : ServerStream)
    (hstep : step srv peerAddr s a = some u) :
    u.tasks.map Task.msg ++ u.inbound = s.tasks.map Task.msg ++ s.inbound := by
  cases a with
  | lock | stop =>
      rw [step] at hstep
      split at hstep
      · cases hstep
        rfl
      · cases hstep
  | recv =>
      rw [step] at hstep
      split at hstep
      · rename_i msg rest hrecv hinbound
        cases hstep
        simp [hinbound]
      · cases hstep
  | run i =>
      rw [step] at hstep
      split at hstep
      · rename_i msg guard e rest hi
        cases hstep
        have hmsg := map_set_of_eq (f := Task.msg) (y := ⟨msg, guard, rest⟩) hi rfl
        have hdrop := map_set_of_eq (f := Task.msg) (y := ⟨msg, false, rest⟩) hi rfl
        cases e with
        | release | dropCtx | dropGuard => exact congrArg (· ++ s.inbound) hdrop
        | _ => exact congrArg (· ++ s.inbound) hmsg
      · cases hstep
  | panic i =>
      rw [step] at hstep
      split at hstep
      · rename_i msg guard e rest hi
        cases hstep
        have hdrop := map_set_of_eq (f := Task.msg) (y := ⟨msg, false, []⟩) hi rfl
        exact congrArg (· ++ s.inbound) hdrop
      · cases hstep

/-- A task that has come to its end owns no guard. -/
theorem Inv.released_of_finished (h : Inv s) (hi : s.tasks[i]? = some t) (hdone : t.todo = []) :
    t.guard = false ∧ .released i ∈ s.history := by
  have hord := h.orderly i t hi
  rw [hdone] at hord
  exact ⟨hord, h.released i t hi hord⟩

/-- **Per-stream FIFO dispatch**, for every server, every sequence of inbound messages and every
scheduling: tasks stand in arrival order, at most one party owns the guard, message `i + 1` starts
after the guard of message `i` was given up, handlers start in arrival order, and every exit of a
task gives up its guard. -/
theorem nodeStream_fifo (srv : Server) (peerAddr : Option String) (id : Nat) (inbound : List Message)
    (acts : List Act) (s : ServerStream)
    (hrun : Transition.run (step srv peerAddr) (init id inbound) acts = some s) :
    s.tasks.map Task.msg ++ s.inbound = inbound ∧ s.holders ≤ 1 ∧ Fifo s.history ∧
      s.handlerStarts.Pairwise (· < ·) ∧
      ∀ i t, s.tasks[i]? = some t → t.todo = [] → t.guard = false ∧ .released i ∈ s.history := by
  have hinv : Inv s := Transition.run_invariant inv_step (inv_init id inbound) hrun
  refine ⟨?_, hinv.holders_le_one, hinv.fifo, hinv.sorted, fun i t hi hdone =>
    hinv.released_of_finished hi hdone⟩
  exact Transition.run_invariant
    (P := fun u : ServerStream => u.tasks.map Task.msg ++ u.inbound = inbound)
    (fun u a v hu hstep => (tasks_append_inbound_step u a v hstep).trans hu) rfl hrun

end Quorums.ServerStream
