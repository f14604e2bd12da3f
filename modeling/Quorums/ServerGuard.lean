import Quorums.ServerReplies

/-! How long a handler holds the ordering guard. The context is handed to the user's closure by value, and the
guard is part of it: a future that does not capture the context has given the guard up before it does anything.
Messages are dispatched in the documented order exactly when every handler that another message may wait for
keeps its context to the end, or calls `release()` on it. -/

namespace Quorums

namespace Server

/-- The run keeps its context to the end, or calls `release()` on it. -/
def HandlerRun.HoldsGuard {Out : Type} (r : HandlerRun Out) : Prop :=
  r.keepsCtx = true ∨ .release ∈ r.acts

def Handler.HoldsGuard (occasion : Occasion) (msg : Message) : Handler → Prop
  | .twoWay body => ∀ r, body occasion (ctxOf msg) msg.payload = some r → r.HoldsGuard
  | .streaming body => ∀ r, body occasion (ctxOf msg) msg.payload = some r → r.HoldsGuard

/-- If the message comes to a handler, its run there holds the guard. -/
def HoldsGuard (srv : Server) (occasion : Occasion) (peerAddr : Option String) (msg : Message) : Prop :=
  Passes srv occasion peerAddr msg → ∀ h, srv.handlers.lookup msg.method = some h → h.HoldsGuard occasion msg

end Server

namespace ServerStream

open Server ListUpdate

/-- From guard state `guard`, no context is dropped that still owns the guard. -/
def Keeping : Bool → List TaskEvent → Prop
  | _, [] => True
  | guard, e :: rest => (e = .dropCtx → guard = false) ∧ Keeping (guard && !e.unlocks) rest

theorem keeping_cons {guard : Bool} {e : TaskEvent} {rest : List TaskEvent} :
    Keeping guard (e :: rest) ↔ (e = .dropCtx → guard = false) ∧ Keeping (guard && !e.unlocks) rest := Iff.rfl

theorem keeping_false (l : List TaskEvent) : Keeping false l := by
  induction l with
  | nil => trivial
  | cons e rest ih => exact ⟨fun _ => rfl, ih⟩

theorem keeping_of_not_mem {l : List TaskEvent} (h : .dropCtx ∉ l) (guard : Bool) : Keeping guard l := by
  induction l generalizing guard with
  | nil => trivial
  | cons e rest ih =>
      rw [List.mem_cons, not_or] at h
      exact ⟨fun he => absurd he.symm h.1, ih h.2 _⟩

/-- Where a context is dropped with its guard, nothing before has given the guard up. -/
theorem exists_drop_of_not_keeping {guard : Bool} {l : List TaskEvent} (h : ¬Keeping guard l) :
    guard = true ∧ ∃ pre rest, l = pre ++ .dropCtx :: rest ∧ ∀ e ∈ pre, e.unlocks = false := by
  induction l generalizing guard with
  | nil => exact absurd trivial h
  | cons e l ih =>
      cases guard with
      | false => exact absurd (keeping_false _) h
      | true =>
          refine ⟨rfl, ?_⟩
          by_cases he : e = .dropCtx
          · exact ⟨[], l, by rw [he, List.nil_append], by simp⟩
          · obtain ⟨hlocked, pre, rest, rfl, hpre⟩ := ih fun hkeep => h ⟨fun hdrop => absurd hdrop he, hkeep⟩
            refine ⟨e :: pre, rest, rfl, fun x hx => ?_⟩
            rcases List.mem_cons.mp hx with rfl | hx
            · simpa using hlocked
            · exact hpre x hx

theorem keeping_uses {Out : Type} (ctx : ServerCtx) (r : HandlerRun Out) {rest : List TaskEvent}
    (hrest : .dropCtx ∉ rest) : Keeping true (r.uses ctx ++ rest) ↔ r.HoldsGuard := by
  obtain ⟨acts, keepsCtx, result⟩ := r
  simp only [HandlerRun.uses, HandlerRun.HoldsGuard]
  induction acts with
  | nil =>
      cases keepsCtx with
      | true => simpa using keeping_of_not_mem hrest true
      | false => simp [keeping_cons]
  | cons act acts ih =>
      rw [List.map_cons, List.cons_append, List.cons_append, keeping_cons]
      cases act with
      | release => simp [ServerCtx.perform, TaskEvent.unlocks, keeping_false]
      | send payload => simpa [ServerCtx.perform, TaskEvent.unlocks] using ih

theorem keeping_of_passed {srv : Server} {occasion : Occasion} {peerAddr : Option String} {msg : Message}
    {h : Handler} (hpass : Passes srv occasion peerAddr msg) (hlookup : srv.handlers.lookup msg.method = some h) :
    Keeping true (srv.taskEvents occasion peerAddr msg) ↔ h.HoldsGuard occasion msg := by
  have hreply : ∀ reply : Option Message, .dropCtx ∉ (reply.map TaskEvent.emit).toList := by
    intro reply
    cases reply <;> simp
  rw [Passes] at hpass
  simp only [taskEvents, hpass, hlookup]
  cases h with
  | twoWay body =>
      rw [Handler.erased, Handler.HoldsGuard]
      cases hbody : body occasion (ctxOf msg) msg.payload with
      | none => simp [keeping_of_not_mem]
      | some r =>
          have hrest : TaskEvent.dropCtx ∉ .dropGuard :: ((twoWayReply msg r.result).map TaskEvent.emit).toList := by
            simp [hreply]
          simpa [keeping_cons, TaskEvent.unlocks] using keeping_uses (ctxOf msg) r hrest
  | streaming body =>
      rw [Handler.erased, Handler.HoldsGuard]
      cases hbody : body occasion (ctxOf msg) msg.payload with
      | none => simp [keeping_of_not_mem]
      | some r =>
          have hrest : TaskEvent.dropCtx ∉ .dropGuard :: (streamingError (ctxOf msg) r.result ++
              [.emit (doneReply msg.messageSeqNo msg.method)]) := by
            cases r.result <;> simp [streamingError]
          simpa [keeping_cons, TaskEvent.unlocks, ctxOf] using keeping_uses (ctxOf msg) r hrest

/-- A task keeps its context as long as it owns the guard exactly when its handler's run holds the guard. -/
theorem keeping_taskEvents (srv : Server) (occasion : Occasion) (peerAddr : Option String) (msg : Message) :
    Keeping true (srv.taskEvents occasion peerAddr msg) ↔ srv.HoldsGuard occasion peerAddr msg := by
  rcases passes_or_rejected srv occasion peerAddr msg with hpass | ⟨status, hrej⟩
  · cases hlookup : srv.handlers.lookup msg.method with
    | none =>
        have hkeep : Keeping true (srv.taskEvents occasion peerAddr msg) := by
          rw [Passes] at hpass
          simp only [taskEvents, hpass, hlookup]
          exact keeping_of_not_mem (by simp) true
        exact ⟨fun _ _ h hsome => absurd (hlookup.symm.trans hsome) (by simp), fun _ => hkeep⟩
    | some h =>
        rw [keeping_of_passed hpass hlookup]
        refine ⟨fun hholds _ h' hsome => ?_, fun hholds => hholds hpass h hlookup⟩
        rwa [← Option.some.inj (hlookup.symm.trans hsome)]
  · have hkeep : Keeping true (srv.taskEvents occasion peerAddr msg) := by
      simp only [taskEvents, hrej]
      exact keeping_of_not_mem (by simp) true
    exact ⟨fun _ hpass => absurd hpass (not_passes_of_rejected hrej), fun _ => hkeep⟩

/-! ### Guards that are held long enough -/

/-- The first `n - 1` tasks keep their contexts, and a guard that was given up has its cause in the history. -/
structure Caused (n : Nat) (s : ServerStream) : Prop where
  keeping : ∀ i t, s.tasks[i]? = some t → i + 1 < n → Keeping t.guard t.todo
  cause : ∀ i t, s.tasks[i]? = some t → i + 1 < n → t.guard = false →
    ∃ c ∈ [StreamEvent.release i, .ended i], c ∈ s.history
  held : Held s.history

theorem caused_init (n id : Nat) (inbound : List Message) : Caused n (init id inbound) where
  keeping i t h := by simp [init] at h
  cause i t h := by simp [init] at h
  held k i e h := by simp [init] at h

variable {n i : Nat} {s : ServerStream} {t : Task} {rest : List TaskEvent}

theorem Caused.recv (h : Caused n s) (msg : Message) (inbound : List Message) {todo : List TaskEvent}
    (hkeep : s.tasks.length + 1 < n → Keeping true todo) :
    Caused n { s with accept := .locking, inbound := inbound, tasks := s.tasks ++ [⟨msg, true, todo⟩] } where
  keeping j u hj hlt := by
    rcases getElem?_append_cases hj with hold | ⟨rfl, rfl⟩
    · exact h.keeping j u hold hlt
    · exact hkeep hlt
  cause j u hj hlt hfree := by
    rcases getElem?_append_cases hj with hold | ⟨-, rfl⟩
    · exact h.cause j u hold hlt hfree
    · cases hfree
  held := h.held

/-- A task goes on with its guard as it is. -/
theorem Caused.advance (h : Caused n s) (hi : s.tasks[i]? = some t) (hkeep : i + 1 < n → Keeping t.guard rest)
    (events : List StreamEvent) (out : List (Nat × Message)) (hheld : Held (s.history ++ events)) :
    Caused n { s with
      tasks := s.tasks.set i { t with todo := rest }, outbound := out, history := s.history ++ events } where
  keeping j u hj hlt := by
    rcases getElem?_set_cases hj with ⟨rfl, rfl⟩ | ⟨-, hold⟩
    · exact hkeep hlt
    · exact h.keeping j u hold hlt
  cause j u hj hlt hfree := by
    have hold : ∃ x, s.tasks[j]? = some x ∧ x.guard = false := by
      rcases getElem?_set_cases hj with ⟨rfl, rfl⟩ | ⟨-, hold⟩
      · exact ⟨t, hi, hfree⟩
      · exact ⟨u, hold, hfree⟩
    obtain ⟨x, hx, hfree⟩ := hold
    obtain ⟨c, hc, hmem⟩ := h.cause j x hx hlt hfree
    exact ⟨c, hc, List.mem_append_left _ hmem⟩
  held := hheld

/-- A step that starts something comes after the cause for which the task before gave up its guard. -/
theorem Caused.start (h : Caused n s) (hinv : Inv s) (hlen : s.tasks.length ≤ n) (hi : s.tasks[i]? = some t)
    (hguard : t.guard = true) (hkeep : i + 1 < n → Keeping t.guard rest) {e : StreamEvent}
    (he : e.startOf = some i) : Caused n { s with
      tasks := s.tasks.set i { t with todo := rest }, history := s.history ++ [e] } := by
  refine h.advance hi hkeep [e] s.outbound (startsAfter_append h.held fun j hj => ?_)
  have hij : i = j + 1 := Option.some.inj (he.symm.trans hj)
  have hlt := (List.getElem?_eq_some_iff.mp hi).1
  have hjlt : j < s.tasks.length := by omega
  have hjtask : s.tasks[j]? = some s.tasks[j] := List.getElem?_eq_getElem hjlt
  refine h.cause j _ hjtask (by omega) ?_
  rw [← Bool.not_eq_true]
  intro hown
  have hlast := (hinv.holder j _ hjtask hown).2.2
  have hlast' := (hinv.holder i t hi hguard).2.2
  omega

/-- A task gives up its guard for a cause, or has given it up before. -/
theorem Caused.dropGuard (h : Caused n s) (hi : s.tasks[i]? = some t) {cause : List StreamEvent}
    (hquiet : ∀ e ∈ cause, e.startOf = none)
    (hcause : i + 1 < n → t.guard = false ∨ ∃ c ∈ [StreamEvent.release i, .ended i], c ∈ cause) :
    Caused n (s.dropGuard i t rest cause) where
  keeping j u hj hlt := by
    rcases getElem?_set_cases hj with ⟨rfl, rfl⟩ | ⟨-, hold⟩
    · exact keeping_false _
    · exact h.keeping j u hold hlt
  cause j u hj hlt hfree := by
    have hold : (∃ c ∈ [StreamEvent.release j, .ended j], c ∈ s.history) ∨
        ∃ c ∈ [StreamEvent.release j, .ended j], c ∈ cause := by
      rcases getElem?_set_cases hj with ⟨rfl, rfl⟩ | ⟨-, hold⟩
      · exact (hcause hlt).imp_left (h.cause j t hi hlt)
      · exact Or.inl (h.cause j u hold hlt hfree)
    rcases hold with ⟨c, hc, hmem⟩ | ⟨c, hc, hmem⟩
    · exact ⟨c, hc, List.mem_append_left _ (List.mem_append_left _ hmem)⟩
    · exact ⟨c, hc, List.mem_append_left _ (List.mem_append_right _ hmem)⟩
  held := by
    show Held (s.history ++ cause ++ _)
    refine startsAfter_append_quiet (startsAfter_append_quiet h.held hquiet) fun e he => ?_
    split at he
    · rw [List.mem_singleton.mp he]
      rfl
    · cases he

theorem caused_run {e : TaskEvent} {msg : Message} {guard : Bool} (h : Caused n s) (hinv : Inv s)
    (hlen : s.tasks.length ≤ n) (hi : s.tasks[i]? = some ⟨msg, guard, e :: rest⟩) :
    Caused n (s.perform i ⟨msg, guard, e :: rest⟩ rest e) := by
  obtain ⟨hstart, -⟩ := orderly_cons.mp (hinv.orderly i _ hi)
  have hkeep : i + 1 < n → (e = .dropCtx → guard = false) ∧ Keeping (guard && !e.unlocks) rest :=
    fun hlt => keeping_cons.mp (h.keeping i _ hi hlt)
  cases e with
  | interceptors | handler =>
      refine h.start hinv hlen hi (hstart rfl) (fun hlt => ?_) rfl
      simpa [TaskEvent.unlocks] using (hkeep hlt).2
  | emit m =>
      have hquiet : Held (s.history ++ []) := by
        rw [List.append_nil]
        exact h.held
      have hnext := h.advance hi (fun hlt => by simpa [TaskEvent.unlocks] using (hkeep hlt).2) []
        (s.outbound ++ [(i, m)]) hquiet
      rw [List.append_nil] at hnext
      exact hnext
  | dropCtx => exact h.dropGuard hi (by simp) fun hlt => Or.inl ((hkeep hlt).1 rfl)
  | release | dropGuard => exact h.dropGuard hi (by simp [StreamEvent.startOf]) fun _ => Or.inr (by simp)

variable {srv : Server} {peerAddr : Option String} {u : ServerStream}

theorem caused_step {a : Act} (h : Caused n s) (hinv : Inv s) (hlen : s.tasks.length ≤ n)
    (hnew : ∀ msg inbound, s.inbound = msg :: inbound → s.tasks.length + 1 < n →
      srv.HoldsGuard (s.id, s.tasks.length) peerAddr msg)
    (hstep : step srv peerAddr s a = some u) : Caused n u := by
  cases a with
  | lock | stop =>
      rw [step] at hstep
      split at hstep
      · cases hstep
        exact ⟨h.keeping, h.cause, h.held⟩
      · cases hstep
  | recv =>
      rw [step] at hstep
      split at hstep
      · rename_i msg inbound hrecv hinbound
        cases hstep
        exact h.recv msg inbound fun hlt => (keeping_taskEvents _ _ _ _).mpr (hnew msg inbound hinbound hlt)
      · cases hstep
  | run i =>
      rw [step] at hstep
      split at hstep
      · rename_i msg guard e rest hi
        cases hstep
        exact caused_run h hinv hlen hi
      · cases hstep
  | panic i =>
      rw [step] at hstep
      split at hstep
      · rename_i msg guard e rest hi
        cases hstep
        exact h.dropGuard hi (by simp [StreamEvent.startOf]) fun _ => Or.inr (by simp)
      · cases hstep

/-- Of a stream with messages `inbound`: every one but the last comes to a handler that holds the guard. -/
def AllHold (srv : Server) (peerAddr : Option String) (id : Nat) (inbound : List Message) : Prop :=
  ∀ i msg, inbound[i]? = some msg → i + 1 < inbound.length → srv.HoldsGuard (id, i) peerAddr msg

theorem held_of_allHold {id : Nat} {inbound : List Message} {acts : List Act}
    (hhold : AllHold srv peerAddr id inbound)
    (hrun : Transition.run (step srv peerAddr) (init id inbound) acts = some s) : Held s.history := by
  have hinv : Inv s ∧ s.id = id ∧ s.tasks.map Task.msg ++ s.inbound = inbound ∧ Caused inbound.length s := by
    refine Transition.run_invariant (P := fun u : ServerStream => Inv u ∧ u.id = id ∧
      u.tasks.map Task.msg ++ u.inbound = inbound ∧ Caused inbound.length u) ?_
      ⟨inv_init id inbound, rfl, rfl, caused_init _ id inbound⟩ hrun
    rintro u a v ⟨hinv, hid, harrival, hcaused⟩ hstep
    have hlen : u.tasks.length + u.inbound.length = inbound.length := by
      rw [← harrival, List.length_append, List.length_map]
    refine ⟨inv_step u a v hinv hstep, (id_step hstep).trans hid,
      (tasks_append_inbound_step u a v hstep).trans harrival, caused_step hcaused hinv (by omega) ?_ hstep⟩
    intro msg later hinbound hlt
    rw [hid]
    refine hhold _ msg ?_ hlt
    rw [← harrival, hinbound, List.getElem?_append_right (by simp)]
    simp
  exact hinv.2.2.2.held

/-! ### A guard that is given up too early -/

/-- Between two messages: `j` have arrived, and nobody owns the guard. -/
structure Between (id : Nat) (inbound : List Message) (j : Nat) (s : ServerStream) : Prop where
  id_eq : s.id = id
  accept : s.accept = .locking
  locked : s.locked = false
  arrived : s.tasks.length = j
  inbound : s.inbound = inbound.drop j

/-- The handler of message `i` has neither called `release()` nor ended. -/
def Runs (i : Nat) (s : ServerStream) : Prop :=
  ∀ c ∈ [StreamEvent.release i, .ended i], c ∉ s.history

/-- The stream after the loop has read `msg` and moved the guard into its task. -/
def arrive (srv : Server) (peerAddr : Option String) (s : ServerStream) (msg : Message) (rest : List Message) :
    ServerStream :=
  { s with
    accept := .locking
    locked := true
    inbound := rest
    tasks := s.tasks ++ [⟨msg, true, srv.taskEvents (s.id, s.tasks.length) peerAddr msg⟩] }

variable {id j : Nat} {inbound : List Message} {msg : Message}

theorem Between.recv (h : Between id inbound j s) (hj : inbound[j]? = some msg) :
    Transition.run (step srv peerAddr) s [.lock, .recv] =
      some (s.arrive srv peerAddr msg (inbound.drop (j + 1))) := by
  have hdrop : inbound.drop j = msg :: inbound.drop (j + 1) := by
    rw [List.drop_eq_getElem_cons (List.getElem?_eq_some_iff.mp hj).1, (List.getElem?_eq_some_iff.mp hj).2]
  simp [Transition.run_cons, step, arrive, h.accept, h.locked, h.inbound, hdrop]

theorem Between.arrive_task (h : Between id inbound j s) (later : List Message) :
    (s.arrive srv peerAddr msg later).tasks[j]? = some ⟨msg, true, srv.taskEvents (id, j) peerAddr msg⟩ := by
  rw [arrive, h.id_eq, h.arrived, ← h.arrived, List.getElem?_concat_length]

/-- A message may come and go without a handler: its task panics at its first step. -/
theorem Between.panic (srv : Server) (peerAddr : Option String) (h : Between id inbound j s)
    (hj : j < inbound.length) :
    ∃ acts u, Transition.run (step srv peerAddr) s acts = some u ∧ Between id inbound (j + 1) u ∧
      ∀ k, k ≠ j → Runs k s → Runs k u := by
  have hmsg : inbound[j]? = some inbound[j] := List.getElem?_eq_getElem hj
  have hpanic : step srv peerAddr (s.arrive srv peerAddr inbound[j] (inbound.drop (j + 1))) (.panic j) =
      some ((s.arrive srv peerAddr inbound[j] (inbound.drop (j + 1))).dropGuard j
        ⟨inbound[j], true, srv.taskEvents (id, j) peerAddr inbound[j]⟩ [] [.ended j]) := by
    rw [step, h.arrive_task, taskEvents]
  refine ⟨[.lock, .recv] ++ [.panic j], _, Transition.run_append_eq_some.mpr
    ⟨_, h.recv hmsg, Transition.run_cons_eq_some.mpr ⟨_, hpanic, rfl⟩⟩, ?_, ?_⟩
  · exact ⟨h.id_eq, rfl, rfl, by simp [dropGuard, arrive, h.arrived], rfl⟩
  · intro k hk hruns c hc hmem
    have hold : c ∉ s.history := hruns c hc
    simp only [List.mem_cons, List.not_mem_nil, or_false] at hc
    rcases hc with rfl | rfl
    · simp [dropGuard, arrive, hold] at hmem
    · simp [dropGuard, arrive, hold, hk] at hmem

theorem exists_between (srv : Server) (peerAddr : Option String) (id : Nat) (inbound : List Message)
    (hj : j ≤ inbound.length) :
    ∃ acts s, Transition.run (step srv peerAddr) (init id inbound) acts = some s ∧
      Between id inbound j s ∧ ∀ k, j ≤ k → Runs k s := by
  induction j with
  | zero => exact ⟨[], _, rfl, ⟨rfl, rfl, rfl, rfl, rfl⟩, fun k _ c _ hmem => by cases hmem⟩
  | succ j ih =>
      obtain ⟨acts, s, hrun, hbetween, hruns⟩ := ih (by omega)
      obtain ⟨acts', u, hrun', hbetween', hkeep⟩ := hbetween.panic srv peerAddr (by omega)
      refine ⟨acts ++ acts', u, Transition.run_append_eq_some.mpr ⟨s, hrun, hrun'⟩, hbetween', fun k hk => ?_⟩
      exact hkeep k (by omega) (hruns k (by omega))

/-- A task carries out steps that leave its guard alone. -/
theorem exists_run_of_locked (srv : Server) (peerAddr : Option String) {pre : List TaskEvent}
    (hpre : ∀ e ∈ pre, e.unlocks = false)
    (hi : s.tasks[i]? = some ⟨msg, true, pre ++ rest⟩) :
    ∃ acts u, Transition.run (step srv peerAddr) s acts = some u ∧ u.tasks[i]? = some ⟨msg, true, rest⟩ ∧
      u.id = s.id ∧ u.accept = s.accept ∧ u.inbound = s.inbound ∧ u.tasks.length = s.tasks.length ∧
      (Runs i s → Runs i u) := by
  induction pre generalizing s with
  | nil => exact ⟨[], s, rfl, hi, rfl, rfl, rfl, rfl, fun hruns => hruns⟩
  | cons e pre ih =>
      have hlocked : e.unlocks = false := hpre e List.mem_cons_self
      have hstep : step srv peerAddr s (.run i) =
          some (s.perform i ⟨msg, true, e :: (pre ++ rest)⟩ (pre ++ rest) e) := by
        rw [step, hi]
        rfl
      have hnext : (s.perform i ⟨msg, true, e :: (pre ++ rest)⟩ (pre ++ rest) e).tasks[i]? =
          some ⟨msg, true, pre ++ rest⟩ := by
        cases e with
        | interceptors | handler | emit m => exact getElem?_set_of_some hi
        | release | dropCtx | dropGuard => cases hlocked
      obtain ⟨acts, u, hrun, htask, hid, haccept, hinbound, hlen, hruns⟩ :=
        ih (fun x hx => hpre x (List.mem_cons_of_mem e hx)) hnext
      refine ⟨.run i :: acts, u, Transition.run_cons_eq_some.mpr ⟨_, hstep, hrun⟩, htask, ?_⟩
      cases e with
      | interceptors | handler =>
          refine ⟨hid, haccept, hinbound, hlen.trans List.length_set, fun h => hruns fun c hc hmem => ?_⟩
          rcases List.mem_append.mp hmem with hmem | hmem
          · exact h c hc hmem
          · rw [List.mem_singleton.mp hmem] at hc
            simp at hc
      | emit m => exact ⟨hid, haccept, hinbound, hlen.trans List.length_set, hruns⟩
      | release | dropCtx | dropGuard => cases hlocked

/-- The next message starts now, after whatever the history holds. -/
theorem Between.start (srv : Server) (peerAddr : Option String) (h : Between id inbound (i + 1) s)
    (hi : i + 1 < inbound.length) (hruns : Runs i s) :
    ∃ acts u, Transition.run (step srv peerAddr) s acts = some u ∧ ¬Held u.history := by
  have hmsg : inbound[i + 1]? = some inbound[i + 1] := List.getElem?_eq_getElem hi
  obtain ⟨rest, htodo⟩ : ∃ rest, srv.taskEvents (id, i + 1) peerAddr inbound[i + 1] = .interceptors :: rest :=
    ⟨_, rfl⟩
  have hstart : step srv peerAddr (s.arrive srv peerAddr inbound[i + 1] (inbound.drop (i + 1 + 1))) (.run (i + 1)) =
      some ((s.arrive srv peerAddr inbound[i + 1] (inbound.drop (i + 1 + 1))).perform (i + 1)
        ⟨inbound[i + 1], true, .interceptors :: rest⟩ rest .interceptors) := by
    rw [step, h.arrive_task, htodo]
  refine ⟨[.lock, .recv] ++ [.run (i + 1)], _, Transition.run_append_eq_some.mpr
    ⟨_, h.recv hmsg, Transition.run_cons_eq_some.mpr ⟨_, hstart, rfl⟩⟩, fun hheld => ?_⟩
  obtain ⟨c, hc, hmem⟩ := hheld s.history.length i (.interceptors (i + 1)) List.getElem?_concat_length rfl
  rw [perform, arrive, List.take_left] at hmem
  exact hruns c hc hmem

theorem exists_not_held (hi : inbound[i]? = some msg) (hlt : i + 1 < inbound.length)
    (hnot : ¬srv.HoldsGuard (id, i) peerAddr msg) :
    ∃ acts s, Transition.run (step srv peerAddr) (init id inbound) acts = some s ∧ ¬Held s.history := by
  obtain ⟨before, s, hbefore, hbetween, hruns⟩ := exists_between srv peerAddr id inbound (j := i) (by omega)
  obtain ⟨-, pre, rest, htodo, hpre⟩ := exists_drop_of_not_keeping (mt (keeping_taskEvents _ _ _ _).mp hnot)
  have htask : (s.arrive srv peerAddr msg (inbound.drop (i + 1))).tasks[i]? =
      some ⟨msg, true, pre ++ .dropCtx :: rest⟩ := by rw [hbetween.arrive_task, htodo]
  -- the handler runs up to the drop of its context
  obtain ⟨acts, u, hacts, hu, hid, haccept, hinbound, hlen, hkeep⟩ :=
    exists_run_of_locked srv peerAddr hpre htask
  have hdrop : step srv peerAddr u (.run i) =
      some (u.dropGuard i ⟨msg, true, .dropCtx :: rest⟩ rest []) := by
    rw [step, hu]
    rfl
  have hnext : Between id inbound (i + 1) (u.dropGuard i ⟨msg, true, .dropCtx :: rest⟩ rest []) :=
    ⟨hid.trans hbetween.id_eq, haccept, rfl, by
      simpa [dropGuard, arrive, hbetween.arrived] using hlen, hinbound⟩
  have hstill : Runs i (u.dropGuard i ⟨msg, true, .dropCtx :: rest⟩ rest []) := by
    intro c hc hmem
    have hold : c ∉ u.history := hkeep (hruns i le_rfl) c hc
    simp only [List.mem_cons, List.not_mem_nil, or_false] at hc
    rcases hc with rfl | rfl <;> simp [dropGuard, hold] at hmem
  obtain ⟨after, v, hafter, hv⟩ := hnext.start srv peerAddr hlt hstill
  refine ⟨before ++ ([.lock, .recv] ++ (acts ++ .run i :: after)), v, ?_, hv⟩
  refine Transition.run_append_eq_some.mpr ⟨s, hbefore, Transition.run_append_eq_some.mpr
    ⟨_, hbetween.recv hi, Transition.run_append_eq_some.mpr ⟨u, hacts, ?_⟩⟩⟩
  exact Transition.run_cons_eq_some.mpr ⟨_, hdrop, hafter⟩

/-- Per-stream dispatch: tasks stand in arrival order, at most one party owns the guard, message `i + 1` starts
after the guard of message `i` was given up and after the cause that allows it, handlers start in arrival
order, and every exit of a task gives up its guard. -/
structure Dispatched (inbound : List Message) (s : ServerStream) : Prop where
  arrival : s.tasks.map Task.msg ++ s.inbound = inbound
  exclusive : s.holders ≤ 1
  fifo : Fifo s.history
  held : Held s.history
  sorted : s.handlerStarts.Pairwise (· < ·)
  freed : ∀ i t, s.tasks[i]? = some t → t.todo = [] → t.guard = false ∧ .released i ∈ s.history

/-- **Per-stream dispatch**, for every server, every sequence of inbound messages and every scheduling: it is
as documented in every state of every run exactly when every message but the last comes to a handler that keeps
its context to the end or calls `release()`. -/
theorem nodeStream_dispatched_iff (srv : Server) (peerAddr : Option String) (id : Nat) (inbound : List Message) :
    (∀ acts s, Transition.run (step srv peerAddr) (init id inbound) acts = some s → Dispatched inbound s) ↔
      AllHold srv peerAddr id inbound := by
  constructor
  · intro hall i msg hi hlt
    by_contra hnot
    obtain ⟨acts, s, hrun, hheld⟩ := exists_not_held hi hlt hnot
    exact hheld (hall acts s hrun).held
  · intro hhold acts s hrun
    obtain ⟨harrival, hexclusive, hfifo, hsorted, hfreed⟩ := nodeStream_fifo srv peerAddr id inbound acts s hrun
    exact ⟨harrival, hexclusive, hfifo, held_of_allHold hhold hrun, hsorted, hfreed⟩

/-- A server with one two-way method, whose future does not capture its context. -/
def readServer : Server :=
  registerHandler ⟨∅, []⟩ "/svc/Read" boolCodec boolCodec fun _ _ b => ⟨[], false, .ok (some b)⟩

def readRequest (seq : Nat) : Message := ⟨seq, "/svc/Read", 0, "", [], []⟩

/-- Two requests of that method: the second handler starts while the first has neither called `release()` nor
ended. -/
theorem second_handler_overtakes :
    ∃ s, Transition.run (step readServer none) (init 0 [readRequest 0, readRequest 1])
        [.lock, .recv, .run 0, .run 0, .run 0, .lock, .recv, .run 1, .run 1] = some s ∧
      s.history = [.interceptors 0, .handler 0, .released 0, .interceptors 1, .handler 1] ∧
      ¬Dispatched [readRequest 0, readRequest 1] s := by
  refine ⟨_, rfl, rfl, fun h => ?_⟩
  have hheld : Held [.interceptors 0, .handler 0, .released 0, .interceptors 1, .handler 1] := h.held
  obtain ⟨c, hc, hmem⟩ := hheld 3 0 (.interceptors 1) rfl rfl
  rcases List.mem_pair.mp hc with rfl | rfl
  · simp at hmem
  · simp at hmem

end ServerStream

end Quorums
