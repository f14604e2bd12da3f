import Quorums.NodeReplies

/-! The order in which a server starts the handlers of a node's calls. What was handed to one stream is started
in this order, and before anything is sent back for it. -/

namespace Quorums

namespace ServerStream

open Server ListUpdate

variable {srv : Server} {peerAddr : Option String} {s u : ServerStream}

/-- A task that starts its handler does so right after the interceptors. -/
theorem taskEvents_of_handler_mem {occasion : Occasion} {msg : Message}
    (h : .handler ∈ srv.taskEvents occasion peerAddr msg) :
    ∃ rest, srv.taskEvents occasion peerAddr msg = .interceptors :: .handler :: rest := by
  unfold taskEvents at h ⊢
  rw [List.mem_cons] at h
  replace h := h.resolve_left (by decide)
  split at h
  · simp at h
  · cases hlookup : srv.handlers.lookup msg.method with
    | none => simp [hlookup] at h
    | some handler =>
        simp only [hlookup] at h ⊢
        cases handler with
        | twoWay body =>
            unfold Handler.erased at h ⊢
            cases hbody : body occasion (ctxOf msg) msg.payload with
            | none => simp [hbody] at h
            | some r =>
                simp only [hbody]
                exact ⟨_, rfl⟩
        | streaming body =>
            unfold Handler.erased at h ⊢
            cases hbody : body occasion (ctxOf msg) msg.payload with
            | none => simp [hbody] at h
            | some r =>
                simp only [hbody]
                exact ⟨_, rfl⟩

/-- The handler that a step starts. -/
def startOf (s : ServerStream) : Act → List (Nat × Message)
  | .run i =>
      match s.tasks[i]? with
      | some ⟨msg, _, .handler :: _⟩ => [(i, msg)]
      | _ => []
  | _ => []

theorem startOf_run {i : Nat} {msg : Message} {guard : Bool} {e : TaskEvent} {rest : List TaskEvent}
    (hi : s.tasks[i]? = some ⟨msg, guard, e :: rest⟩) :
    s.startOf (.run i) = if e = .handler then [(i, msg)] else [] := by
  unfold startOf
  dsimp only
  rw [hi]
  cases e <;> rfl

theorem exists_task_of_startOf {a : Act} {i : Nat} {msg : Message} (h : (i, msg) ∈ s.startOf a) :
    ∃ t, s.tasks[i]? = some t ∧ t.msg = msg := by
  unfold startOf at h
  split at h
  · rename_i j
    split at h
    · rename_i msg' guard rest hj
      cases List.mem_singleton.mp h
      exact ⟨_, hj, rfl⟩
    · cases h
  · cases h

/-- The task has not started its handler yet. -/
def Waits (t : Task) : Prop :=
  t.guard = true ∧ ∃ rest, t.todo = .interceptors :: .handler :: rest ∨ t.todo = .handler :: rest

/-- A message is answered after its handler has started. -/
structure Paced (srv : Server) (peerAddr : Option String) (s : ServerStream) : Prop where
  known : ∀ i m, (i, m) ∈ s.outbound → i < s.tasks.length
  started : ∀ i t, s.tasks[i]? = some t → .handler ∈ srv.taskEvents (s.id, i) peerAddr t.msg →
    .handler i ∈ s.history ∨ (Waits t ∧ ∀ m, (i, m) ∉ s.outbound)

theorem paced_init (srv : Server) (peerAddr : Option String) (id : Nat) (inbound : List Message) :
    Paced srv peerAddr (init id inbound) where
  known i m h := by simp [init] at h
  started i t h := by simp [init] at h

/-- A task goes on. -/
theorem Paced.set (h : Paced srv peerAddr s) {i : Nat} {t y : Task} (hi : s.tasks[i]? = some t)
    (hmsg : y.msg = t.msg) (hid : u.id = s.id) (htasks : u.tasks = s.tasks.set i y)
    (hhistory : ∀ e ∈ s.history, e ∈ u.history)
    (hout : ∀ j m, (j, m) ∈ u.outbound → (j, m) ∈ s.outbound ∨ j = i)
    (hstart : Waits t → (∀ m, (i, m) ∉ s.outbound) →
      .handler i ∈ u.history ∨ (Waits y ∧ ∀ m, (i, m) ∉ u.outbound)) : Paced srv peerAddr u where
  known j m hm := by
    rw [htasks, List.length_set]
    rcases hout j m hm with hold | rfl
    · exact h.known j m hold
    · exact (List.getElem?_eq_some_iff.mp hi).1
  started j x hj hhandler := by
    rw [hid] at hhandler
    rw [htasks] at hj
    rcases getElem?_set_cases hj with ⟨rfl, rfl⟩ | ⟨hne, hold⟩
    · rw [hmsg] at hhandler
      rcases h.started j t hi hhandler with hstarted | ⟨hwaits, hnone⟩
      · exact Or.inl (hhistory _ hstarted)
      · exact hstart hwaits hnone
    · refine (h.started j x hold hhandler).imp (hhistory _) fun hwait => ⟨hwait.1, fun m hm => ?_⟩
      rcases hout j m hm with hm | rfl
      · exact hwait.2 m hm
      · exact hne rfl

theorem paced_step {a : Act} (h : Paced srv peerAddr s) (hpanic : ∀ i, a ≠ .panic i)
    (hstep : step srv peerAddr s a = some u) : Paced srv peerAddr u := by
  cases a with
  | lock | stop =>
      rw [step] at hstep
      split at hstep
      · cases hstep
        exact ⟨h.known, h.started⟩
      · cases hstep
  | recv =>
      rw [step] at hstep
      split at hstep
      · rename_i msg rest hrecv hinbound
        cases hstep
        constructor
        · intro i m hm
          rw [List.length_append]
          exact Nat.lt_add_right 1 (h.known i m hm)
        · intro i t hi hhandler
          rcases getElem?_append_cases hi with hold | ⟨rfl, rfl⟩
          · exact h.started i t hold hhandler
          · obtain ⟨rest, hrest⟩ := taskEvents_of_handler_mem hhandler
            refine Or.inr ⟨⟨rfl, rest, Or.inl hrest⟩, fun m hm => ?_⟩
            exact Nat.lt_irrefl _ (h.known _ m hm)
      · cases hstep
  | run i =>
      rw [step] at hstep
      split at hstep
      · rename_i msg guard e rest hi
        cases hstep
        cases e with
        | interceptors =>
            refine h.set (y := ⟨msg, guard, rest⟩) hi rfl rfl rfl (fun x hx => List.mem_append_left _ hx)
              (fun j m hm => Or.inl hm) fun hwaits hnone => Or.inr ⟨⟨hwaits.1, ?_⟩, hnone⟩
            obtain ⟨rest', hrest | hrest⟩ := hwaits.2
            · exact ⟨rest', Or.inr (List.cons.inj hrest).2⟩
            · cases hrest
        | handler =>
            refine h.set (y := ⟨msg, guard, rest⟩) hi rfl rfl rfl (fun x hx => List.mem_append_left _ hx)
              (fun j m hm => Or.inl hm) fun hwaits hnone => Or.inl ?_
            exact List.mem_append_right _ (List.mem_singleton_self _)
        | emit m =>
            refine h.set (y := ⟨msg, guard, rest⟩) hi rfl rfl rfl (fun x hx => hx) (fun j m' hm => ?_)
              fun hwaits hnone => ?_
            · rcases List.mem_append.mp hm with hold | hnew
              · exact Or.inl hold
              · cases List.mem_singleton.mp hnew
                exact Or.inr rfl
            · obtain ⟨rest', hrest | hrest⟩ := hwaits.2
              · cases hrest
              · cases hrest
        | release | dropCtx | dropGuard =>
            refine h.set (y := ⟨msg, false, rest⟩) hi rfl rfl rfl
              (fun x hx => List.mem_append_left _ (List.mem_append_left _ hx)) (fun j m hm => Or.inl hm)
              fun hwaits hnone => ?_
            obtain ⟨rest', hrest | hrest⟩ := hwaits.2
            · cases hrest
            · cases hrest
      · cases hstep
  | panic i => exact absurd rfl (hpanic i)

/-- The handlers that have started are those that steps have started. -/
theorem handlerStarts_step {a : Act} (hstep : step srv peerAddr s a = some u) :
    u.handlerStarts = s.handlerStarts ++ (s.startOf a).map Prod.fst := by
  have hdrop (i : Nat) (t : Task) (rest : List TaskEvent) {cause : List StreamEvent}
      (hcause : cause.filterMap StreamEvent.handlerOf = []) :
      (s.dropGuard i t rest cause).handlerStarts = s.handlerStarts := by
    unfold handlerStarts dropGuard
    cases t.guard <;> simp [StreamEvent.handlerOf, hcause]
  cases a with
  | lock | stop | recv =>
      rw [step] at hstep
      split at hstep
      · cases hstep
        simp [startOf, handlerStarts]
      · cases hstep
  | run i =>
      rw [step] at hstep
      split at hstep
      · rename_i msg guard e rest hi
        cases hstep
        rw [startOf_run hi]
        cases e with
        | release | dropCtx | dropGuard =>
            show (s.dropGuard i _ rest _).handlerStarts = _
            rw [hdrop i _ rest rfl]
            simp
        | _ => simp [perform, handlerStarts, StreamEvent.handlerOf]
      · cases hstep
  | panic i =>
      rw [step] at hstep
      split at hstep
      · rename_i msg guard e rest hi
        cases hstep
        simpa [startOf] using hdrop i _ [] rfl
      · cases hstep

/-- Tasks stay, with their messages. -/
theorem exists_task_step {a : Act} (hstep : step srv peerAddr s a = some u) {i : Nat} {t : Task}
    (hi : s.tasks[i]? = some t) : ∃ t', u.tasks[i]? = some t' ∧ t'.msg = t.msg := by
  have hset {j : Nat} {x y : Task} (hj : s.tasks[j]? = some x) (hmsg : y.msg = x.msg) :
      ∃ t', (s.tasks.set j y)[i]? = some t' ∧ t'.msg = t.msg := by
    by_cases hji : j = i
    · subst hji
      refine ⟨y, getElem?_set_of_some hj, ?_⟩
      rw [hmsg, Option.some.inj (hj.symm.trans hi)]
    · exact ⟨t, by rw [List.getElem?_set_ne hji, hi], rfl⟩
  cases a with
  | lock | stop =>
      rw [step] at hstep
      split at hstep
      · cases hstep
        exact ⟨t, hi, rfl⟩
      · cases hstep
  | recv =>
      rw [step] at hstep
      split at hstep
      · cases hstep
        exact ⟨t, getElem?_append_of_some hi _, rfl⟩
      · cases hstep
  | run j =>
      rw [step] at hstep
      split at hstep
      · rename_i msg guard e rest hj
        cases hstep
        cases e with
        | release | dropCtx | dropGuard => exact hset (y := ⟨msg, false, rest⟩) hj rfl
        | _ => exact hset (y := ⟨msg, guard, rest⟩) hj rfl
      · cases hstep
  | panic j =>
      rw [step] at hstep
      split at hstep
      · rename_i msg guard e rest hj
        cases hstep
        exact hset (y := ⟨msg, false, []⟩) hj rfl
      · cases hstep

/-- What is answered has started. -/
theorem Paced.handler_of_outbound (h : Paced srv peerAddr s) {i : Nat} {t : Task} {m : Message}
    (hi : s.tasks[i]? = some t) (hhandler : .handler ∈ srv.taskEvents (s.id, i) peerAddr t.msg)
    (hm : (i, m) ∈ s.outbound) : .handler i ∈ s.history := by
  rcases h.started i t hi hhandler with hstarted | ⟨-, hnone⟩
  · exact hstarted
  · exact absurd hm (hnone m)

/-- What came before a task has started. -/
theorem Paced.handler_of_lt (h : Paced srv peerAddr s) (hinv : Inv s) {i j : Nat} {t : Task}
    (hi : s.tasks[i]? = some t) (hhandler : .handler ∈ srv.taskEvents (s.id, i) peerAddr t.msg)
    (hij : i < j) (hj : j < s.tasks.length) : .handler i ∈ s.history := by
  rcases h.started i t hi hhandler with hstarted | ⟨hwaits, -⟩
  · exact hstarted
  · -- only the last task has the guard
    have hlast := (hinv.holder i t hi hwaits.1).2.2
    omega

theorem mem_handlerStarts {i : Nat} : i ∈ s.handlerStarts ↔ .handler i ∈ s.history := by
  unfold handlerStarts
  rw [List.mem_filterMap]
  constructor
  · rintro ⟨e, he, hei⟩
    cases e with
    | handler j =>
        cases hei
        exact he
    | _ => cases hei
  · intro h
    exact ⟨_, h, rfl⟩

end ServerStream

namespace Node

open Server ListUpdate

variable {srv : Server} {peerAddr : Option String} {s t : State} {seen : List (Nat × Nat × Message)}

/-- The handler that a step starts: its stream, its place there and its message. -/
def startsOf (s : State) : Act → List (Nat × Nat × Message)
  | .server k a =>
      match s.streams[k]? with
      | some st => (st.server.startOf a).map (k, ·)
      | none => []
  | _ => []

/-- A stream, with what is known to have started. -/
structure Keeps (srv : Server) (peerAddr : Option String) (seen : List (Nat × Nat × Message)) (k : Nat)
    (server : ServerStream) : Prop where
  id : server.id = k
  inv : server.Inv
  paced : server.Paced srv peerAddr
  starts : (Tagged.select k seen).map Prod.fst = server.handlerStarts

/-- What has started, over all streams. -/
structure Started (srv : Server) (peerAddr : Option String) (seen : List (Nat × Nat × Message)) (s : State) :
    Prop where
  stream : ∀ k st, s.streams[k]? = some st → Keeps srv peerAddr seen k st.server
  task : ∀ k i msg, (k, i, msg) ∈ seen →
    ∃ st x, s.streams[k]? = some st ∧ st.server.tasks[i]? = some x ∧ x.msg = msg

theorem started_init : Started srv peerAddr [] init where
  stream k st h := by simp [init] at h
  task k i msg h := by cases h

/-- Nothing starts, and the streams stay. -/
theorem Started.same (h : Started srv peerAddr seen s) (ht : t.streams = s.streams) :
    Started srv peerAddr seen t where
  stream k st hst := h.stream k st (by rwa [ht] at hst)
  task k i msg hmem := by
    rw [ht]
    exact h.task k i msg hmem

/-- One stream goes on. -/
theorem Started.set (h : Started srv peerAddr seen s) {k : Nat} {st : Stream} (st' : Stream)
    (new : List (Nat × Nat × Message)) (hst : s.streams[k]? = some st) (ht : t.streams = s.streams.set k st')
    (hkeeps : Keeps srv peerAddr (seen ++ new) k st'.server)
    (htasks : ∀ (i : Nat) (x : Task), st.server.tasks[i]? = some x →
      ∃ x', st'.server.tasks[i]? = some x' ∧ x'.msg = x.msg)
    (hnew : ∀ j i msg, (j, i, msg) ∈ new → j = k ∧ ∃ x, st.server.tasks[i]? = some x ∧ x.msg = msg) :
    Started srv peerAddr (seen ++ new) t where
  stream j x hx := by
    rw [ht] at hx
    rcases getElem?_set_cases hx with ⟨rfl, rfl⟩ | ⟨hne, hold⟩
    · exact hkeeps
    · have hj := h.stream j x hold
      refine ⟨hj.id, hj.inv, hj.paced, ?_⟩
      have hnone : Tagged.select j new = [] := by
        rw [List.eq_nil_iff_forall_not_mem]
        intro e he
        exact hne (hnew j e.1 e.2 (Tagged.mem_select.mp he)).1
      rw [Tagged.select_append, hnone, List.append_nil]
      exact hj.starts
  task j i msg hmem := by
    have hkeep : ∀ x : Task, st.server.tasks[i]? = some x → x.msg = msg → j = k →
        ∃ st₁ y, t.streams[j]? = some st₁ ∧ st₁.server.tasks[i]? = some y ∧ y.msg = msg := by
      intro x hx hmsg hj
      obtain ⟨y, hy, hmsg'⟩ := htasks i x hx
      refine ⟨st', y, ?_, hy, hmsg'.trans hmsg⟩
      rw [ht, hj]
      exact getElem?_set_of_some hst
    rcases List.mem_append.mp hmem with hold | hnew'
    · obtain ⟨st₀, x, hst₀, hx, hmsg⟩ := h.task j i msg hold
      by_cases hj : j = k
      · subst hj
        rw [Option.some.inj (hst₀.symm.trans hst)] at hx
        exact hkeep x hx hmsg rfl
      · refine ⟨st₀, x, ?_, hx, hmsg⟩
        rw [ht, List.getElem?_set_ne (Ne.symm hj), hst₀]
    · obtain ⟨hj, x, hx, hmsg⟩ := hnew j i msg hnew'
      exact hkeep x hx hmsg hj

/-- A stream goes on, its server as before. -/
theorem Started.setStream (h : Started srv peerAddr seen s) {k : Nat} {st st' : Stream}
    (hst : s.streams[k]? = some st) (ht : t.streams = s.streams.set k st') (hserver : st'.server = st.server) :
    Started srv peerAddr seen t := by
  have hset := h.set st' [] hst ht (by rw [List.append_nil, hserver]; exact h.stream k st hst)
    (fun i x hx => ⟨x, by rw [hserver, hx], rfl⟩) fun j i msg hmem => by cases hmem
  rwa [List.append_nil] at hset

/-- A step of a server. -/
theorem Keeps.step {k : Nat} {server server' : ServerStream} {a : ServerStream.Act}
    (h : Keeps srv peerAddr seen k server) (hpanic : ∀ i, a ≠ .panic i)
    (hstep : ServerStream.step srv peerAddr server a = some server') :
    Keeps srv peerAddr (seen ++ (server.startOf a).map (k, ·)) k server' where
  id := (ServerStream.id_step hstep).trans h.id
  inv := ServerStream.inv_step server a server' h.inv hstep
  paced := ServerStream.paced_step h.paced hpanic hstep
  starts := by
    have hselect : Tagged.select k ((server.startOf a).map (k, ·)) = server.startOf a := by
      generalize server.startOf a = new
      induction new with
      | nil => rfl
      | cons e new ih => rw [List.map_cons, Tagged.select_cons, if_pos rfl, ih]
    rw [Tagged.select_append, hselect, List.map_append, h.starts, ServerStream.handlerStarts_step hstep]

/-- **What has started, step by step.** -/
theorem started_step {a : Act} (h : Started srv peerAddr seen s) (hpanic : ∀ k i, a ≠ .server k (.panic i))
    (hstep : step srv peerAddr s a = some t) : Started srv peerAddr (seen ++ startsOf s a) t := by
  cases moves_of_step hstep with
  | @server k st a server hst hserver =>
      have hnew : startsOf s (.server k a) = (st.server.startOf a).map (k, ·) := by
        unfold startsOf
        dsimp only
        rw [hst]
      rw [hnew]
      have hkeeps := (h.stream k st hst).step (fun i ha => hpanic k i (by rw [ha])) hserver
      refine h.set { st with server := server } _ hst rfl hkeeps (fun i x hx => ?_) fun j i msg hmem => ?_
      · exact ServerStream.exists_task_step hserver hx
      · obtain ⟨e, he, heq⟩ := List.mem_map.mp hmem
        cases heq
        exact ⟨rfl, ServerStream.exists_task_of_startOf he⟩
  | @send req st hphase hst hopen =>
      have hkeeps := h.stream _ st hst
      have hset := h.set (t := { s with
          streams := s.streams.set s.current { st with
            handed := st.handed ++ [req.call]
            server := { st.server with inbound := st.server.inbound ++ [req.msg] } }
          phase := .streaming (.sent req true) }) _ [] hst rfl
        (by
          rw [List.append_nil]
          exact ⟨hkeeps.id, ⟨hkeeps.inv.1, hkeeps.inv.2, hkeeps.inv.3, hkeeps.inv.4, hkeeps.inv.5, hkeeps.inv.6,
            hkeeps.inv.7, hkeeps.inv.8⟩, ⟨hkeeps.paced.known, hkeeps.paced.started⟩, hkeeps.starts⟩)
        (fun i x hx => ⟨x, hx, rfl⟩) fun j i msg hmem => by cases hmem
      exact hset
  | openOk hphase =>
      show Started srv peerAddr (seen ++ []) _
      rw [List.append_nil]
      constructor
      · intro k st hst
        rcases getElem?_append_cases hst with hold | ⟨rfl, rfl⟩
        · exact h.stream k st hold
        · refine ⟨rfl, ServerStream.inv_init _ _, ServerStream.paced_init _ _ _ _, ?_⟩
          have hnone : Tagged.select s.streams.length seen = [] := by
            rw [List.eq_nil_iff_forall_not_mem]
            intro e he
            obtain ⟨st, x, hst, -⟩ := h.task _ e.1 e.2 (Tagged.mem_select.mp he)
            exact absurd (List.getElem?_eq_some_iff.mp hst).1 (Nat.lt_irrefl _)
          rw [hnone]
          rfl
      · intro k i msg hmem
        obtain ⟨st, x, hst, hx⟩ := h.task k i msg hmem
        exact ⟨st, x, getElem?_append_of_some hst _, hx⟩
  | sendErr hphase hst hopen | fetch hst hmsg hrecv | abort hphase hst | close hphase hst | closeWire hst
  | fetchEnd hst hrecv | fetchErr hst hrecv | deliver hst hrecv | fail hst hrecv | stopRecv hst hrecv haborted =>
      show Started srv peerAddr (seen ++ []) _
      rw [List.append_nil]
      exact h.setStream hst rfl rfl
  | _ =>
      show Started srv peerAddr (seen ++ []) _
      rw [List.append_nil]
      exact h.same rfl

/-- What has started in a run without panics. -/
theorem started_run {acts : List Act} (hpanic : ∀ k i, .server k (.panic i) ∉ acts)
    (hrun : Transition.run (step srv peerAddr) init acts = some s) :
    Started srv peerAddr (Transition.trace (step srv peerAddr) startsOf init acts) s := by
  have hok : Transition.Within (step srv peerAddr) (fun _ a => ∀ k i, a ≠ .server k (.panic i)) init acts := by
    apply Transition.within_of_forall
    intro a ha k i heq
    exact hpanic k i (heq ▸ ha)
  have hstep : ∀ seen s a t, Started srv peerAddr seen s → (∀ k i, a ≠ .server k (.panic i)) →
      step srv peerAddr s a = some t → Started srv peerAddr (seen ++ startsOf s a) t := by
    intro seen s a t h hpanic hstep
    exact started_step h hpanic hstep
  have hinv := Transition.run_invariant_trace (P := Started srv peerAddr) hstep started_init hok hrun
  rwa [List.nil_append] at hinv

variable {k i j : Nat} {st : Stream} {x y : Task}

/-- A handler in the history of a stream was seen to start. -/
theorem Started.mem_of_history (h : Started srv peerAddr seen s) (hst : s.streams[k]? = some st)
    (hx : st.server.tasks[i]? = some x) (hstarted : .handler i ∈ st.server.history) : (k, i, x.msg) ∈ seen := by
  have hmem : i ∈ (Tagged.select k seen).map Prod.fst := by
    rw [(h.stream k st hst).starts]
    exact ServerStream.mem_handlerStarts.mpr hstarted
  obtain ⟨e, he, rfl⟩ := List.mem_map.mp hmem
  have hseen : (k, e.1, e.2) ∈ seen := Tagged.mem_select.mp he
  obtain ⟨st', x', hst', hx', hmsg⟩ := h.task k e.1 e.2 hseen
  rw [Option.some.inj (hst'.symm.trans hst)] at hx'
  rw [← Option.some.inj (hx'.symm.trans hx), hmsg]
  exact hseen

/-- A request that is answered has started. -/
theorem Started.mem_of_outbound (h : Started srv peerAddr seen s) (hst : s.streams[k]? = some st)
    (hx : st.server.tasks[i]? = some x) (hstarts : .handler ∈ srv.taskEvents (k, i) peerAddr x.msg) {m : Message}
    (hm : (i, m) ∈ st.server.outbound) : (k, i, x.msg) ∈ seen := by
  have hkeeps := h.stream k st hst
  rw [← hkeeps.id] at hstarts
  exact h.mem_of_history hst hx (hkeeps.paced.handler_of_outbound hx hstarts hm)

/-- What was received on the same stream before another request has started, as far as it starts a handler. -/
theorem Started.mem_of_lt (h : Started srv peerAddr seen s) (hst : s.streams[k]? = some st)
    (hx : st.server.tasks[i]? = some x) (hij : i < j) (hj : j < st.server.tasks.length)
    (hstarts : .handler ∈ srv.taskEvents (k, i) peerAddr x.msg) : (k, i, x.msg) ∈ seen := by
  have hkeeps := h.stream k st hst
  rw [← hkeeps.id] at hstarts
  exact h.mem_of_history hst hx (hkeeps.paced.handler_of_lt hkeeps.inv hx hstarts hij hj)

/-- The requests of a stream start in the order in which they were received. -/
theorem Started.lt_of_sublist (h : Started srv peerAddr seen s) {msg msg' : Message}
    (hsub : [(k, i, msg), (k, j, msg')].Sublist seen) : i < j := by
  obtain ⟨st, x, hst, -⟩ := h.task k i msg (hsub.subset (List.mem_cons_self ..))
  have hsorted := (h.stream k st hst).inv.sorted
  rw [← (h.stream k st hst).starts] at hsorted
  have hpair : [i, j].Sublist ((Tagged.select k seen).map Prod.fst) := by
    have hselect := (Tagged.select_sublist k hsub).map Prod.fst
    rwa [Tagged.select_cons, if_pos rfl, Tagged.select_cons, if_pos rfl, Tagged.select_nil] at hselect
  exact List.rel_of_pairwise_cons (hsorted.sublist hpair) (List.mem_singleton_self j)

end Node

end Quorums
