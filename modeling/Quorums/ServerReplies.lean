import Quorums.ServerFifo

/-! What comes back on a stream: every message in the response channel was emitted by the task of one of
the messages received, as a step of that task. -/

namespace Quorums.ServerStream

open Server ListUpdate

variable (srv : Server) (peerAddr : Option String)

/-- The task of message `i` has this step among its steps. -/
def Produces (s : ServerStream) (i : Nat) (t : Task) (e : TaskEvent) : Prop :=
  e ∈ srv.taskEvents (s.id, i) peerAddr t.msg

/-- Whatever a task still does, and whatever was sent back, is a step of a task. -/
structure Produced (s : ServerStream) : Prop where
  todo : ∀ i t, s.tasks[i]? = some t → ∀ e ∈ t.todo, s.Produces srv peerAddr i t e
  outbound : ∀ i m, (i, m) ∈ s.outbound → ∃ t, s.tasks[i]? = some t ∧ s.Produces srv peerAddr i t (.emit m)

theorem produced_init (id : Nat) : (init id []).Produced srv peerAddr where
  todo i t h := by simp [init] at h
  outbound i m h := by simp [init] at h

variable {srv peerAddr} {s u : ServerStream}

/-- A task goes on with a part of its steps, after the step `e`. -/
theorem Produced.set (h : s.Produced srv peerAddr) {i : Nat} {t y : Task} (hi : s.tasks[i]? = some t)
    (hmsg : y.msg = t.msg) (htodo : ∀ e ∈ y.todo, e ∈ t.todo) (hid : u.id = s.id)
    (htasks : u.tasks = s.tasks.set i y)
    (hout : ∀ j m, (j, m) ∈ u.outbound → (j, m) ∈ s.outbound ∨ (j = i ∧ .emit m ∈ t.todo)) :
    u.Produced srv peerAddr where
  todo j x hj e he := by
    rw [htasks] at hj
    rw [Produces, hid]
    rcases getElem?_set_cases hj with ⟨rfl, rfl⟩ | ⟨-, hold⟩
    · rw [hmsg]
      exact h.todo j t hi e (htodo e he)
    · exact h.todo j x hold e he
  outbound j m hm := by
    simp only [Produces, hid, htasks]
    have hkeep : ∀ x, s.tasks[j]? = some x → s.Produces srv peerAddr j x (.emit m) →
        ∃ z, (s.tasks.set i y)[j]? = some z ∧ .emit m ∈ srv.taskEvents (s.id, j) peerAddr z.msg := by
      intro x hx hprod
      by_cases hij : i = j
      · subst hij
        refine ⟨y, getElem?_set_of_some hi, ?_⟩
        rw [hmsg, Option.some.inj (hi.symm.trans hx)]
        exact hprod
      · refine ⟨x, ?_, hprod⟩
        rw [List.getElem?_set, if_neg hij]
        exact hx
    rcases hout j m hm with hold | ⟨rfl, hemit⟩
    · obtain ⟨x, hx, hprod⟩ := h.outbound j m hold
      exact hkeep x hx hprod
    · exact hkeep t hi (h.todo j t hi _ hemit)

theorem Produced.spawn (h : s.Produced srv peerAddr) (msg : Message) (hid : u.id = s.id)
    (htasks : u.tasks =
      s.tasks ++ [⟨msg, true, srv.taskEvents (s.id, s.tasks.length) peerAddr msg⟩])
    (hout : u.outbound = s.outbound) : u.Produced srv peerAddr where
  todo j x hj e he := by
    rw [htasks] at hj
    rw [Produces, hid]
    rcases getElem?_append_cases hj with hold | ⟨rfl, rfl⟩
    · exact h.todo j x hold e he
    · exact he
  outbound j m hm := by
    rw [hout] at hm
    obtain ⟨x, hx, hprod⟩ := h.outbound j m hm
    refine ⟨x, ?_, ?_⟩
    · rw [htasks]
      exact getElem?_append_of_some hx _
    · rw [Produces, hid]
      exact hprod

/-- What every step of a stream keeps: its number, what it sent back, and where that came from. -/
theorem produced_step (a : Act) (h : s.Produced srv peerAddr) (hstep : step srv peerAddr s a = some u) :
    u.Produced srv peerAddr := by
  cases a with
  | lock | stop =>
      rw [step] at hstep
      split at hstep
      · cases hstep
        exact ⟨h.todo, h.outbound⟩
      · cases hstep
  | recv =>
      rw [step] at hstep
      split at hstep
      · rename_i msg rest hrecv hinbound
        cases hstep
        exact h.spawn msg rfl rfl rfl
      · cases hstep
  | run i =>
      rw [step] at hstep
      split at hstep
      · rename_i msg guard e rest hi
        cases hstep
        have hrest : ∀ x ∈ rest, x ∈ e :: rest := fun x hx => List.mem_cons_of_mem e hx
        cases e with
        | emit m =>
            refine h.set (y := ⟨msg, guard, rest⟩) hi rfl hrest rfl rfl fun j x hx => ?_
            rcases List.mem_append.mp hx with hold | hnew
            · exact Or.inl hold
            · rw [List.mem_singleton] at hnew
              cases hnew
              exact Or.inr ⟨rfl, List.mem_cons_self⟩
        | interceptors | handler =>
            exact h.set (y := ⟨msg, guard, rest⟩) hi rfl hrest rfl rfl fun j x hx => Or.inl hx
        | release | dropCtx | dropGuard =>
            exact h.set (y := ⟨msg, false, rest⟩) hi rfl hrest rfl rfl fun j x hx => Or.inl hx
      · cases hstep
  | panic i =>
      rw [step] at hstep
      split at hstep
      · rename_i msg guard e rest hi
        cases hstep
        exact h.set (y := ⟨msg, false, []⟩) hi rfl (by simp) rfl rfl fun j x hx => Or.inl hx
      · cases hstep

theorem id_step {a : Act} (hstep : step srv peerAddr s a = some u) : u.id = s.id := by
  cases a with
  | lock | stop | recv | panic i =>
      rw [step] at hstep
      split at hstep
      · cases hstep
        rfl
      · cases hstep
  | run i =>
      rw [step] at hstep
      split at hstep
      · rename_i msg guard e rest hi
        cases hstep
        cases e <;> rfl
      · cases hstep

/-- The response channel only grows. -/
theorem outbound_step {a : Act} {x : Nat × Message} (hstep : step srv peerAddr s a = some u)
    (hx : x ∈ s.outbound) : x ∈ u.outbound := by
  cases a with
  | lock | stop | recv | panic i =>
      rw [step] at hstep
      split at hstep
      · cases hstep
        exact hx
      · cases hstep
  | run i =>
      rw [step] at hstep
      split at hstep
      · rename_i msg guard e rest hi
        cases hstep
        cases e with
        | emit m => exact List.mem_append_left _ hx
        | _ => exact hx
      · cases hstep

end Quorums.ServerStream
