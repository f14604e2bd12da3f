import Quorums.EpaxosSystem

/-! Where the values of an instance come from. Every value that is accepted or committed anywhere was
fixed by some call by itself: at the end of a PreAccept round, or of a Prepare round in which nobody had
accepted or committed a value. Nothing keeps two calls on one instance from both doing so. -/

namespace Quorums.Epaxos

abbrev Decisions := List ((Nat × Int) × Value)

@[simp] theorem asUsize_natCast (r : Nat) : asUsize (r : Int) = r := by
  rw [asUsize, if_pos (Int.natCast_nonneg r), Int.toNat_natCast]

namespace Request

/-- The record a request writes as accepted or committed. -/
def written : Request → Option ((Nat × Int) × Value)
  | .accept p => some ((asUsize p.replica, p.slot), p.value)
  | .commit c => some ((asUsize c.replica, c.slot), c.value)
  | _ => none

/-- The instance a request is about. -/
def key : Request → Nat × Int
  | .preAccept p | .accept p | .tryPreAccept p => (asUsize p.replica, p.slot)
  | .commit c => (asUsize c.replica, c.slot)
  | .prepare q => (asUsize q.replica, q.slot)

/-- A request of a call on the instance: what it writes was decided. -/
structure For (decided : Decisions) (key : Nat × Int) (req : Request) : Prop where
  key : req.key = key
  written : ∀ w, req.written = some w → w ∈ decided

theorem For.mono {decided more : Decisions} {key : Nat × Int} {req : Request} (h : req.For decided key) :
    req.For (decided ++ more) key :=
  ⟨h.key, fun w hw => List.mem_append_left _ (h.written w hw)⟩

end Request

/-- A reply to a call on the instance: what it shows as accepted or committed was decided. -/
def Reply.For (decided : Decisions) (key : Nat × Int) : Reply → Prop
  | .prepare r => r.status.settled = true → (key, r.value) ∈ decided
  | _ => True

theorem Reply.For.mono {decided more : Decisions} {key : Nat × Int} {reply : Reply}
    (h : reply.For decided key) : reply.For (decided ++ more) key := by
  cases reply with
  | prepare r => exact fun hsettled => List.mem_append_left _ (h hsettled)
  | _ => trivial

/-- The value of a call that has one was decided for its instance. -/
def Phase.For (decided : Decisions) (key : Nat × Int) : Phase → Prop
  | .preAccepting _ _ _ _ | .failed => True
  | .preparing replies => ∀ r ∈ replies, r.status.settled = true → (key, r.value) ∈ decided
  | .tryPreAccepting v _ | .accepting v _ | .committing v _ | .notifying v _ => (key, v) ∈ decided
  | .done info => key = (info.replica, info.slot) ∧
      ∃ v, (key, v) ∈ decided ∧ info.seq = v.seq ∧ info.deps = v.deps

theorem Phase.For.mono {decided more : Decisions} {key : Nat × Int} {phase : Phase}
    (h : phase.For decided key) : phase.For (decided ++ more) key := by
  cases phase with
  | preAccepting | failed => trivial
  | preparing replies => exact fun r hr hsettled => List.mem_append_left _ (h r hr hsettled)
  | tryPreAccepting | accepting | committing | notifying => exact List.mem_append_left _ h
  | done info =>
      obtain ⟨hkey, v, hv, hattrs⟩ := h
      exact ⟨hkey, v, List.mem_append_left _ hv, hattrs⟩

namespace Coordinator

/-- The instance of a call. -/
def key (c : Coordinator) : Nat × Int := (c.replica, c.slot)

structure Inv (decided : Decisions) (c : Coordinator) : Prop where
  phase : c.phase.For decided c.key
  outbox : ∀ e ∈ c.outbox, e.2.For decided c.key

variable {decided : Decisions} {c : Coordinator} {v : Value}

theorem Inv.mono (h : Inv decided c) (more : Decisions) : Inv (decided ++ more) c :=
  ⟨h.phase.mono, fun e he => (h.outbox e he).mono⟩

theorem Inv.setPhase (h : Inv decided c) {phase : Phase} (hphase : phase.For decided c.key) :
    Inv decided { c with phase := phase } := ⟨hphase, h.outbox⟩

theorem Inv.fanOut (h : Inv decided c) (peers : List Nat) {req : Request} (hreq : req.For decided c.key) :
    Inv decided (c.fanOut peers req) := by
  refine ⟨h.phase, fun e he => ?_⟩
  rcases List.mem_append.mp he with he | he
  · exact h.outbox e he
  · obtain ⟨p, -, rfl⟩ := List.mem_map.mp he
    exact hreq

theorem for_accept (c : Coordinator) (hv : (c.key, v) ∈ decided) :
    (Request.accept (c.proposal v)).For decided c.key := by
  refine ⟨by simp [Request.key, proposal, key], fun w hw => ?_⟩
  rw [Request.written, Option.some.injEq] at hw
  rw [← hw]
  simpa [proposal, Proposal.value, key] using hv

theorem for_commit (c : Coordinator) (hv : (c.key, v) ∈ decided) :
    (Request.commit (c.commitRequest v)).For decided c.key := by
  refine ⟨by simp [Request.key, commitRequest, key], fun w hw => ?_⟩
  rw [Request.written, Option.some.injEq] at hw
  rw [← hw]
  simpa [commitRequest, CommitRequest.value, key] using hv

theorem for_unwritten {req : Request} {key : Nat × Int} (hkey : req.key = key) (hnone : req.written = none) :
    req.For decided key := by
  refine ⟨hkey, fun w hw => ?_⟩
  rw [hnone] at hw
  cases hw

theorem Inv.accept (h : Inv decided c) (hv : (c.key, v) ∈ decided) : Inv decided (c.accept v) :=
  (h.fanOut c.peers (for_accept c hv)).setPhase hv

theorem Inv.commit (h : Inv decided c) (hv : (c.key, v) ∈ decided) (fastPath : Bool) :
    Inv decided (c.commit v fastPath) := h.setPhase hv

theorem Inv.fail (h : Inv decided c) : Inv decided c.fail := h.setPhase trivial

theorem inv_propose (decided : Decisions) (home : Nat) (cmds : List Command) (peers : List Nat)
    (thrifty : Bool) (slot seq : Int) (deps : List Int) :
    Inv decided (Coordinator.propose home cmds peers thrifty slot seq deps) := by
  have hfresh (commitPeers : List Nat) : Inv decided
      ⟨home, peers, commitPeers, home, slot, peers.length + 1, 0, .preAccepting cmds seq deps [], []⟩ :=
    ⟨trivial, nofun⟩
  rw [Coordinator.propose]
  split
  · exact (hfresh _).fail
  · refine (hfresh _).fanOut peers (for_unwritten ?_ rfl)
    simp [Request.key, proposal, key]

theorem inv_recover (decided : Decisions) (home n replica : Nat) (slot : Int) (peers : List Nat) :
    Inv decided (Coordinator.recover home n replica slot peers) := by
  have hfresh : Inv decided ⟨home, peers, peers, replica, slot, n, 1, .preparing [], []⟩ :=
    ⟨nofun, nofun⟩
  rw [Coordinator.recover]
  split
  · exact hfresh.fail
  · refine hfresh.fanOut peers (for_unwritten ?_ rfl)
    simp [Request.key, key]

/-- The decisions of a call that has fixed `fixed` by itself. -/
def decisions (c : Coordinator) (fixed : Option Value) : Decisions := fixed.toList.map fun v => (c.key, v)

theorem maxByBallot_mem {replies : List PrepareReply} {r : PrepareReply} (h : maxByBallot replies = some r) :
    r ∈ replies := by
  induction replies generalizing r with
  | nil => cases h
  | cons x rest ih =>
      rw [maxByBallot] at h
      split at h
      · cases h
        exact List.mem_cons_self
      · rename_i best hbest
        split at h <;> cases h
        · exact List.mem_cons_self
        · exact List.mem_cons_of_mem _ (ih hbest)

/-- What `recover` takes over from a reply was shown as accepted or committed. -/
theorem analyze_adopted {n : Nat} {replies : List PrepareReply} (h : (analyze n replies).own = false) :
    ∃ r ∈ replies, r.status.settled = true ∧ (analyze n replies).value = r.value := by
  rw [analyze] at h ⊢
  split at h
  · rename_i r hr
    refine ⟨r, List.mem_of_find?_eq_some hr, ?_, rfl⟩
    have hstatus := List.find?_some hr
    simp only [decide_eq_true_eq] at hstatus
    rw [hstatus]
    rfl
  · split at h
    · rename_i r hr
      have hmem := List.mem_filter.mp (maxByBallot_mem hr)
      refine ⟨r, hmem.1, ?_, by simp [Analysis.value]⟩
      have hstatus : r.status = .accepted := by simpa using hmem.2
      rw [hstatus]
      rfl
    · have hown (p : Prop) [Decidable p] (v : Value) :
          (if p then Analysis.tryFast v else .slow v).own = true := by
        split <;> rfl
      rw [hown] at h
      cases h

theorem Inv.conclude (h : Inv decided c) {analysis : Analysis} (hv : (c.key, analysis.value) ∈ decided) :
    Inv decided (c.conclude analysis) := by
  cases analysis with
  | committed v => exact h.commit hv false
  | accepted v => exact h.accept hv
  | slow v => exact h.accept hv
  | tryFast v =>
      refine (h.fanOut c.peers (for_unwritten ?_ rfl)).setPhase hv
      simp [Request.key, proposal, key]

theorem key_conclude (c : Coordinator) (analysis : Analysis) : (c.conclude analysis).key = c.key := by
  cases analysis <;> rfl

theorem key_receive (c : Coordinator) (reply : Reply) : (c.receive reply).1.key = c.key := by
  cases reply with
  | preAccept r =>
      simp only [receive]
      split
      · split
        · split <;> rfl
        · rfl
      · rfl
  | prepare r =>
      simp only [receive]
      split
      · split
        · exact key_conclude c _
        · rfl
      · rfl
  | tryPreAccept r =>
      simp only [receive]
      split
      · split
        · split <;> rfl
        · rfl
      · rfl
  | accept r =>
      simp only [receive]
      split
      · split <;> rfl
      · rfl

/-- A call that reads a reply has its value from the reply, from before, or from itself. -/
theorem Inv.receive (h : Inv decided c) {reply : Reply} (hreply : reply.For decided c.key) :
    Inv (decided ++ c.decisions (c.receive reply).2) (c.receive reply).1 := by
  have hsame {c' : Coordinator} (h : Inv decided c') : Inv (decided ++ c.decisions none) c' := by
    rw [decisions, Option.toList_none, List.map_nil, List.append_nil]
    exact h
  have hown (v : Value) : (c.key, v) ∈ decided ++ c.decisions (some v) :=
    List.mem_append_right _ (by simp [decisions])
  cases reply with
  | preAccept r =>
      simp only [Coordinator.receive]
      split
      · split
        · split
          · exact (h.mono _).commit (hown _) true
          · exact (h.mono _).accept (hown _)
        · exact hsame (h.setPhase trivial)
      · exact hsame h
  | prepare r =>
      simp only [Coordinator.receive]
      split
      · rename_i replies hphase
        have hreplies : ∀ x ∈ replies ++ [r], x.status.settled = true → (c.key, x.value) ∈ decided := by
          intro x hx
          rcases List.mem_append.mp hx with hx | hx
          · have hfor := h.phase
            rw [hphase] at hfor
            exact hfor x hx
          · rw [List.mem_singleton.mp hx]
            exact hreply
        split
        · split
          · exact (h.mono _).conclude (hown _)
          · rename_i hnot
            obtain ⟨x, hx, hsettled, hvalue⟩ := analyze_adopted (Bool.eq_false_iff.mpr hnot)
            refine hsame (h.conclude ?_)
            rw [hvalue]
            exact hreplies x hx hsettled
        · exact hsame (h.setPhase hreplies)
      · exact hsame h
  | tryPreAccept r =>
      simp only [Coordinator.receive]
      split
      · rename_i v replies hphase
        have hv : (c.key, v) ∈ decided := by
          have hfor := h.phase
          rwa [hphase] at hfor
        split
        · split
          · exact hsame (h.commit hv true)
          · exact hsame (h.accept hv)
        · exact hsame (h.setPhase hv)
      · exact hsame h
  | accept r =>
      simp only [Coordinator.receive]
      split
      · rename_i v count hphase
        have hv : (c.key, v) ∈ decided := by
          have hfor := h.phase
          rwa [hphase] at hfor
        split
        · exact hsame (h.commit hv false)
        · exact hsame (h.setPhase hv)
      · exact hsame h

theorem Inv.decided_of_committing (h : Inv decided c) {fastPath : Bool}
    (hphase : c.phase = .committing v fastPath) : (c.key, v) ∈ decided := by
  have hfor := h.phase
  rwa [hphase] at hfor

theorem Inv.giveUp {c' : Coordinator} (h : Inv decided c) (hstep : c.giveUp = some c') :
    Inv decided c' ∧ c'.key = c.key := by
  rw [Coordinator.giveUp] at hstep
  split at hstep
  · rename_i v replies hphase
    cases hstep
    have hfor := h.phase
    rw [hphase] at hfor
    exact ⟨h.accept hfor, rfl⟩
  · cases hstep
  · cases hstep
  · cases hstep
  · cases hstep
    exact ⟨h.fail, rfl⟩

end Coordinator

variable {rt : Runtime} {s t : State}

theorem recordsFrom_handle {inner inner' : ReplicaInner} {req : Request} {reply : Option Reply}
    (h : handle rt inner req = some (inner', reply)) : RecordsFrom req.written inner inner' := by
  cases req with
  | preAccept req =>
      obtain ⟨⟨next, r⟩, hnext, heq⟩ := Option.map_eq_some_iff.mp h
      cases heq
      exact recordsFrom_preAccept hnext
  | accept req =>
      obtain ⟨⟨next, r⟩, hnext, heq⟩ := Option.map_eq_some_iff.mp h
      cases heq
      exact recordsFrom_accept hnext
  | commit req =>
      obtain ⟨next, hnext, heq⟩ := Option.map_eq_some_iff.mp h
      cases heq
      exact recordsFrom_commit hnext
  | prepare req =>
      cases h
      exact .refl inner
  | tryPreAccept req =>
      obtain ⟨r, -, heq⟩ := Option.map_eq_some_iff.mp h
      cases heq
      exact .refl inner

theorem recordsFrom_commitRemains (inner : ReplicaInner) (r : Nat) (slot : Int) (v : Value) :
    RecordsFrom (some ((r, slot), v)) inner (commitRemains inner r slot v) := by
  rw [commitRemains]
  cases h : recordCommit inner r slot v with
  | none => exact .refl inner
  | some p => exact recordsFrom_recordCommit h

theorem recordsFrom_remains (inner : ReplicaInner) (req : Request) :
    RecordsFrom req.written inner (remains inner req) := by
  cases req with
  | commit req => exact recordsFrom_commitRemains inner _ _ _
  | _ => exact .refl inner

theorem recordsFrom_serve (rep : Replica) (req : Request) :
    RecordsFrom req.written rep.inner (rep.serve rt req).1.inner := by
  rw [Replica.serve]
  split
  · exact .refl _
  · split
    · rename_i hhandle
      exact recordsFrom_handle hhandle
    · exact recordsFrom_remains rep.inner req

/-- The accepted and committed records of a replica were decided. -/
def Replica.For (decided : Decisions) (rep : Replica) : Prop :=
  ∀ r k inst, rep.inner.instance? r k = some inst → inst.status.settled = true →
    ((r, (k : Int)), inst.value) ∈ decided

theorem Replica.For.mono {decided more : Decisions} {rep : Replica} (h : rep.For decided) :
    rep.For (decided ++ more) :=
  fun r k inst hinst hsettled => List.mem_append_left _ (h r k inst hinst hsettled)

theorem Replica.For.of_recordsFrom {decided : Decisions} {rep rep' : Replica} (h : rep.For decided)
    {written : Option ((Nat × Int) × Value)} (hrecords : RecordsFrom written rep.inner rep'.inner)
    (hwritten : ∀ w, written = some w → w ∈ decided) : rep'.For decided := by
  intro r k inst hinst hsettled
  rcases hrecords r k inst hinst hsettled with hold | hnew
  · exact h r k inst hold hsettled
  · exact hwritten _ hnew

/-- A reply is made from the records of the replica. -/
theorem Replica.For.serve (rt : Runtime) {decided : Decisions} {rep : Replica} (h : rep.For decided)
    {req : Request} {key : Nat × Int} (hreq : req.For decided key) :
    (rep.serve rt req).1.For decided ∧
      ∀ reply, (rep.serve rt req).2 = some reply → reply.For decided key := by
  refine ⟨h.of_recordsFrom (recordsFrom_serve rep req) hreq.written, fun reply hreply => ?_⟩
  rw [Replica.serve] at hreply
  split at hreply
  · cases hreply
  · split at hreply
    · rename_i inner out hhandle
      dsimp only at hreply
      subst hreply
      cases req with
      | preAccept req | accept req | tryPreAccept req =>
          obtain ⟨p, -, heq⟩ := Option.map_eq_some_iff.mp hhandle
          cases heq
          trivial
      | commit req =>
          obtain ⟨p, -, heq⟩ := Option.map_eq_some_iff.mp hhandle
          cases heq
      | prepare req =>
          cases hhandle
          intro hsettled
          obtain ⟨k, inst, hslot, hinst, hst, hvalue⟩ := handlePrepareInner_settled hsettled
          have hmem := h _ _ _ hinst hst
          rw [hvalue, ← hslot] at hmem
          exact hreq.key ▸ hmem
    · cases hreply

/-- Something holds of the instance of call `c`. -/
def OfCall (calls : List Coordinator) (c : Nat) (P : Nat × Int → Prop) : Prop :=
  ∃ call, calls[c]? = some call ∧ P call.key

theorem OfCall.append {calls : List Coordinator} {c : Nat} {P : Nat × Int → Prop} (h : OfCall calls c P)
    (more : List Coordinator) : OfCall (calls ++ more) c P := by
  obtain ⟨call, hcall, hP⟩ := h
  exact ⟨call, ListUpdate.getElem?_append_of_some hcall more, hP⟩

theorem OfCall.set {calls : List Coordinator} {c d : Nat} {P : Nat × Int → Prop} (h : OfCall calls c P)
    {old new : Coordinator} (hold : calls[d]? = some old) (hkey : new.key = old.key) :
    OfCall (calls.set d new) c P := by
  obtain ⟨call, hcall, hP⟩ := h
  by_cases hcd : d = c
  · subst hcd
    rw [hold] at hcall
    cases hcall
    exact ⟨new, ListUpdate.getElem?_set_of_some hold, hkey ▸ hP⟩
  · exact ⟨call, by rw [List.getElem?_set, if_neg hcd]; exact hcall, hP⟩

theorem OfCall.mono {calls : List Coordinator} {c : Nat} {P Q : Nat × Int → Prop} (h : OfCall calls c P)
    (hPQ : ∀ key, P key → Q key) : OfCall calls c Q := by
  obtain ⟨call, hcall, hP⟩ := h
  exact ⟨call, hcall, hPQ _ hP⟩

/-- Every value that is accepted or committed, or on its way to be, was decided for its instance. -/
structure State.Inv (s : State) : Prop where
  replicas : ∀ rep ∈ s.replicas, rep.For s.decided
  calls : ∀ call ∈ s.calls, call.Inv s.decided
  requests : ∀ e x, x ∈ s.requests e → OfCall s.calls x.1 fun key => x.2.For s.decided key
  replies : ∀ e x, x ∈ s.replies e → OfCall s.calls x.1 fun key => x.2.For s.decided key

theorem State.call?_eq_some {c : Nat} {call : Coordinator} (h : s.call? c = some call) :
    s.calls[c]? = some call := by
  obtain ⟨call', hcall, hrest⟩ := Option.bind_eq_some_iff.mp h
  obtain ⟨rep, -, hif⟩ := Option.bind_eq_some_iff.mp hrest
  split at hif
  · cases hif
  · rw [← Option.some.inj hif]
    exact hcall

theorem State.running?_eq_some {i : Nat} {rep : Replica} (h : s.running? i = some rep) :
    s.replicas[i]? = some rep := by
  obtain ⟨rep', hrep, hif⟩ := Option.bind_eq_some_iff.mp h
  split at hif
  · cases hif
  · rw [← Option.some.inj hif]
    exact hrep

theorem State.running?_of_getElem? {i : Nat} {rep : Replica} (hrep : s.replicas[i]? = some rep)
    (hstopped : rep.stopped = false) : s.running? i = some rep := by
  rw [State.running?, hrep, Option.bind_some, if_neg (by simp [hstopped])]

theorem State.stopped_of_running? {i : Nat} {rep : Replica} (h : s.running? i = some rep) :
    rep.stopped = false := by
  obtain ⟨rep', -, hif⟩ := Option.bind_eq_some_iff.mp h
  split at hif
  · cases hif
  · rename_i hnot
    cases hif
    simpa using hnot

theorem State.call?_of_running? {c : Nat} {call : Coordinator} {rep : Replica}
    (hcall : s.calls[c]? = some call) (hrep : s.running? call.home = some rep) : s.call? c = some call := by
  have hstopped := State.stopped_of_running? hrep
  rw [State.call?, hcall, Option.bind_some, State.running?_eq_some hrep, Option.bind_some,
    if_neg (by simp [hstopped])]

namespace State.Inv

theorem setCall (h : s.Inv) {c : Nat} {old new : Coordinator} (hold : s.calls[c]? = some old)
    (hnew : new.Inv s.decided) (hkey : new.key = old.key) : (s.setCall c new).Inv where
  replicas := h.replicas
  calls call hcall := by
    rcases List.mem_or_eq_of_mem_set hcall with hcall | rfl
    · exact h.calls call hcall
    · exact hnew
  requests e x hx := (h.requests e x hx).set hold hkey
  replies e x hx := (h.replies e x hx).set hold hkey

theorem addCall (h : s.Inv) {call : Coordinator} (hcall : call.Inv s.decided) :
    State.Inv { s with calls := s.calls ++ [call] } where
  replicas := h.replicas
  calls x hx := by
    rcases List.mem_append.mp hx with hx | hx
    · exact h.calls x hx
    · rw [List.mem_singleton.mp hx]
      exact hcall
  requests e x hx := (h.requests e x hx).append _
  replies e x hx := (h.replies e x hx).append _

theorem setReplica (h : s.Inv) (i : Nat) {rep : Replica} (hrep : rep.For s.decided) :
    State.Inv { s with replicas := s.replicas.set i rep } where
  replicas x hx := by
    rcases List.mem_or_eq_of_mem_set hx with hx | rfl
    · exact h.replicas x hx
    · exact hrep
  calls := h.calls
  requests := h.requests
  replies := h.replies

theorem decide (h : s.Inv) (more : Decisions) : State.Inv { s with decided := s.decided ++ more } where
  replicas rep hrep := (h.replicas rep hrep).mono
  calls call hcall := (h.calls call hcall).mono more
  requests e x hx := (h.requests e x hx).mono fun _ => Request.For.mono
  replies e x hx := (h.replies e x hx).mono fun _ => Reply.For.mono

theorem setRequests (h : s.Inv) {e : Nat × Nat} {queue : List (Nat × Request)}
    (hqueue : ∀ x ∈ queue, OfCall s.calls x.1 fun key => x.2.For s.decided key) :
    State.Inv { s with requests := Function.update s.requests e queue } where
  replicas := h.replicas
  calls := h.calls
  requests :=
    (Function.forall_update_iff s.requests fun _ queue =>
      ∀ x ∈ queue, OfCall s.calls x.1 fun key => x.2.For s.decided key).mpr
        ⟨hqueue, fun e' _ => h.requests e'⟩
  replies := h.replies

theorem setReplies (h : s.Inv) {e : Nat × Nat} {queue : List (Nat × Reply)}
    (hqueue : ∀ x ∈ queue, OfCall s.calls x.1 fun key => x.2.For s.decided key) :
    State.Inv { s with replies := Function.update s.replies e queue } where
  replicas := h.replicas
  calls := h.calls
  requests := h.requests
  replies :=
    (Function.forall_update_iff s.replies fun _ queue =>
      ∀ x ∈ queue, OfCall s.calls x.1 fun key => x.2.For s.decided key).mpr
        ⟨hqueue, fun e' _ => h.replies e'⟩

theorem enqueue (h : s.Inv) {c k : Nat} {call : Coordinator} {entry : Nat × Request}
    (hcall : s.calls[c]? = some call) (hentry : call.outbox[k]? = some entry) :
    State.Inv { s.setCall c { call with outbox := call.outbox.eraseIdx k } with
      requests := Function.update s.requests (call.home, entry.1)
        (s.requests (call.home, entry.1) ++ [(c, entry.2)]) } := by
  have hinv := h.calls call (List.mem_of_getElem? hcall)
  have hnew : Coordinator.Inv s.decided { call with outbox := call.outbox.eraseIdx k } :=
    ⟨hinv.phase, fun e he => hinv.outbox e (List.mem_of_mem_eraseIdx he)⟩
  refine (h.setCall hcall hnew rfl).setRequests fun x hx => ?_
  refine OfCall.set ?_ hcall rfl
  rcases List.mem_append.mp hx with hx | hx
  · exact h.requests _ x hx
  · rw [List.mem_singleton.mp hx]
    exact ⟨call, hcall, hinv.outbox entry (List.mem_of_getElem? hentry)⟩

theorem deliver (h : s.Inv) (rt : Runtime) {i j c : Nat} {req : Request} {rest : List (Nat × Request)}
    {rep : Replica} (hqueue : s.requests (i, j) = (c, req) :: rest) (hrep : s.replicas[j]? = some rep) :
    State.Inv { s with
      replicas := s.replicas.set j (rep.serve rt req).1
      requests := Function.update s.requests (i, j) rest
      replies := match (rep.serve rt req).2 with
        | some reply => Function.update s.replies (j, i) (s.replies (j, i) ++ [(c, reply)])
        | none => s.replies } := by
  obtain ⟨call, hcall, hreq⟩ := h.requests (i, j) (c, req) (by rw [hqueue]; exact List.mem_cons_self)
  obtain ⟨hserved, hreply⟩ := (h.replicas rep (List.mem_of_getElem? hrep)).serve rt hreq
  have hpopped : State.Inv { s with
      replicas := s.replicas.set j (rep.serve rt req).1
      requests := Function.update s.requests (i, j) rest } :=
    (h.setReplica j hserved).setRequests fun x hx =>
      h.requests (i, j) x (by rw [hqueue]; exact List.mem_cons_of_mem _ hx)
  cases hout : (rep.serve rt req).2 with
  | none => exact hpopped
  | some reply =>
      refine hpopped.setReplies fun x hx => ?_
      rcases List.mem_append.mp hx with hx | hx
      · exact h.replies _ x hx
      · rw [List.mem_singleton.mp hx]
        exact ⟨call, hcall, hreply reply hout⟩

theorem receive (h : s.Inv) {i j c : Nat} {reply : Reply} {rest : List (Nat × Reply)} {call : Coordinator}
    (hqueue : s.replies (j, i) = (c, reply) :: rest) (hcall : s.calls[c]? = some call) :
    State.Inv { s.setCall c (call.receive reply).1 with
      replies := Function.update s.replies (j, i) rest
      decided := s.decided ++ call.decisions (call.receive reply).2 } := by
  obtain ⟨call', hcall', hreply⟩ :=
    h.replies (j, i) (c, reply) (by rw [hqueue]; exact List.mem_cons_self)
  rw [hcall] at hcall'
  cases hcall'
  have hkey := Coordinator.key_receive call reply
  have hnext := (h.calls call (List.mem_of_getElem? hcall)).receive hreply
  refine ((h.decide _).setCall hcall hnext hkey).setReplies fun x hx => ?_
  refine OfCall.set ?_ hcall hkey
  exact (h.replies (j, i) x (by rw [hqueue]; exact List.mem_cons_of_mem _ hx)).mono
    fun _ => Reply.For.mono

end State.Inv

theorem inv_step {a : Act} (h : s.Inv) (hstep : step rt s a = some t) : t.Inv := by
  have hreplica {i : Nat} {rep : Replica} (hrep : s.running? i = some rep) : rep.For s.decided :=
    h.replicas rep (List.mem_of_getElem? (State.running?_eq_some hrep))
  have hinv {c : Nat} {call : Coordinator} (hcall : s.call? c = some call) : call.Inv s.decided :=
    h.calls call (List.mem_of_getElem? (State.call?_eq_some hcall))
  cases moves_of_step hstep with
  | @propose i _ _ _ rep inner _ _ _ hrep hlock hstart =>
      have hold := hreplica hrep
      have hinner : Replica.For s.decided { rep with inner := inner } := by
        simp only [ReplicaInner.startProposal, Option.bind_eq_bind, Option.bind_eq_some_iff] at hstart
        obtain ⟨curSlot, -, attrs, -, conflicts, -, deps', -, heq⟩ := hstart
        cases heq
        exact hold
      exact (h.addCall (Coordinator.inv_propose _ _ _ _ _ _ _ _)).setReplica i hinner
  | @proposePanic i _ _ _ rep hrep =>
      have hold := hreplica hrep
      have hpoisoned : Replica.For s.decided { rep with poisoned := true } := hold
      exact h.setReplica i hpoisoned
  | recover => exact h.addCall (Coordinator.inv_recover _ _ _ _ _ _)
  | enqueue hcall hentry => exact h.enqueue (State.call?_eq_some hcall) hentry
  | deliver hqueue hrep => exact h.deliver rt hqueue (State.running?_eq_some hrep)
  | receive hqueue hcall => exact h.receive hqueue (State.call?_eq_some hcall)
  | @lose i j => exact h.setRequests fun x hx => h.requests (i, j) x (List.mem_of_mem_eraseIdx hx)
  | @loseReply i j => exact h.setReplies fun x hx => h.replies (j, i) x (List.mem_of_mem_eraseIdx hx)
  | giveUp hcall hnext =>
      obtain ⟨hnextInv, hkey⟩ := (hinv hcall).giveUp hnext
      exact h.setCall (State.call?_eq_some hcall) hnextInv hkey
  | @commit c call v fastPath rep inner hcall hphase hrep hlock hcommit =>
      have hv := (hinv hcall).decided_of_committing hphase
      have hcommitted : Replica.For s.decided { rep with inner := inner } :=
        (hreplica hrep).of_recordsFrom (recordsFrom_commitLocal hcommit) fun w hw => Option.some.inj hw ▸ hv
      have hnext : Coordinator.Inv s.decided
          { call.fanOut call.commitPeers (.commit (call.commitRequest v)) with
            phase := .notifying v fastPath } :=
        Coordinator.Inv.setPhase ((hinv hcall).fanOut _ (Coordinator.for_commit call hv)) hv
      exact (h.setCall (State.call?_eq_some hcall) hnext rfl).setReplica call.home hcommitted
  | @commitPanic c call v fastPath rep hcall hphase hrep =>
      have hv := (hinv hcall).decided_of_committing hphase
      have hremains : Replica.For s.decided { rep with
          inner := commitRemains rep.inner call.replica call.slot v, poisoned := true } :=
        (hreplica hrep).of_recordsFrom (recordsFrom_commitRemains rep.inner _ _ v)
          fun w hw => Option.some.inj hw ▸ hv
      exact (h.setCall (State.call?_eq_some hcall) (hinv hcall).fail rfl).setReplica call.home hremains
  | commitPoisoned hcall => exact h.setCall (State.call?_eq_some hcall) (hinv hcall).fail rfl
  | finish hcall hphase =>
      have hv := (hinv hcall).phase
      rw [hphase] at hv
      exact h.setCall (State.call?_eq_some hcall) ((hinv hcall).setPhase ⟨rfl, _, hv, rfl, rfl⟩) rfl
  | @stop i rep hrep =>
      have hstopped : Replica.For s.decided { rep with stopped := true } :=
        h.replicas rep (List.mem_of_getElem? hrep)
      exact h.setReplica i hstopped

theorem inv_init (n : Nat) : (init n).Inv where
  replicas rep hrep := by
    obtain ⟨id, -, rfl⟩ := List.mem_map.mp hrep
    intro r k inst hinst
    obtain ⟨row, hrow, hx⟩ := Option.bind_eq_some_iff.mp hinst
    rw [(List.mem_replicate.mp (List.mem_of_getElem? hrow)).2] at hx
    cases hx
  calls call hcall := absurd hcall List.not_mem_nil
  requests e x hx := absurd hx List.not_mem_nil
  replies e x hx := absurd hx List.not_mem_nil

theorem inv_run {n : Nat} {acts : List Act} (hrun : Transition.run (step rt) (init n) acts = some s) :
    s.Inv :=
  Transition.run_invariant (P := State.Inv) (fun _ _ _ h hstep => inv_step h hstep) (inv_init n) hrun

/-! ### One decision per instance -/

/-- The value a step fixes, with its instance. -/
def State.fixes (s : State) : Act → Option ((Nat × Int) × Value)
  | .receive i j =>
      match s.replies (j, i) with
      | [] => none
      | (c, reply) :: _ =>
          s.calls[c]?.bind fun call => (call.receive reply).2.map fun v => (call.key, v)
  | _ => none

theorem decided_step {a : Act} (hstep : step rt s a = some t) :
    t.decided = s.decided ++ (s.fixes a).toList := by
  cases moves_of_step hstep with
  | receive hqueue hcall =>
      simp only [State.fixes, hqueue, State.call?_eq_some hcall, Option.bind_some]
      cases (Coordinator.receive _ _).2 <;> rfl
  | _ => exact (List.append_nil _).symm

/-- A call fixes a value by itself only if no call has done so for the instance. -/
def Alone (s : State) (a : Act) : Prop := ∀ key v, s.fixes a = some (key, v) → ∀ w, (key, w) ∉ s.decided

/-- No instance has two decisions. -/
def State.Unique (s : State) : Prop :=
  ∀ key v w, (key, v) ∈ s.decided → (key, w) ∈ s.decided → v = w

theorem unique_step {a : Act} (h : s.Unique) (halone : Alone s a) (hstep : step rt s a = some t) :
    t.Unique := by
  rw [State.Unique, decided_step hstep]
  cases hfixes : s.fixes a with
  | none =>
      rw [Option.toList_none, List.append_nil]
      exact h
  | some e =>
      intro key v w hv hw
      rw [Option.toList_some, List.mem_append, List.mem_singleton] at hv hw
      rcases hv with hv | rfl
      · rcases hw with hw | rfl
        · exact h key v w hv hw
        · exact absurd hv (halone key w hfixes v)
      · rcases hw with hw | hw
        · exact absurd hw (halone key v hfixes w)
        · exact (Prod.mk.inj hw).2.symm

/-- The one value of an instance. -/
def Decisions.chosen (decided : Decisions) (key : Nat × Int) : Value :=
  ((decided.find? fun e => e.1 = key).map Prod.snd).getD ⟨[], 0, []⟩

theorem State.Unique.chosen_eq (h : s.Unique) {key : Nat × Int} {v : Value} (hv : (key, v) ∈ s.decided) :
    Decisions.chosen s.decided key = v := by
  rw [Decisions.chosen]
  cases hfind : s.decided.find? fun e => e.1 = key with
  | none => exact absurd (List.find?_eq_none.mp hfind (key, v) hv) (by simp)
  | some e =>
      have hkey : e.1 = key := by simpa using List.find?_some hfind
      have hmem : (key, e.2) ∈ s.decided := hkey ▸ List.mem_of_find?_eq_some hfind
      exact h key e.2 v hmem hv

/-- Every committed record, every Commit message and every returned `CommitInfo` carries the value
chosen for its instance. -/
structure State.Carries (chosen : Nat × Int → Value) (s : State) : Prop where
  records : ∀ rep ∈ s.replicas, ∀ r k inst, rep.inner.instance? r k = some inst →
    inst.status = .committed → inst.value = chosen (r, k)
  dispatched : ∀ call ∈ s.calls, ∀ p req, (p, Request.commit req) ∈ call.outbox →
    req.value = chosen (asUsize req.replica, req.slot)
  inFlight : ∀ e c req, (c, Request.commit req) ∈ s.requests e →
    req.value = chosen (asUsize req.replica, req.slot)
  returned : ∀ call ∈ s.calls, ∀ info, call.phase = .done info →
    info.seq = (chosen (info.replica, info.slot)).seq ∧ info.deps = (chosen (info.replica, info.slot)).deps

theorem State.Inv.carries (h : s.Inv) {chosen : Nat × Int → Value}
    (hchosen : ∀ key v, (key, v) ∈ s.decided → chosen key = v) : s.Carries chosen where
  records rep hrep r k inst hinst hstatus :=
    (hchosen _ _ (h.replicas rep hrep r k inst hinst (by rw [hstatus]; rfl))).symm
  dispatched call hcall p req hreq :=
    (hchosen _ _ (((h.calls call hcall).outbox _ hreq).written _ rfl)).symm
  inFlight e c req hreq := by
    obtain ⟨call, -, hfor⟩ := h.requests e _ hreq
    exact (hchosen _ _ (hfor.written _ rfl)).symm
  returned call hcall info hphase := by
    have hfor := (h.calls call hcall).phase
    rw [hphase] at hfor
    obtain ⟨hkey, v, hv, hseq, hdeps⟩ := hfor
    rw [← hkey, hchosen _ _ hv]
    exact ⟨hseq, hdeps⟩

/-- In a run in which at most one call for each instance fixes a value by itself, every instance has one
value, in all states of the run. -/
theorem agreement_of_alone {n : Nat} {acts : List Act}
    (hrun : Transition.run (step rt) (init n) acts = some t)
    (halone : Transition.Within (step rt) Alone (init n) acts) :
    ∃ chosen : Nat × Int → Value, ∀ pre post s, acts = pre ++ post →
      Transition.run (step rt) (init n) pre = some s → s.Carries chosen := by
  have hunique : t.Unique :=
    Transition.run_invariant_within (P := State.Unique) (fun _ _ _ h hok hstep => unique_step h hok hstep)
      (fun _ _ _ hv => absurd hv List.not_mem_nil) halone hrun
  refine ⟨Decisions.chosen t.decided, fun pre post s hacts hpre => ?_⟩
  rw [hacts, Transition.run_append_eq_some] at hrun
  obtain ⟨s', hpre', hpost⟩ := hrun
  rw [hpre] at hpre'
  cases hpre'
  have hsub : s.decided ⊆ t.decided := by
    refine Transition.run_relation (R := fun s t : State => s.decided ⊆ t.decided)
      (fun _ => List.Subset.refl _) (fun _ _ _ => List.Subset.trans) (fun s a t hstep => ?_) hpost
    rw [decided_step hstep]
    exact List.subset_append_left _ _
  exact (inv_run hpre).carries fun key v hv => hunique.chosen_eq (hsub hv)

/-- A runtime whose graphs have no edges. -/
def plainRuntime : Runtime := ⟨true, id, fun n _ => (List.range n).map fun i => [i]⟩

def putX : Command := ⟨1, "x", "1"⟩

/-- A proposal that commits on the fast path, then a recovery of its instance, which is told so. -/
def recoveredProposal : List Act :=
  [.propose 0 [putX] [1, 2] false, .enqueue 0 0, .enqueue 0 0, .deliver 0 1, .deliver 0 2,
    .receive 0 1, .receive 0 2, .commit 0, .finish 0,
    .recover 1 0 0 [0, 2], .enqueue 1 0, .enqueue 1 0, .deliver 1 0, .deliver 1 2,
    .receive 1 0, .receive 1 2, .commit 1, .finish 1]

theorem agreement_of_alone_recoveredProposal : ∃ t chosen,
    Transition.run (step plainRuntime) (init 3) recoveredProposal = some t ∧ t.Carries chosen ∧
      t.calls.map Coordinator.phase =
        [.done ⟨0, 0, 1, [-1, -1, -1], true⟩, .done ⟨0, 0, 1, [-1, -1, -1], false⟩] := by
  obtain ⟨t, hrun⟩ : ∃ t, Transition.run (step plainRuntime) (init 3) recoveredProposal = some t :=
    ⟨_, rfl⟩
  have halone : Transition.Within (step plainRuntime) Alone (init 3) recoveredProposal := by
    iterate 6 refine Transition.within_cons rfl (fun _ _ h => by cases h) ?_
    refine Transition.within_cons rfl (fun _ _ _ _ hw => by cases hw) ?_
    iterate 11 refine Transition.within_cons rfl (fun _ _ h => by cases h) ?_
    exact trivial
  obtain ⟨chosen, hchosen⟩ := agreement_of_alone hrun halone
  exact ⟨t, chosen, hrun, hchosen recoveredProposal [] t (List.append_nil _).symm hrun,
    Transition.eq_of_run_map (f := fun s : State => s.calls.map Coordinator.phase) rfl hrun⟩

/-- While the PreAccepts of a proposal are on their way, replica 1 recovers the instance, hears of
nothing, and commits it empty; then the PreAccepts arrive. -/
def racingRecovery : List Act :=
  [.propose 0 [putX] [1, 2] false, .enqueue 0 0, .enqueue 0 0,
    .recover 1 0 0 [0, 2], .enqueue 1 0, .enqueue 1 0,
    .deliver 1 0, .deliver 1 2, .receive 1 0, .receive 1 2,
    .enqueue 1 0, .deliver 1 0, .receive 1 0, .commit 1,
    .deliver 0 1, .deliver 0 2, .receive 0 1, .receive 0 2, .commit 0]

theorem racing_recovery_disagrees :
    (∃ t, Transition.run (step plainRuntime) (init 3) racingRecovery = some t) ∧
    ¬ ∃ chosen : Nat × Int → Value, ∀ pre post s, racingRecovery = pre ++ post →
      Transition.run (step plainRuntime) (init 3) pre = some s → s.Carries chosen := by
  obtain ⟨s, hrun⟩ : ∃ s, Transition.run (step plainRuntime) (init 3) racingRecovery = some s := ⟨_, rfl⟩
  refine ⟨⟨s, hrun⟩, fun ⟨chosen, hcarries⟩ => ?_⟩
  have hs := hcarries racingRecovery [] s (List.append_nil _).symm hrun
  have hrecord := Transition.eq_of_run_map (f := fun s : State =>
    s.replicas[0]?.bind fun rep => rep.inner.instance? 0 0) rfl hrun
  obtain ⟨rep, hrep, hinst⟩ := Option.bind_eq_some_iff.mp hrecord
  obtain ⟨call, hcall, houtbox⟩ :=
    Transition.exists_of_run_map (f := fun s : State => s.calls[1]?) (g := Coordinator.outbox) rfl hrun
  have hput := hs.records rep (List.mem_of_getElem? hrep) 0 0 _ hinst rfl
  have hnop := hs.dispatched call (List.mem_of_getElem? hcall) 0
    ⟨1, 0, 0, [], 0, [-1, -1, -1]⟩ (by rw [houtbox]; decide)
  have hsame : chosen (((0 : Nat), ((0 : Nat) : Int))) = chosen (asUsize 0, 0) := rfl
  rw [← hput, ← hnop] at hsame
  cases hsame

end Quorums.Epaxos
