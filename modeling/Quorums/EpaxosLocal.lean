import Quorums.EpaxosAgreement

/-! Invariants of the cluster that are local: what holds of each replica, of each call, and of each message
given the call it belongs to. A local invariant is kept by the system if every handler and every move of a
call keeps it, one replica and one call at a time. -/

namespace Quorums.Epaxos

namespace Coordinator

/-- What does not change while a call runs. -/
def header (c : Coordinator) : Coordinator := { c with phase := .failed, outbox := [] }

theorem home_eq_of_header {c c' : Coordinator} (h : c'.header = c.header) : c'.home = c.home := by
  show c'.header.home = c.header.home
  rw [h]

theorem key_eq_of_header {c c' : Coordinator} (h : c'.header = c.header) : c'.key = c.key := by
  show c'.header.key = c.header.key
  rw [h]

theorem header_conclude (c : Coordinator) (analysis : Analysis) :
    (c.conclude analysis).header = c.header := by
  cases analysis <;> rfl

theorem header_receive (c : Coordinator) (reply : Reply) : (c.receive reply).1.header = c.header := by
  cases reply with
  | preAccept r =>
      simp only [receive]
      split
      · split
        · split <;> rfl
        · rfl
      · rfl
  | prepare r =>
      simp only [receive]
      split
      · split
        · exact header_conclude c _
        · rfl
      · rfl
  | tryPreAccept r =>
      simp only [receive]
      split
      · split
        · dsimp only
          split <;> rfl
        · rfl
      · rfl
  | accept r =>
      simp only [receive]
      split
      · split <;> rfl
      · rfl

theorem header_giveUp {c next : Coordinator} (h : c.giveUp = some next) : next.header = c.header := by
  rw [giveUp] at h
  split at h <;> cases h <;> rfl

end Coordinator

/-! ### One replica -/

/-- The counter, the identity and the conflict map of a replica stay. -/
structure Frame (inner inner' : ReplicaInner) : Prop where
  id_eq : inner'.id = inner.id
  n_eq : inner'.n = inner.n
  curSlot_eq : inner'.curSlot = inner.curSlot
  conflicts_eq : inner'.conflicts = inner.conflicts

section Frame

variable {rt : Runtime} {inner inner' inner'' : ReplicaInner}

theorem Frame.refl (inner : ReplicaInner) : Frame inner inner := ⟨rfl, rfl, rfl, rfl⟩

theorem Frame.trans (h : Frame inner inner') (h' : Frame inner' inner'') : Frame inner inner'' :=
  ⟨h'.id_eq.trans h.id_eq, h'.n_eq.trans h.n_eq, h'.curSlot_eq.trans h.curSlot_eq,
    h'.conflicts_eq.trans h.conflicts_eq⟩

theorem frame_ensureSlot {r : Nat} {slot : Int} (h : inner.ensureSlot r slot = some inner') :
    Frame inner inner' := by
  rw [ReplicaInner.ensureSlot] at h
  split at h
  · cases h
  · split at h
    · cases h
    · cases h
      exact ⟨rfl, rfl, rfl, rfl⟩

theorem frame_executeAllReady (h : inner.executeAllReady rt = some inner') : Frame inner inner' := by
  have hone (inner : ReplicaInner) (key : Nat × Int) : Frame inner (inner.execute key) := by
    rw [ReplicaInner.execute]
    dsimp only
    split <;> exact ⟨rfl, rfl, rfl, rfl⟩
  have hfold (keys : List (Nat × Int)) (inner : ReplicaInner) :
      Frame inner (keys.foldl ReplicaInner.execute inner) := by
    induction keys generalizing inner with
    | nil => exact Frame.refl inner
    | cons key keys ih => exact (hone inner key).trans (ih _)
  rw [ReplicaInner.executeAllReady, Option.bind_eq_bind, Option.bind_eq_some_iff] at h
  obtain ⟨ready, -, hresult⟩ := h
  cases hresult
  exact hfold _ inner

theorem frame_recordCommit {r : Nat} {slot : Int} {v : Value} {duplicate : Bool}
    (h : recordCommit inner r slot v = some (inner', duplicate)) : Frame inner inner' := by
  simp only [recordCommit, Option.bind_eq_bind, Option.bind_eq_some_iff] at h
  obtain ⟨grown, hgrown, inst, -, hresult⟩ := h
  have hframe := frame_ensureSlot hgrown
  split at hresult <;> cases hresult
  · exact hframe
  · exact ⟨hframe.id_eq, hframe.n_eq, hframe.curSlot_eq, hframe.conflicts_eq⟩

theorem frame_commitLocal {r : Nat} {slot : Int} {v : Value} (h : commitLocal rt inner r slot v = some inner') :
    Frame inner inner' := by
  simp only [commitLocal, Option.bind_eq_bind, Option.bind_eq_some_iff] at h
  obtain ⟨⟨recorded, duplicate⟩, hrecorded, hresult⟩ := h
  exact (frame_recordCommit hrecorded).trans (frame_executeAllReady hresult)

theorem frame_commitRemains (inner : ReplicaInner) (r : Nat) (slot : Int) (v : Value) :
    Frame inner (commitRemains inner r slot v) := by
  rw [commitRemains]
  cases hrecord : recordCommit inner r slot v with
  | none => exact Frame.refl inner
  | some p => exact frame_recordCommit hrecord

theorem frame_remains (inner : ReplicaInner) (req : Request) : Frame inner (remains inner req) := by
  cases req with
  | commit c => exact frame_commitRemains inner _ _ _
  | _ => exact Frame.refl inner

/-- Only a PreAccept touches the conflict map. -/
theorem frame_handle {req : Request} {reply : Option Reply} (hnot : ∀ p, req ≠ .preAccept p)
    (h : handle rt inner req = some (inner', reply)) : Frame inner inner' := by
  cases req with
  | preAccept p => exact absurd rfl (hnot p)
  | accept p =>
      obtain ⟨⟨grown', r⟩, hinner, heq⟩ := Option.map_eq_some_iff.mp h
      cases heq
      simp only [handleAcceptInner, Option.bind_eq_bind, Option.bind_eq_some_iff] at hinner
      obtain ⟨grown, hgrown, hresult⟩ := hinner
      cases hresult
      have hframe := frame_ensureSlot hgrown
      exact ⟨hframe.id_eq, hframe.n_eq, hframe.curSlot_eq, hframe.conflicts_eq⟩
  | commit c =>
      obtain ⟨grown', hinner, heq⟩ := Option.map_eq_some_iff.mp h
      cases heq
      simp only [handleCommitInner, Option.bind_eq_bind, Option.bind_eq_some_iff] at hinner
      obtain ⟨⟨recorded, duplicate⟩, hrecorded, hresult⟩ := hinner
      dsimp only at hresult
      split at hresult
      · cases hresult
        exact frame_recordCommit hrecorded
      · exact (frame_recordCommit hrecorded).trans (frame_executeAllReady hresult)
  | prepare p =>
      cases h
      exact Frame.refl inner
  | tryPreAccept p =>
      obtain ⟨r, -, heq⟩ := Option.map_eq_some_iff.mp h
      cases heq
      exact Frame.refl inner

theorem curSlot_handle {req : Request} {reply : Option Reply} (h : handle rt inner req = some (inner', reply)) :
    inner'.curSlot = inner.curSlot := by
  by_cases hpre : ∃ p, req = .preAccept p
  · obtain ⟨p, rfl⟩ := hpre
    obtain ⟨⟨grown', r⟩, hinner, heq⟩ := Option.map_eq_some_iff.mp h
    cases heq
    simp only [handlePreAcceptInner, Option.bind_eq_bind, Option.bind_eq_some_iff] at hinner
    obtain ⟨grown, hgrown, attrs, -, deps, -, conflicts, -, hresult⟩ := hinner
    cases hresult
    exact (frame_ensureSlot hgrown).curSlot_eq
  · exact (frame_handle (fun p hp => hpre ⟨p, hp⟩) h).curSlot_eq

end Frame

/-- What a step can do to the replica `i`. -/
inductive Changes (rt : Runtime) (s : State) : Act → Nat → ReplicaInner → ReplicaInner → Prop where
  | same {a : Act} {i : Nat} {inner : ReplicaInner} : Changes rt s a i inner inner
  | started {i : Nat} {cmds : List Command} {peers : List Nat} {thrifty : Bool} {inner inner' : ReplicaInner}
      {slot seq : Int} {deps : List Int}
      (hstart : inner.startProposal rt cmds = some (inner', slot, seq, deps)) :
      Changes rt s (.propose i cmds peers thrifty) i inner inner'
  | served {i j c : Nat} {req : Request} {rest : List (Nat × Request)} {inner inner' : ReplicaInner}
      {reply : Option Reply} (hqueue : s.requests (j, i) = (c, req) :: rest)
      (hhandle : handle rt inner req = some (inner', reply)) : Changes rt s (.deliver j i) i inner inner'
  | broke {i j c : Nat} {req : Request} {rest : List (Nat × Request)} {inner : ReplicaInner}
      (hqueue : s.requests (j, i) = (c, req) :: rest) (hhandle : handle rt inner req = none) :
      Changes rt s (.deliver j i) i inner (remains inner req)
  | committed {c : Nat} {call : Coordinator} {v : Value} {fastPath : Bool} {inner inner' : ReplicaInner}
      (hcall : s.calls[c]? = some call) (hphase : call.phase = .committing v fastPath)
      (hcommit : commitLocal rt inner call.replica call.slot v = some inner') :
      Changes rt s (.commit c) call.home inner inner'
  | commitBroke {c : Nat} {call : Coordinator} {v : Value} {fastPath : Bool} {inner : ReplicaInner}
      (hcall : s.calls[c]? = some call) (hphase : call.phase = .committing v fastPath)
      (hcommit : commitLocal rt inner call.replica call.slot v = none) :
      Changes rt s (.commit c) call.home inner (commitRemains inner call.replica call.slot v)

theorem changes_of_step {rt : Runtime} {s t : State} {a : Act} (hstep : step rt s a = some t) {i : Nat}
    {rep' : Replica} (hrep' : t.replicas[i]? = some rep') :
    ∃ rep, s.replicas[i]? = some rep ∧ Changes rt s a i rep.inner rep'.inner := by
  have hset {k : Nat} {old new : Replica} (hold : s.replicas[k]? = some old)
      (hchanges : Changes rt s a k old.inner new.inner) (hmem : (s.replicas.set k new)[i]? = some rep') :
      ∃ rep, s.replicas[i]? = some rep ∧ Changes rt s a i rep.inner rep'.inner := by
    rcases ListUpdate.getElem?_set_cases hmem with ⟨rfl, rfl⟩ | ⟨-, hmem⟩
    · exact ⟨old, hold, hchanges⟩
    · exact ⟨rep', hmem, .same⟩
  cases moves_of_step hstep with
  | propose hrep hlock hstart => exact hset (State.running?_eq_some hrep) (.started hstart) hrep'
  | proposePanic hrep =>
      refine hset (State.running?_eq_some hrep) ?_ hrep'
      exact .same
  | @deliver j k c req rest rep hqueue hrep =>
      refine hset (State.running?_eq_some hrep) ?_ hrep'
      rw [Replica.serve]
      split
      · exact .same
      · split
        · rename_i hhandle
          exact .served hqueue hhandle
        · rename_i hhandle
          exact .broke hqueue hhandle
  | commit hcall hphase hrep hlock hcommit =>
      exact hset (State.running?_eq_some hrep) (.committed (State.call?_eq_some hcall) hphase hcommit) hrep'
  | commitPanic hcall hphase hrep hlock hcommit =>
      exact hset (State.running?_eq_some hrep) (.commitBroke (State.call?_eq_some hcall) hphase hcommit) hrep'
  | stop hrep =>
      refine hset hrep ?_ hrep'
      exact .same
  | _ => exact ⟨rep', hrep', .same⟩

theorem length_replicas_step {rt : Runtime} {s t : State} {a : Act} (hstep : step rt s a = some t) :
    t.replicas.length = s.replicas.length := by
  cases moves_of_step hstep with
  | propose | proposePanic | deliver | commit | commitPanic | stop => exact List.length_set
  | _ => rfl

/-- The call that an action begins. -/
inductive Joins (rt : Runtime) (s : State) : Act → Coordinator → Prop where
  | propose {i : Nat} {cmds : List Command} {peers : List Nat} {thrifty : Bool} {rep : Replica}
      {inner : ReplicaInner} {slot seq : Int} {deps : List Int} (hrep : s.running? i = some rep)
      (hlock : rep.poisoned = false) (hstart : rep.inner.startProposal rt cmds = some (inner, slot, seq, deps)) :
      Joins rt s (.propose i cmds peers thrifty) (Coordinator.propose rep.inner.id cmds peers thrifty slot seq deps)
  | recover {i replica : Nat} {slot : Int} {peers : List Nat} {rep : Replica} (hrep : s.running? i = some rep) :
      Joins rt s (.recover i replica slot peers)
        (Coordinator.recover rep.inner.id rep.inner.n replica slot peers)

/-- A call was there before the step, or it begins with it. -/
theorem joins_of_step {rt : Runtime} {s t : State} {a : Act} (hstep : step rt s a = some t) {c : Nat}
    {call' : Coordinator} (hcall' : t.calls[c]? = some call') :
    (∃ call, s.calls[c]? = some call ∧ call'.header = call.header) ∨
      (c = s.calls.length ∧ Joins rt s a call') := by
  have hset {d : Nat} {old new : Coordinator} (hold : s.call? d = some old)
      (hmem : (s.calls.set d new)[c]? = some call') (hheader : new.header = old.header) :
      (∃ call, s.calls[c]? = some call ∧ call'.header = call.header) ∨
        (c = s.calls.length ∧ Joins rt s a call') := by
    exact Or.inl (ListUpdate.exists_getElem?_of_set (f := Coordinator.header) (State.call?_eq_some hold) hheader hmem)
  cases moves_of_step hstep with
  | propose hrep hlock hstart =>
      rcases ListUpdate.getElem?_append_cases hcall' with hold | ⟨hc, rfl⟩
      · exact Or.inl ⟨call', hold, rfl⟩
      · exact Or.inr ⟨hc, .propose hrep hlock hstart⟩
  | recover hrep =>
      rcases ListUpdate.getElem?_append_cases hcall' with hold | ⟨hc, rfl⟩
      · exact Or.inl ⟨call', hold, rfl⟩
      · exact Or.inr ⟨hc, .recover hrep⟩
  | enqueue hcall => exact hset hcall hcall' rfl
  | receive hqueue hcall => exact hset hcall hcall' (Coordinator.header_receive _ _)
  | giveUp hcall hnext => exact hset hcall hcall' (Coordinator.header_giveUp hnext)
  | commit hcall => exact hset hcall hcall' rfl
  | commitPanic hcall => exact hset hcall hcall' rfl
  | commitPoisoned hcall => exact hset hcall hcall' rfl
  | finish hcall => exact hset hcall hcall' rfl
  | proposePanic | deliver | lose | loseReply | stop => exact Or.inl ⟨call', hcall', rfl⟩

/-! ### Local invariants -/

/-- What is to hold of each replica, by its index, of each call, and of each request and reply between a
call and a peer. -/
structure Local where
  replica : Nat → ReplicaInner → Prop
  call : Coordinator → Prop
  request : Coordinator → Nat → Request → Prop
  reply : Coordinator → Nat → Reply → Prop

/-- A message of call `c` on a stream of its process. -/
def OfHeader (calls : List Coordinator) (c home : Nat) (P : Coordinator → Prop) : Prop :=
  ∃ call, calls[c]? = some call ∧ call.home = home ∧ P call.header

theorem OfHeader.append {calls : List Coordinator} {c home : Nat} {P : Coordinator → Prop}
    (h : OfHeader calls c home P) (more : List Coordinator) : OfHeader (calls ++ more) c home P := by
  obtain ⟨call, hcall, hP⟩ := h
  exact ⟨call, ListUpdate.getElem?_append_of_some hcall more, hP⟩

theorem OfHeader.set {calls : List Coordinator} {c d home : Nat} {P : Coordinator → Prop}
    (h : OfHeader calls c home P) {old new : Coordinator} (hold : calls[d]? = some old)
    (hheader : new.header = old.header) : OfHeader (calls.set d new) c home P := by
  obtain ⟨call, hcall, hhome, hP⟩ := h
  by_cases hcd : d = c
  · subst hcd
    rw [hold] at hcall
    cases hcall
    refine ⟨new, ListUpdate.getElem?_set_of_some hold, ?_, hheader ▸ hP⟩
    exact (congrArg Coordinator.home hheader).trans hhome
  · exact ⟨call, by rw [List.getElem?_set, if_neg hcd]; exact hcall, hhome, hP⟩

structure State.Meets (L : Local) (s : State) : Prop where
  replicas : ∀ i rep, s.replicas[i]? = some rep → L.replica i rep.inner
  calls : ∀ call ∈ s.calls, L.call call
  requests : ∀ i j x, x ∈ s.requests (i, j) → OfHeader s.calls x.1 i fun c => L.request c j x.2
  replies : ∀ i j x, x ∈ s.replies (j, i) → OfHeader s.calls x.1 i fun c => L.reply c j x.2

/-- The replica that a call begins on meets `ok`. -/
def Begins (ok : Act → ReplicaInner → Prop) (s : State) (a : Act) : Prop :=
  match a with
  | .propose i _ _ _ | .recover i _ _ _ => ∀ rep, s.replicas[i]? = some rep → ok a rep.inner
  | _ => True

/-- Every handler and every move of a call keeps `L`. -/
structure Local.Kept (L : Local) (rt : Runtime) (ok : Act → ReplicaInner → Prop) : Prop where
  propose : ∀ {i cmds peers thrifty inner inner' slot seq deps}, L.replica i inner →
    ok (.propose i cmds peers thrifty) inner →
    inner.startProposal rt cmds = some (inner', slot, seq, deps) →
    L.replica i inner' ∧ L.call (Coordinator.propose inner.id cmds peers thrifty slot seq deps)
  recover : ∀ {i replica slot peers inner}, L.replica i inner → ok (.recover i replica slot peers) inner →
    L.call (Coordinator.recover inner.id inner.n replica slot peers)
  send : ∀ {call e}, L.call call → e ∈ call.outbox → L.request call.header e.1 e.2
  sent : ∀ {call k}, L.call call → L.call { call with outbox := call.outbox.eraseIdx k }
  handle : ∀ {call j inner req inner' reply}, L.replica j inner → L.request call j req →
    handle rt inner req = some (inner', reply) → L.replica j inner' ∧ ∀ r, reply = some r → L.reply call j r
  remains : ∀ {call j inner req}, L.replica j inner → L.request call j req → L.replica j (remains inner req)
  receive : ∀ {call j reply}, L.call call → L.reply call.header j reply → L.call (call.receive reply).1
  giveUp : ∀ {call next}, L.call call → call.giveUp = some next → L.call next
  commitLocal : ∀ {call v fastPath inner inner'}, L.replica call.home inner → L.call call →
    call.phase = .committing v fastPath → commitLocal rt inner call.replica call.slot v = some inner' →
    L.replica call.home inner'
  commitRemains : ∀ {call v fastPath inner}, L.replica call.home inner → L.call call →
    call.phase = .committing v fastPath → L.replica call.home (commitRemains inner call.replica call.slot v)
  notify : ∀ {call v fastPath}, L.call call → call.phase = .committing v fastPath →
    L.call { call.fanOut call.commitPeers (.commit (call.commitRequest v)) with phase := .notifying v fastPath }
  fail : ∀ {call}, L.call call → L.call call.fail
  finish : ∀ {call v fastPath}, L.call call → call.phase = .notifying v fastPath →
    L.call { call with phase := .done ⟨call.replica, call.slot, v.seq, v.deps, fastPath⟩ }

namespace State.Meets

variable {L : Local} {rt : Runtime} {ok : Act → ReplicaInner → Prop} {s t : State}

theorem setCall (h : s.Meets L) {c : Nat} {old new : Coordinator} (hold : s.calls[c]? = some old)
    (hnew : L.call new) (hheader : new.header = old.header) : (s.setCall c new).Meets L where
  replicas := h.replicas
  calls call hcall := by
    rcases List.mem_or_eq_of_mem_set hcall with hcall | rfl
    · exact h.calls call hcall
    · exact hnew
  requests i j x hx := (h.requests i j x hx).set hold hheader
  replies i j x hx := (h.replies i j x hx).set hold hheader

theorem addCall (h : s.Meets L) {call : Coordinator} (hcall : L.call call) :
    State.Meets L { s with calls := s.calls ++ [call] } where
  replicas := h.replicas
  calls x hx := by
    rcases List.mem_append.mp hx with hx | hx
    · exact h.calls x hx
    · rw [List.mem_singleton.mp hx]
      exact hcall
  requests i j x hx := (h.requests i j x hx).append _
  replies i j x hx := (h.replies i j x hx).append _

theorem setReplica (h : s.Meets L) {i : Nat} {rep : Replica} (hrep : L.replica i rep.inner) :
    State.Meets L { s with replicas := s.replicas.set i rep } where
  replicas k x hx := by
    rcases ListUpdate.getElem?_set_cases hx with ⟨rfl, rfl⟩ | ⟨-, hx⟩
    · exact hrep
    · exact h.replicas k x hx
  calls := h.calls
  requests := h.requests
  replies := h.replies

theorem setRequests (h : s.Meets L) {i j : Nat} {queue : List (Nat × Request)}
    (hqueue : ∀ x ∈ queue, OfHeader s.calls x.1 i fun c => L.request c j x.2) :
    State.Meets L { s with requests := Function.update s.requests (i, j) queue } where
  replicas := h.replicas
  calls := h.calls
  requests i' j' :=
    (Function.forall_update_iff s.requests fun e queue =>
      ∀ x ∈ queue, OfHeader s.calls x.1 e.1 fun c => L.request c e.2 x.2).mpr
        ⟨hqueue, fun e _ => h.requests e.1 e.2⟩ (i', j')
  replies := h.replies

theorem setReplies (h : s.Meets L) {i j : Nat} {queue : List (Nat × Reply)}
    (hqueue : ∀ x ∈ queue, OfHeader s.calls x.1 i fun c => L.reply c j x.2) :
    State.Meets L { s with replies := Function.update s.replies (j, i) queue } where
  replicas := h.replicas
  calls := h.calls
  requests := h.requests
  replies i' j' :=
    (Function.forall_update_iff s.replies fun e queue =>
      ∀ x ∈ queue, OfHeader s.calls x.1 e.2 fun c => L.reply c e.1 x.2).mpr
        ⟨hqueue, fun e _ => h.replies e.2 e.1⟩ (j', i')

theorem serve (h : s.Meets L) (hkept : L.Kept rt ok) {i j c : Nat} {req : Request}
    {rest : List (Nat × Request)} {rep : Replica} (hqueue : s.requests (i, j) = (c, req) :: rest)
    (hrep : s.replicas[j]? = some rep) :
    State.Meets L { s with
      replicas := s.replicas.set j (rep.serve rt req).1
      requests := Function.update s.requests (i, j) rest
      replies := match (rep.serve rt req).2 with
        | some reply => Function.update s.replies (j, i) (s.replies (j, i) ++ [(c, reply)])
        | none => s.replies } := by
  obtain ⟨call, hcall, hhome, hreq⟩ := h.requests i j (c, req) (by rw [hqueue]; exact List.mem_cons_self)
  have hinner := h.replicas j rep hrep
  have hserved : L.replica j (rep.serve rt req).1.inner ∧
      ∀ reply, (rep.serve rt req).2 = some reply → L.reply call.header j reply := by
    rw [Replica.serve]
    split
    · exact ⟨hinner, by rintro _ ⟨⟩⟩
    · split
      · rename_i hhandle
        exact hkept.handle hinner hreq hhandle
      · exact ⟨hkept.remains hinner hreq, by rintro _ ⟨⟩⟩
  have hpopped : State.Meets L { s with
      replicas := s.replicas.set j (rep.serve rt req).1
      requests := Function.update s.requests (i, j) rest } :=
    (h.setReplica hserved.1).setRequests fun x hx =>
      h.requests i j x (by rw [hqueue]; exact List.mem_cons_of_mem _ hx)
  cases hout : (rep.serve rt req).2 with
  | none => exact hpopped
  | some reply =>
      refine hpopped.setReplies fun x hx => ?_
      rcases List.mem_append.mp hx with hx | hx
      · exact h.replies i j x hx
      · rw [List.mem_singleton.mp hx]
        exact ⟨call, hcall, hhome, hserved.2 reply hout⟩

theorem read (h : s.Meets L) (hkept : L.Kept rt ok) {i j c : Nat} {reply : Reply}
    {rest : List (Nat × Reply)} {call : Coordinator} (hqueue : s.replies (j, i) = (c, reply) :: rest)
    (hcall : s.calls[c]? = some call) (decided : Decisions) :
    State.Meets L { s.setCall c (call.receive reply).1 with
      replies := Function.update s.replies (j, i) rest
      decided := decided } := by
  obtain ⟨call', hcall', -, hreply⟩ := h.replies i j (c, reply) (by rw [hqueue]; exact List.mem_cons_self)
  rw [hcall] at hcall'
  cases hcall'
  have hheader := Coordinator.header_receive call reply
  have hnext := hkept.receive (h.calls call (List.mem_of_getElem? hcall)) hreply
  have hread := (h.setCall hcall hnext hheader).setReplies fun x hx =>
    OfHeader.set (h.replies i j x (by rw [hqueue]; exact List.mem_cons_of_mem _ hx)) hcall hheader
  exact ⟨hread.replicas, hread.calls, hread.requests, hread.replies⟩

theorem step {a : Act} (h : s.Meets L) (hkept : L.Kept rt ok) (hok : Begins ok s a)
    (hstep : step rt s a = some t) : t.Meets L := by
  have hinv {c : Nat} {call : Coordinator} (hcall : s.call? c = some call) : L.call call :=
    h.calls call (List.mem_of_getElem? (State.call?_eq_some hcall))
  cases moves_of_step hstep with
  | @propose i cmds peers thrifty rep inner slot seq deps hrep hlock hstart =>
      have hrep' := State.running?_eq_some hrep
      obtain ⟨hinner, hcall⟩ := hkept.propose (h.replicas i rep hrep') (hok rep hrep') hstart
      exact (h.addCall hcall).setReplica hinner
  | @proposePanic i _ _ _ rep hrep =>
      have hpoisoned : L.replica i (Replica.inner { rep with poisoned := true }) :=
        h.replicas i rep (State.running?_eq_some hrep)
      exact h.setReplica hpoisoned
  | @recover i _ _ _ rep hrep =>
      have hrep' := State.running?_eq_some hrep
      exact h.addCall (hkept.recover (h.replicas i rep hrep') (hok rep hrep'))
  | @enqueue c k call entry hcall hentry =>
      have hcall' := State.call?_eq_some hcall
      refine (h.setCall hcall' (hkept.sent (hinv hcall)) rfl).setRequests fun x hx => ?_
      refine OfHeader.set ?_ hcall' rfl
      rcases List.mem_append.mp hx with hx | hx
      · exact h.requests call.home entry.1 x hx
      · rw [List.mem_singleton.mp hx]
        exact ⟨call, hcall', rfl, hkept.send (hinv hcall) (List.mem_of_getElem? hentry)⟩
  | deliver hqueue hrep => exact h.serve hkept hqueue (State.running?_eq_some hrep)
  | receive hqueue hcall => exact h.read hkept hqueue (State.call?_eq_some hcall) _
  | @lose i j => exact h.setRequests fun x hx => h.requests i j x (List.mem_of_mem_eraseIdx hx)
  | @loseReply i j => exact h.setReplies fun x hx => h.replies i j x (List.mem_of_mem_eraseIdx hx)
  | giveUp hcall hnext =>
      exact h.setCall (State.call?_eq_some hcall) (hkept.giveUp (hinv hcall) hnext)
        (Coordinator.header_giveUp hnext)
  | @commit c call v fastPath rep inner hcall hphase hrep hlock hcommit =>
      have hinner := hkept.commitLocal (h.replicas _ rep (State.running?_eq_some hrep)) (hinv hcall) hphase hcommit
      have hcommitted : L.replica call.home (Replica.inner { rep with inner := inner }) := hinner
      exact (h.setCall (State.call?_eq_some hcall) (hkept.notify (hinv hcall) hphase) rfl).setReplica hcommitted
  | @commitPanic c call v fastPath rep hcall hphase hrep =>
      have hinner := hkept.commitRemains (h.replicas _ rep (State.running?_eq_some hrep)) (hinv hcall) hphase
      have hremains : L.replica call.home (Replica.inner { rep with
          inner := commitRemains rep.inner call.replica call.slot v, poisoned := true }) := hinner
      exact (h.setCall (State.call?_eq_some hcall) (hkept.fail (hinv hcall)) rfl).setReplica hremains
  | commitPoisoned hcall => exact h.setCall (State.call?_eq_some hcall) (hkept.fail (hinv hcall)) rfl
  | finish hcall hphase =>
      exact h.setCall (State.call?_eq_some hcall) (hkept.finish (hinv hcall) hphase) rfl
  | @stop i rep hrep =>
      have hstopped : L.replica i (Replica.inner { rep with stopped := true }) := h.replicas i rep hrep
      exact h.setReplica hstopped

end State.Meets

theorem meets_init {L : Local} {n : Nat} (h : ∀ i < n, L.replica i (ReplicaInner.new i n)) :
    (init n).Meets L where
  replicas i rep hrep := by
    simp only [init, List.getElem?_map, Option.map_eq_some_iff] at hrep
    obtain ⟨id, hid, rfl⟩ := hrep
    obtain ⟨hi, heq⟩ := List.getElem?_eq_some_iff.mp hid
    rw [List.getElem_range] at heq
    subst heq
    exact h i (by simpa using hi)
  calls call hcall := absurd hcall List.not_mem_nil
  requests i j x hx := absurd hx List.not_mem_nil
  replies i j x hx := absurd hx List.not_mem_nil

theorem meets_run {L : Local} {rt : Runtime} {ok : Act → ReplicaInner → Prop} (hkept : L.Kept rt ok) {n : Nat}
    (hnew : ∀ i < n, L.replica i (ReplicaInner.new i n)) {acts : List Act} {s : State}
    (hok : Transition.Within (step rt) (Begins ok) (init n) acts)
    (hrun : Transition.run (step rt) (init n) acts = some s) : s.Meets L :=
  Transition.run_invariant_within (P := State.Meets L) (fun _ _ _ h hok hstep => h.step hkept hok hstep)
    (meets_init hnew) hok hrun

end Quorums.Epaxos
