import Quorums.EpaxosRound

/-! A commit is backed by a quorum. A proposal with its peers, as they stand in the cluster, moves as the
machine of its rounds does, as long as the requests to a peer keep their order, nobody recovers the instance,
and its slot is not used again. -/

namespace Quorums.Epaxos

open ReplicaInner

/-! ### The records of other instances -/

/-- The records of all instances but `key` stay. -/
def KeepsOthers (key : Nat × Int) (inner inner' : ReplicaInner) : Prop :=
  ∀ (r s : Nat) (inst : Instance), (r, (s : Int)) ≠ key → inner.instance? r s = some inst →
    inner'.instance? r s = some inst

section KeepsOthers

variable {rt : Runtime} {key : Nat × Int} {inner inner' inner'' : ReplicaInner}

theorem KeepsOthers.of_instances (h : inner'.instances = inner.instances) : KeepsOthers key inner inner' := by
  intro r s inst _ hinst
  rwa [instance?, h]

theorem KeepsOthers.trans (h : KeepsOthers key inner inner') (h' : KeepsOthers key inner' inner'') :
    KeepsOthers key inner inner'' :=
  fun r s inst hne hinst => h' r s inst hne (h r s inst hne hinst)

theorem KeepsOthers.grown {r : Nat} {slot : Int} (h : Grown r slot inner inner') : KeepsOthers key inner inner' := by
  intro r' s inst _ hinst
  rw [h.records, hinst, Option.some_or]

theorem KeepsOthers.setInstance {r : Nat} {slot : Int} (hslot : 0 ≤ slot) (inner : ReplicaInner) (inst : Instance) :
    KeepsOthers (r, slot) inner (inner.setInstance r slot.toNat inst) := by
  intro r' s x hne hx
  rw [instance?_setInstance_eq, if_neg]
  · exact hx
  · rintro ⟨rfl, rfl⟩
    exact hne (by rw [Int.toNat_of_nonneg hslot])

theorem keepsOthers_recordCommit (h : inner.Shaped) {r : Nat} {slot : Int} {v : Value} {duplicate : Bool}
    (hrecord : recordCommit inner r slot v = some (inner', duplicate)) : KeepsOthers (r, slot) inner inner' := by
  simp only [recordCommit, Option.bind_eq_bind, Option.bind_eq_some_iff] at hrecord
  obtain ⟨grown, hensure, inst, -, hresult⟩ := hrecord
  have hgrown : KeepsOthers (r, slot) inner grown := .grown (grown_of_ensureSlot h hensure)
  split at hresult <;> cases hresult
  · exact hgrown
  · exact hgrown.trans (.setInstance (nonneg_of_ensureSlot hensure) grown _)

theorem keepsOthers_commitLocal (h : inner.Shaped) {r : Nat} {slot : Int} {v : Value}
    (hcommit : commitLocal rt inner r slot v = some inner') : KeepsOthers (r, slot) inner inner' := by
  simp only [commitLocal, Option.bind_eq_bind, Option.bind_eq_some_iff] at hcommit
  obtain ⟨⟨recorded, duplicate⟩, hrecorded, hresult⟩ := hcommit
  exact (keepsOthers_recordCommit h hrecorded).trans (.of_instances (instances_executeAllReady hresult))

theorem keepsOthers_commitRemains (h : inner.Shaped) (r : Nat) (slot : Int) (v : Value) :
    KeepsOthers (r, slot) inner (commitRemains inner r slot v) := by
  rw [commitRemains]
  cases hrecord : recordCommit inner r slot v with
  | none => exact .of_instances rfl
  | some p => exact keepsOthers_recordCommit h hrecord

theorem keepsOthers_remains (h : inner.Shaped) (req : Request) :
    KeepsOthers req.key inner (remains inner req) := by
  cases req with
  | commit c => exact keepsOthers_commitRemains h _ _ _
  | _ => exact .of_instances rfl

theorem keepsOthers_handle (h : inner.Shaped) {req : Request} {reply : Option Reply}
    (hhandle : handle rt inner req = some (inner', reply)) : KeepsOthers req.key inner inner' := by
  cases req with
  | preAccept p =>
      obtain ⟨⟨served, r⟩, hinner, heq⟩ := Option.map_eq_some_iff.mp hhandle
      cases heq
      simp only [handlePreAcceptInner, Option.bind_eq_bind, Option.bind_eq_some_iff] at hinner
      obtain ⟨grown, hensure, attrs, -, deps, -, conflicts, -, hresult⟩ := hinner
      cases hresult
      have hgrown : KeepsOthers (Request.preAccept p).key inner grown := .grown (grown_of_ensureSlot h hensure)
      have htouched : KeepsOthers (Request.preAccept p).key grown { grown with conflicts } := .of_instances rfl
      exact (hgrown.trans htouched).trans (.setInstance (nonneg_of_ensureSlot hensure) _ _)
  | accept p =>
      obtain ⟨⟨served, r⟩, hinner, heq⟩ := Option.map_eq_some_iff.mp hhandle
      cases heq
      simp only [handleAcceptInner, Option.bind_eq_bind, Option.bind_eq_some_iff] at hinner
      obtain ⟨grown, hensure, hresult⟩ := hinner
      cases hresult
      have hgrown : KeepsOthers (Request.accept p).key inner grown := .grown (grown_of_ensureSlot h hensure)
      exact hgrown.trans (.setInstance (nonneg_of_ensureSlot hensure) _ _)
  | commit c =>
      obtain ⟨served, hinner, heq⟩ := Option.map_eq_some_iff.mp hhandle
      cases heq
      simp only [handleCommitInner, Option.bind_eq_bind, Option.bind_eq_some_iff] at hinner
      obtain ⟨⟨recorded, duplicate⟩, hrecorded, hresult⟩ := hinner
      have hrecord := keepsOthers_recordCommit h hrecorded
      dsimp only at hresult
      split at hresult
      · cases hresult
        exact hrecord
      · exact hrecord.trans (.of_instances (instances_executeAllReady hresult))
  | prepare p =>
      cases hhandle
      exact .of_instances rfl
  | tryPreAccept p =>
      obtain ⟨r, -, heq⟩ := Option.map_eq_some_iff.mp hhandle
      cases heq
      exact .of_instances rfl

theorem KeepsOthers.record? {other : Nat × Int} (h : KeepsOthers other inner inner') (hne : key ≠ other) :
    Keeps (inner.record? key.1 key.2) (inner'.record? key.1 key.2) := by
  intro inst hinst
  rw [ReplicaInner.record?] at hinst ⊢
  split at hinst
  · cases hinst
  · rename_i hslot
    rw [if_neg hslot]
    refine h key.1 key.2.toNat inst (fun heq => hne ?_) hinst
    rw [← heq, Int.toNat_of_nonneg (by omega)]

end KeepsOthers

/-- The record of an instance at the replica `j`. -/
def State.record? (s : State) (j : Nat) (key : Nat × Int) : Option Instance :=
  s.replicas[j]?.bind fun rep => rep.inner.record? key.1 key.2

/-- A step that has nothing to do with the instance leaves its records alone. -/
theorem keeps_of_step {rt : Runtime} {n : Nat} {s t : State} {a : Act}
    (h : s.Meets (wellFormedLocal False n)) (hstep : step rt s a = some t) (key : Nat × Int)
    (hdeliver : ∀ i j c req rest, a = .deliver i j → s.requests (i, j) = (c, req) :: rest → req.key ≠ key)
    (hcommit : ∀ c call, a = .commit c → s.calls[c]? = some call → call.key ≠ key) (j : Nat) :
    Keeps (s.record? j key) (t.record? j key) := by
  intro inst hinst
  obtain ⟨rep, hrep, hrecord⟩ := Option.bind_eq_some_iff.mp hinst
  have hlt : j < t.replicas.length := by
    rw [length_replicas_step hstep]
    exact (List.getElem?_eq_some_iff.mp hrep).1
  have hrep' : t.replicas[j]? = some t.replicas[j] := List.getElem?_eq_getElem hlt
  obtain ⟨old, hold, hchanges⟩ := changes_of_step hstep hrep'
  cases hrep.symm.trans hold
  have hshaped : rep.inner.Shaped := (h.replicas j rep hrep).shaped
  have hkeeps : Keeps (rep.inner.record? key.1 key.2) (t.replicas[j].inner.record? key.1 key.2) := by
    generalize t.replicas[j].inner = inner' at hchanges
    generalize rep.inner = inner at hchanges hshaped
    cases hchanges with
    | same => exact Keeps.refl _
    | started hstart =>
        simp only [startProposal, Option.bind_eq_bind, Option.bind_eq_some_iff] at hstart
        obtain ⟨next, -, attrs, -, conflicts, -, capped, -, hresult⟩ := hstart
        cases hresult
        exact Keeps.refl _
    | served hqueue hhandle =>
        exact (keepsOthers_handle hshaped hhandle).record? (hdeliver _ _ _ _ _ rfl hqueue).symm
    | broke hqueue =>
        exact (keepsOthers_remains hshaped _).record? (hdeliver _ _ _ _ _ rfl hqueue).symm
    | committed hcall _ hlocal =>
        exact (keepsOthers_commitLocal hshaped hlocal).record? (hcommit _ _ rfl hcall).symm
    | commitBroke hcall =>
        exact (keepsOthers_commitRemains hshaped _ _ _).record? (hcommit _ _ rfl hcall).symm
  rw [State.record?, hrep', Option.bind_some]
  exact hkeeps inst hrecord

/-! ### A proposal in the cluster -/

/-- The call at `c` with its peers. -/
def State.view (s : State) (c : Nat) (call : Coordinator) : View where
  phase := call.phase
  track j := Tagged.select c (s.requests (call.home, j)) ++ Tagged.select j call.outbox
  answers j := Tagged.select c (s.replies (j, call.home))
  record j := s.record? j call.key

/-- A run of the normal path, as far as the instance `key` goes: a proposal has all other replicas as its
peers, nobody recovers the instance, and the requests of a call to one peer keep their order. -/
def Normal (n : Nat) (key : Nat × Int) (s : State) : Act → Prop
  | .propose i _ peers _ => peers.Nodup ∧ ∀ j, j ∈ peers ↔ j < n ∧ j ≠ i
  | .recover _ r slot _ => (r, slot) ≠ key
  | .enqueue c k => ∀ call e, s.calls[c]? = some call → call.outbox[k]? = some e →
      ∀ k' < k, ∀ e', call.outbox[k']? = some e' → e'.1 ≠ e.1
  | _ => True

/-- What the replica `j` makes of a request of the call. -/
theorem serves_of_serve {rt : Runtime} {n j : Nat} {seen : List Event} {key : Nat × Int} {rep : Replica}
    {req : Request} (h : Sound n j rep.inner) (hreq : req.Sound n key)
    (hseen : ∀ p inner reply, req = .preAccept p → rep.poisoned = false →
      handlePreAcceptInner rt rep.inner p = some (inner, reply) → Event.answered j p reply ∈ seen) :
    Serves n seen j (rep.inner.record? key.1 key.2) ((rep.serve rt req).1.inner.record? key.1 key.2)
      (rep.serve rt req).2.toList req := by
  obtain ⟨rfl, hdeps, hvalid, hi32⟩ := hreq
  have hrecord {inner : ReplicaInner} {inst : Instance} {r : Nat} {slot : Int} (hslot : 0 ≤ slot)
      (hthere : ∃ old, inner.instance? r slot.toNat = some old) :
      (inner.setInstance r slot.toNat inst).record? r slot = some inst := by
    obtain ⟨old, hold⟩ := hthere
    rw [ReplicaInner.record?, if_neg (by omega)]
    exact instance?_setInstance_self hold inst
  rw [Replica.serve]
  cases hlock : rep.poisoned with
  | true =>
      cases req with
      | preAccept | accept => exact Or.inl ⟨Keeps.refl _, rfl⟩
      | _ => trivial
  | false =>
      rw [if_neg Bool.false_ne_true]
      cases hhandle : handle rt rep.inner req with
      | none =>
          cases req with
          | preAccept | accept => exact Or.inl ⟨Keeps.refl _, rfl⟩
          | _ => trivial
      | some result =>
          obtain ⟨inner', out⟩ := result
          cases req with
          | preAccept p =>
              obtain ⟨⟨served, reply⟩, hinner, heq⟩ := Option.map_eq_some_iff.mp hhandle
              cases heq
              have hkey : Valid n (asUsize p.replica, p.slot) := hvalid p rfl
              have hfor : DepsFor n (asUsize p.replica, p.slot) p.deps := hdeps hkey _ rfl
              obtain ⟨-, hreply⟩ := h.handlePreAccept hkey.2 (hi32 p rfl) hfor hinner
              have hanswered := hseen p _ _ rfl hlock hinner
              refine Or.inr ⟨reply, rfl, ?_⟩
              cases preAccepts_of_handle h.shaped (hi32 p rfl) hinner with
              | mk hgrown hjoined htouched heq =>
                  have hresize : resize rep.inner.n p.deps = p.deps :=
                    resize_eq_self (hfor.length_eq.trans h.n_eq.symm)
                  refine ⟨?_, hanswered, hreply.length_eq, ?_, fun hstatus => ?_⟩
                  · rw [heq, ← h.id_eq]
                  · refine ⟨_, hrecord hkey.2 (hgrown.exists_record hkey.2), ?_⟩
                    rw [heq]
                    rfl
                  · rw [heq] at hstatus ⊢
                    dsimp only at hstatus ⊢
                    split at hstatus
                    · rename_i hequal
                      rw [hresize] at hequal
                      exact hequal
                    · cases hstatus
          | accept p =>
              obtain ⟨⟨served, reply⟩, hinner, heq⟩ := Option.map_eq_some_iff.mp hhandle
              cases heq
              simp only [handleAcceptInner, Option.bind_eq_bind, Option.bind_eq_some_iff] at hinner
              obtain ⟨grown, hensure, hresult⟩ := hinner
              cases hresult
              have hslot := nonneg_of_ensureSlot hensure
              refine Or.inr ⟨_, rfl, _, hrecord hslot ?_, rfl, rfl⟩
              exact (grown_of_ensureSlot h.shaped hensure).exists_record hslot
          | _ => trivial

/-- What a call makes of a reply. -/
theorem reads_of_receive {seen : List Event} {call : Coordinator} {reply : Reply} (hnot : ¬call.phase.Recovers)
    (hseen : ∀ r e, reply = .preAccept r → call.decision r = some e → e ∈ seen) :
    ∃ new, Reads seen call.header call.phase reply (call.receive reply).1.phase new ∧
      (call.receive reply).1.outbox = call.outbox ++ new := by
  have hsame : ∃ new, Reads seen call.header call.phase reply call.phase new ∧
      call.outbox = call.outbox ++ new := ⟨[], .ignored, (List.append_nil _).symm⟩
  cases reply with
  | preAccept r =>
      simp only [Coordinator.receive]
      split
      · rename_i cmds seq deps replies hphase
        split
        · rename_i seq' deps' fastPath hdecision
          have hevent := hseen r (.decided call.key (replies ++ [r]) ⟨cmds, seq', deps'⟩ fastPath) rfl (by
            rw [Coordinator.decision, hphase]
            dsimp only
            rw [hdecision]
            rfl)
          rw [hphase]
          cases fastPath with
          | true => exact ⟨[], Reads.fast (c := call.header) hdecision hevent, (List.append_nil _).symm⟩
          | false => exact ⟨_, Reads.slow (c := call.header) hdecision hevent, rfl⟩
        · rw [hphase]
          exact ⟨[], .counted, (List.append_nil _).symm⟩
      · exact hsame
  | prepare r =>
      simp only [Coordinator.receive]
      split
      · rename_i hphase
        rw [hphase] at hnot
        exact absurd trivial hnot
      · exact hsame
  | tryPreAccept r =>
      simp only [Coordinator.receive]
      split
      · rename_i hphase
        rw [hphase] at hnot
        exact absurd trivial hnot
      · exact hsame
  | accept r =>
      simp only [Coordinator.receive]
      split
      · rename_i v count hphase
        rw [hphase]
        split
        · rename_i hcount
          exact ⟨[], Reads.enough (c := call.header) hcount, (List.append_nil _).symm⟩
        · exact ⟨[], .more, (List.append_nil _).symm⟩
      · exact hsame

section Simulation

variable {rt : Runtime} {n : Nat} {key : Nat × Int} {seen : List Event} {s t : State} {a : Act} {c : Nat}
  {call : Coordinator}

theorem viewStep_deliver (h : s.Meets (wellFormedLocal False n)) (hcall : s.calls[c]? = some call) {i j : Nat}
    {req : Request} {rest : List (Nat × Request)} {rep : Replica}
    (hqueue : s.requests (i, j) = (c, req) :: rest) (hrep : s.running? j = some rep) :
    View.Step n (seen ++ observe rt s (.deliver i j)) call.header (s.view c call)
      (State.view { s with
        replicas := s.replicas.set j (rep.serve rt req).1
        requests := Function.update s.requests (i, j) rest
        replies := match (rep.serve rt req).2 with
          | some reply => Function.update s.replies (j, i) (s.replies (j, i) ++ [(c, reply)])
          | none => s.replies } c call) := by
  have hrep' := State.running?_eq_some hrep
  obtain ⟨call', hcall', rfl, hreq⟩ := h.requests i j (c, req) (by rw [hqueue]; exact List.mem_cons_self)
  cases hcall.symm.trans hcall'
  have hserves : Serves n (seen ++ observe rt s (.deliver call.home j)) j (rep.inner.record? call.key.1 call.key.2)
      ((rep.serve rt req).1.inner.record? call.key.1 call.key.2) (rep.serve rt req).2.toList req := by
    refine serves_of_serve (h.replicas j rep hrep') hreq ?_
    rintro p inner reply rfl hlock hhandle
    refine List.mem_append_right _ ?_
    simp only [observe, hqueue, hrep, Option.bind_some, hlock, Bool.false_eq_true, if_false, hhandle,
      Option.map_some, Option.toList_some, List.mem_singleton]
  have hpair {k : Nat} (hk : k ≠ j) : (call.home, k) ≠ (call.home, j) := fun heq => hk (Prod.mk.inj heq).2
  have hpair' {k : Nat} (hk : k ≠ j) : (k, call.home) ≠ (j, call.home) := fun heq => hk (Prod.mk.inj heq).1
  have hhead : (s.view c call).track j = req :: (Tagged.select c rest ++ Tagged.select j call.outbox) := by
    show Tagged.select c (s.requests (call.home, j)) ++ _ = _
    rw [hqueue, Tagged.select_cons, if_pos rfl]
    rfl
  refine .served (rep.serve rt req).2.toList rfl hhead ?_ ?_ ?_ ?_
  · funext k
    by_cases hk : k = j
    · subst hk
      rw [Function.update_self]
      show Tagged.select c (Function.update s.requests (call.home, k) rest (call.home, k)) ++ _ = _
      rw [Function.update_self]
    · rw [Function.update_of_ne hk]
      show Tagged.select c (Function.update s.requests (call.home, j) rest (call.home, k)) ++ _ = _
      rw [Function.update_of_ne (hpair hk)]
      rfl
  · funext k
    cases hout : (rep.serve rt req).2 with
    | none =>
        rw [Option.toList_none, List.append_nil, Function.update_eq_self]
        rfl
    | some reply =>
        by_cases hk : k = j
        · subst hk
          rw [Function.update_self]
          show Tagged.select c (Function.update s.replies (k, call.home) _ (k, call.home)) = _
          rw [Function.update_self, Tagged.select_append, Tagged.select_cons, if_pos rfl]
          rfl
        · rw [Function.update_of_ne hk]
          show Tagged.select c (Function.update s.replies (j, call.home) _ (k, call.home)) = _
          rw [Function.update_of_ne (hpair' hk)]
          rfl
  · intro k hk
    show (s.replicas.set j _)[k]?.bind _ = s.replicas[k]?.bind _
    rw [List.getElem?_set, if_neg (Ne.symm hk)]
  · have hold : (s.view c call).record j = rep.inner.record? call.key.1 call.key.2 := by
      show s.replicas[j]?.bind _ = _
      rw [hrep', Option.bind_some]
    rw [hold]
    show Serves n _ j _ ((s.replicas.set j (rep.serve rt req).1)[j]?.bind _) _ req
    rw [ListUpdate.getElem?_set_of_some hrep', Option.bind_some]
    exact hserves

theorem viewStep_receive (h : s.Meets (wellFormedLocal False n)) {i j : Nat} {reply : Reply}
    {rest : List (Nat × Reply)} (hqueue : s.replies (j, i) = (c, reply) :: rest) (hcall : s.call? c = some call)
    (decided : Decisions) :
    View.Step n (seen ++ observe rt s (.receive i j)) call.header (s.view c call)
      (State.view { s.setCall c (call.receive reply).1 with
        replies := Function.update s.replies (j, i) rest
        decided := decided } c (call.receive reply).1) := by
  have hcall' := State.call?_eq_some hcall
  obtain ⟨call', hcalls, rfl, -⟩ := h.replies i j (c, reply) (by rw [hqueue]; exact List.mem_cons_self)
  cases hcall'.symm.trans hcalls
  by_cases hrecovers : call.phase.Recovers
  · exact .foreign hrecovers
  · have hseen : ∀ r e, reply = .preAccept r → call.decision r = some e →
        e ∈ seen ++ observe rt s (.receive call.home j) := by
      rintro r e rfl hdecision
      refine List.mem_append_right _ ?_
      simp only [observe, hqueue, hcall, Option.bind_some, hdecision, Option.toList_some, List.mem_singleton]
    obtain ⟨new, hreads, houtbox⟩ := reads_of_receive hrecovers hseen
    have hheader := Coordinator.header_receive call reply
    have hhome := Coordinator.home_eq_of_header hheader
    have hkey := Coordinator.key_eq_of_header hheader
    have hhead : (s.view c call).answers j = reply :: Tagged.select c rest := by
      show Tagged.select c (s.replies (j, call.home)) = _
      rw [hqueue, Tagged.select_cons, if_pos rfl]
    refine .received hhead hreads (fun k => ?_) ?_ ?_
    · simp only [State.view, hhome, houtbox, Tagged.select_append, List.append_assoc]
      rfl
    · funext k
      simp only [State.view, hhome]
      by_cases hk : k = j
      · subst hk
        rw [Function.update_self, Function.update_self]
      · rw [Function.update_of_ne hk, Function.update_of_ne fun heq => hk (Prod.mk.inj heq).1]
    · funext k
      simp only [State.view, hkey]
      rfl

theorem viewStep_enqueue {k : Nat} {entry : Nat × Request} (hentry : call.outbox[k]? = some entry)
    (hfirst : ∀ k' < k, ∀ x, call.outbox[k']? = some x → x.1 ≠ entry.1) :
    View.Step n seen call.header (s.view c call)
      (State.view { s.setCall c { call with outbox := call.outbox.eraseIdx k } with
        requests := Function.update s.requests (call.home, entry.1)
          (s.requests (call.home, entry.1) ++ [(c, entry.2)]) } c
        { call with outbox := call.outbox.eraseIdx k }) := by
  refine .drift rfl (fun j => ?_) (fun _ => .refl _) fun _ => Keeps.refl _
  -- the request goes from the front of the outbox to the end of the stream
  by_cases hj : j = entry.1
  · subst hj
    have hselect := Tagged.select_eraseIdx_first hentry hfirst
    simp only [State.view, Function.update_self, Tagged.select_append, hselect]
    rw [Tagged.select_cons, if_pos rfl, List.append_assoc]
    rfl
  · have hselect := Tagged.select_eraseIdx_ne hentry (Ne.symm hj)
    have hpair : (call.home, j) ≠ (call.home, entry.1) := fun heq => hj (Prod.mk.inj heq).2
    simp only [State.view, Function.update_of_ne hpair, hselect]
    exact .refl _

/-- The call is over with `new`, and has nothing new to send. -/
theorem viewStep_over {new : Coordinator} (hheader : new.header = call.header) (hphase : new.phase.Over)
    (hrequests : t.requests = s.requests)
    (houtbox : ∀ j p, (j, Request.preAccept p) ∈ new.outbox → (j, Request.preAccept p) ∈ call.outbox) :
    View.Step n seen call.header (s.view c call) (t.view c new) := by
  refine .ended hphase fun j p hmem => ?_
  simp only [State.view, Coordinator.home_eq_of_header hheader, hrequests, List.mem_append,
    Tagged.mem_select] at hmem ⊢
  exact hmem.imp_right (houtbox j p)

theorem viewStep_giveUp {next : Coordinator} (hnext : call.giveUp = some next) :
    View.Step n seen call.header (s.view c call) (State.view (s.setCall c next) c next) := by
  by_cases hrecovers : call.phase.Recovers
  · exact .foreign hrecovers
  · have hfail : next = call.fail := by
      rw [Coordinator.giveUp] at hnext
      split at hnext
      · rename_i hphase
        rw [hphase] at hrecovers
        exact absurd trivial hrecovers
      all_goals cases hnext
      rfl
    subst hfail
    exact viewStep_over rfl trivial rfl fun _ _ => id

/-- Where the proposal of the instance `key` stands: its slot is taken, no other call is about the instance,
and what the machine of its rounds needs is there. -/
structure Rounds (n : Nat) (key : Nat × Int) (seen : List Event) (s : State) : Prop where
  sound : s.Meets (wellFormedLocal False n)
  one : ∀ (c c' : Nat) (call call' : Coordinator), s.calls[c]? = some call → s.calls[c']? = some call' →
    call.key = key → call'.key = key → c = c'
  taken : ∀ call ∈ s.calls, call.key = key → ∀ rep, s.replicas[key.1]? = some rep →
    key.2 < rep.inner.curSlot ∨ rep.inner.curSlot < 0
  started : ∀ v, Event.started key v ∈ seen → ∃ call ∈ s.calls, call.key = key
  origin : ∀ v v', Event.started key v ∈ seen → Event.started key v' ∈ seen → v = v'
  asked : ∀ (c : Nat) (call : Coordinator), s.calls[c]? = some call → call.key = key →
    ∀ j p, Request.preAccept p ∈ (s.view c call).track j →
      ∃ v, Event.started key v ∈ seen ∧ p = preAcceptOf key v
  rounds : ∀ (c : Nat) (call : Coordinator), s.calls[c]? = some call → call.key = key →
    Proposing n call.header ∧ (s.view c call).Inv n seen call.header

/-- The proposal moves as the machine of its rounds does. -/
theorem viewStep_of_step (h : Rounds n key seen s) (hok : Normal n key s a) (hstep : step rt s a = some t)
    (hcall : s.calls[c]? = some call) (hkey : call.key = key) :
    ∃ call', t.calls[c]? = some call' ∧ call'.header = call.header ∧
      View.Step n (seen ++ observe rt s a) call.header (s.view c call) (t.view c call') := by
  have hforeign {d : Nat} {other : Coordinator} (hother : s.calls[d]? = some other) (hne : d ≠ c) :
      other.key ≠ key := fun heq => hne (h.one d c other call hother hcall heq hkey)
  have hkeeps := keeps_of_step h.sound hstep key
  have hquiet (hdeliver : ∀ i j, a ≠ .deliver i j) (hcommit : ∀ d, a ≠ .commit d) :
      ∀ j, Keeps (s.record? j key) (t.record? j key) :=
    hkeeps (fun i j _ _ _ ha => absurd ha (hdeliver i j)) fun d _ ha => absurd ha (hcommit d)
  have hdrift (hcall' : t.calls[c]? = some call)
      (htrack : ∀ j, (Tagged.select c (t.requests (call.home, j))).Sublist
        (Tagged.select c (s.requests (call.home, j))))
      (hanswers : ∀ j, (Tagged.select c (t.replies (j, call.home))).Sublist
        (Tagged.select c (s.replies (j, call.home))))
      (hrecord : ∀ j, Keeps (s.record? j key) (t.record? j key)) :
      ∃ call', t.calls[c]? = some call' ∧ call'.header = call.header ∧
        View.Step n (seen ++ observe rt s a) call.header (s.view c call) (t.view c call') := by
    refine ⟨call, hcall', rfl, .drift rfl (fun j => (htrack j).append_right _) hanswers fun j => ?_⟩
    have hrecord' := hrecord j
    rw [← hkey] at hrecord'
    exact hrecord'
  -- another call moves
  have hset {d : Nat} {new : Coordinator} (hne : d ≠ c) : (s.calls.set d new)[c]? = some call := by
    rw [List.getElem?_set, if_neg hne]
    exact hcall
  have hover {new : Coordinator} (hnew : t.calls = s.calls.set c new) (hheader : new.header = call.header)
      (hphase : new.phase.Over) (hrequests : t.requests = s.requests)
      (houtbox : ∀ j p, (j, Request.preAccept p) ∈ new.outbox → (j, Request.preAccept p) ∈ call.outbox) :
      ∃ call', t.calls[c]? = some call' ∧ call'.header = call.header ∧
        View.Step n (seen ++ observe rt s a) call.header (s.view c call) (t.view c call') := by
    refine ⟨new, ?_, hheader, viewStep_over hheader hphase hrequests houtbox⟩
    rw [hnew]
    exact ListUpdate.getElem?_set_of_some hcall
  cases moves_of_step hstep with
  | propose =>
      exact hdrift (ListUpdate.getElem?_append_of_some hcall _) (fun _ => .refl _) (fun _ => .refl _)
        (hquiet nofun nofun)
  | proposePanic => exact hdrift hcall (fun _ => .refl _) (fun _ => .refl _) (hquiet nofun nofun)
  | recover =>
      exact hdrift (ListUpdate.getElem?_append_of_some hcall _) (fun _ => .refl _) (fun _ => .refl _)
        (hquiet nofun nofun)
  | @enqueue d k other entry hother hentry =>
      by_cases hne : d = c
      · subst hne
        cases hcall.symm.trans (State.call?_eq_some hother)
        exact ⟨_, ListUpdate.getElem?_set_of_some hcall, rfl, viewStep_enqueue hentry (hok call entry hcall hentry)⟩
      · refine hdrift (hset hne) (fun j => ?_) (fun _ => .refl _) (hquiet nofun nofun)
        refine Tagged.select_update_sublist ?_ _
        rw [Tagged.select_concat_ne hne]
  | @deliver i j d req rest rep hqueue hrep =>
      by_cases hne : d = c
      · subst hne
        exact ⟨call, hcall, rfl, viewStep_deliver h.sound hcall hqueue hrep⟩
      · refine hdrift hcall (fun k => ?_) (fun k => ?_) (hkeeps ?_ nofun)
        · refine Tagged.select_update_sublist ?_ _
          rw [hqueue, Tagged.select_cons_ne hne]
        · cases (rep.serve rt req).2 with
          | none => exact .refl _
          | some reply =>
              refine Tagged.select_update_sublist ?_ _
              rw [Tagged.select_concat_ne hne]
        · intro i' j' d' req' rest' hact hqueue'
          cases hact
          cases hqueue.symm.trans hqueue'
          obtain ⟨other, hother, -, hreq⟩ := h.sound.requests i j (d, req) (by rw [hqueue]; exact List.mem_cons_self)
          have hkey' : req.key = other.key := Request.Sound.key_eq hreq
          rw [hkey']
          exact hforeign hother hne
  | @receive i j d reply rest other hqueue hother =>
      by_cases hne : d = c
      · subst hne
        cases hcall.symm.trans (State.call?_eq_some hother)
        exact ⟨_, ListUpdate.getElem?_set_of_some hcall, Coordinator.header_receive call reply,
          viewStep_receive h.sound hqueue hother _⟩
      · refine hdrift (hset hne) (fun _ => .refl _) (fun k => ?_) (hquiet nofun nofun)
        refine Tagged.select_update_sublist ?_ _
        rw [hqueue, Tagged.select_cons_ne hne]
  | lose =>
      refine hdrift hcall (fun m => ?_) (fun _ => .refl _) (hquiet nofun nofun)
      exact Tagged.select_update_sublist (Tagged.select_sublist c (List.eraseIdx_sublist ..)) _
  | loseReply =>
      refine hdrift hcall (fun _ => .refl _) (fun m => ?_) (hquiet nofun nofun)
      exact Tagged.select_update_sublist (Tagged.select_sublist c (List.eraseIdx_sublist ..)) _
  | @giveUp d other next hother hnext =>
      by_cases hne : d = c
      · subst hne
        cases hcall.symm.trans (State.call?_eq_some hother)
        exact ⟨next, ListUpdate.getElem?_set_of_some hcall, Coordinator.header_giveUp hnext, viewStep_giveUp hnext⟩
      · exact hdrift (hset hne) (fun _ => .refl _) (fun _ => .refl _) (hquiet nofun nofun)
  | @commit d other v fastPath rep inner hother hphase hrep hlock hcommit =>
      by_cases hne : d = c
      · subst hne
        cases hcall.symm.trans (State.call?_eq_some hother)
        refine hover rfl rfl trivial rfl fun j p hmem => ?_
        rcases List.mem_append.mp hmem with hmem | hmem
        · exact hmem
        · obtain ⟨x, -, heq⟩ := List.mem_map.mp hmem
          cases heq
      · refine hdrift (hset hne) (fun _ => .refl _) (fun _ => .refl _) (hkeeps nofun ?_)
        rintro d' other' hact hother'
        cases hact
        exact hforeign hother' hne
  | @commitPanic d other v fastPath rep hother =>
      by_cases hne : d = c
      · subst hne
        cases hcall.symm.trans (State.call?_eq_some hother)
        exact hover rfl rfl trivial rfl fun _ _ => id
      · refine hdrift (hset hne) (fun _ => .refl _) (fun _ => .refl _) (hkeeps nofun ?_)
        rintro d' other' hact hother'
        cases hact
        exact hforeign hother' hne
  | @commitPoisoned d other v fastPath rep hother =>
      by_cases hne : d = c
      · subst hne
        cases hcall.symm.trans (State.call?_eq_some hother)
        exact hover rfl rfl trivial rfl fun _ _ => id
      · exact hdrift (hset hne) (fun _ => .refl _) (fun _ => .refl _) fun _ => Keeps.refl _
  | @finish d other v fastPath hother =>
      by_cases hne : d = c
      · subst hne
        cases hcall.symm.trans (State.call?_eq_some hother)
        exact hover rfl rfl trivial rfl fun _ _ => id
      · exact hdrift (hset hne) (fun _ => .refl _) (fun _ => .refl _) (hquiet nofun nofun)
  | stop => exact hdrift hcall (fun _ => .refl _) (fun _ => .refl _) (hquiet nofun nofun)

/-! ### The instance is taken once -/

theorem key_propose (home : Nat) (cmds : List Command) (peers : List Nat) (thrifty : Bool) (slot seq : Int)
    (deps : List Int) : (Coordinator.propose home cmds peers thrifty slot seq deps).key = (home, slot) := by
  rw [Coordinator.propose]
  split <;> rfl

theorem key_recover (home n replica : Nat) (slot : Int) (peers : List Nat) :
    (Coordinator.recover home n replica slot peers).key = (replica, slot) := by
  rw [Coordinator.recover]
  split <;> rfl

/-- What a step shows as started is what `start_proposal` returns. -/
theorem started_of_observe {v : Value} (h : Event.started key v ∈ observe rt s a) :
    ∃ i peers thrifty rep inner, a = .propose i v.cmds peers thrifty ∧ s.running? i = some rep ∧
      rep.poisoned = false ∧ rep.inner.id = key.1 ∧
      rep.inner.startProposal rt v.cmds = some (inner, key.2, v.seq, v.deps) := by
  cases a with
  | propose i cmds peers thrifty =>
      rw [observe, Option.mem_toList, Option.bind_eq_some_iff] at h
      obtain ⟨rep, hrep, h⟩ := h
      split at h
      · cases h
      · rename_i hlock
        obtain ⟨⟨inner, slot, seq, deps⟩, hstart, heq⟩ := Option.map_eq_some_iff.mp h
        cases heq
        exact ⟨i, peers, thrifty, rep, inner, rfl, hrep, by simpa using hlock, rfl, hstart⟩
  | deliver i j =>
      simp only [observe] at h
      split at h
      · rw [Option.mem_toList, Option.bind_eq_some_iff] at h
        obtain ⟨rep, -, h⟩ := h
        split at h
        · cases h
        · obtain ⟨result, -, heq⟩ := Option.map_eq_some_iff.mp h
          cases heq
      · cases h
  | receive i j =>
      simp only [observe] at h
      split at h
      · rw [Option.mem_toList, Option.bind_eq_some_iff] at h
        obtain ⟨other, -, h⟩ := h
        rw [Coordinator.decision] at h
        split at h
        · obtain ⟨result, -, heq⟩ := Option.map_eq_some_iff.mp h
          cases heq
        · cases h
      · cases h
  | _ => cases h

/-- A counter that is not negative goes up, or wraps around to below zero. -/
theorem Runtime.i32_succ {rt : Runtime} {x y : Int} (hx : 0 ≤ x) (hlt : x < 2 ^ 31)
    (h : rt.i32 (x + 1) = some y) : x < y ∨ y < 0 := by
  rw [Runtime.i32] at h
  split at h
  · cases h
    omega
  · split at h
    · cases h
    · cases h
      omega

/-- The slot of a proposal that starts is the counter, which no call on the instance has left behind it. -/
theorem Rounds.fresh (h : Rounds n key seen s) (hbegins : Begins (Targets False n) s a) {i : Nat}
    {cmds : List Command} {peers : List Nat} {thrifty : Bool} {rep : Replica} {inner : ReplicaInner}
    {slot seq : Int} {deps : List Int} (ha : a = .propose i cmds peers thrifty) (hrep : s.running? i = some rep)
    (hstart : rep.inner.startProposal rt cmds = some (inner, slot, seq, deps)) (hkey : (rep.inner.id, slot) = key) :
    i = key.1 ∧ rep.inner.curSlot = key.2 ∧ 0 ≤ key.2 ∧ ∀ call ∈ s.calls, call.key ≠ key := by
  subst ha
  have hrep' := State.running?_eq_some hrep
  have hid : rep.inner.id = i := Sound.id_eq (h.sound.replicas i rep hrep')
  have hi : i = key.1 := by rw [← hkey, ← hid]
  have hcur : rep.inner.curSlot = key.2 := by rw [← hkey, (curSlot_startProposal hstart).1]
  have hnonneg : 0 ≤ rep.inner.curSlot := hbegins rep hrep'
  refine ⟨hi, hcur, hcur ▸ hnonneg, fun call hcall hcallkey => ?_⟩
  rcases h.taken call hcall hcallkey rep (hi ▸ hrep') with hlt | hneg
  · omega
  · omega

/-- The call on the instance that a step begins is a proposal. -/
theorem Rounds.joins (h : Rounds n key seen s) (hok : Normal n key s a) (hbegins : Begins (Targets False n) s a)
    (hjoins : Joins rt s a call) (hkey : call.key = key) :
    ∃ cmds peers thrifty rep inner seq deps, a = .propose key.1 cmds peers thrifty ∧
      s.running? key.1 = some rep ∧ rep.poisoned = false ∧ rep.inner.id = key.1 ∧ rep.inner.curSlot = key.2 ∧
      0 ≤ key.2 ∧ rep.inner.startProposal rt cmds = some (inner, key.2, seq, deps) ∧
      call = Coordinator.propose key.1 cmds peers thrifty key.2 seq deps ∧ ∀ call ∈ s.calls, call.key ≠ key := by
  cases hjoins with
  | @propose i cmds peers thrifty rep inner slot seq deps hrep hlock hstart =>
      rw [key_propose] at hkey
      obtain ⟨rfl, hcur, hnonneg, hfresh⟩ := h.fresh hbegins rfl hrep hstart hkey
      have hid : rep.inner.id = key.1 := congrArg Prod.fst hkey
      have hslot : slot = key.2 := congrArg Prod.snd hkey
      rw [hid, hslot]
      rw [hslot] at hstart
      exact ⟨cmds, peers, thrifty, rep, inner, seq, deps, rfl, hrep, hlock, hid, hcur, hnonneg, hstart, rfl, hfresh⟩
  | recover =>
      rw [key_recover] at hkey
      exact absurd hkey hok

/-- The machine begins with the PreAccepts in the outbox. -/
theorem inv_view_propose {home : Nat} {cmds : List Command} {peers : List Nat} {thrifty : Bool}
    {slot seq : Int} {deps : List Int} (hhome : home < n) (hnodup : peers.Nodup)
    (hpeers : ∀ j, j ∈ peers ↔ j < n ∧ j ≠ home) (hdeps : deps.length = n)
    (hseen : Event.started (home, slot) ⟨cmds, seq, deps⟩ ∈ seen)
    (hrequests : ∀ j, Tagged.select c (s.requests (home, j)) = [])
    (hreplies : ∀ j, Tagged.select c (s.replies (j, home)) = []) :
    Proposing n (Coordinator.propose home cmds peers thrifty slot seq deps).header ∧
      (s.view c (Coordinator.propose home cmds peers thrifty slot seq deps)).Inv n seen
        (Coordinator.propose home cmds peers thrifty slot seq deps).header ∧
      ∀ j p, Request.preAccept p ∈ (s.view c (Coordinator.propose home cmds peers thrifty slot seq deps)).track j →
        p = preAcceptOf (home, slot) ⟨cmds, seq, deps⟩ := by
  have hlength : peers.length = n - 1 := by
    have hperm : peers.Perm ((List.range n).erase home) := by
      refine (List.perm_ext_iff_of_nodup hnodup (List.nodup_range.erase home)).mpr fun j => ?_
      rw [hpeers, List.nodup_range.mem_erase_iff, List.mem_range, and_comm]
    rw [hperm.length_eq, List.length_erase_of_mem (List.mem_range.mpr hhome), List.length_range]
  have hsize : peers.length + 1 = n := by omega
  rw [Coordinator.propose]
  by_cases hne : peers = []
  · rw [if_pos hne]
    refine ⟨⟨rfl, rfl, hsize, hnodup, hpeers, hlength⟩, trivial, fun j p hmem => ?_⟩
    have hmem' : Request.preAccept p ∈ Tagged.select c (s.requests (home, j)) ++ [] := hmem
    rw [hrequests] at hmem'
    cases hmem'
  rw [if_neg hne]
  have htrack {j : Nat} {req : Request} (hreq : req ∈ Tagged.select c (s.requests (home, j)) ++
      Tagged.select j (peers.map fun p => (p, Request.preAccept (preAcceptOf (home, slot) ⟨cmds, seq, deps⟩)))) :
      req = .preAccept (preAcceptOf (home, slot) ⟨cmds, seq, deps⟩) := by
    rw [hrequests, Tagged.select_map hnodup, List.nil_append] at hreq
    split at hreq
    · exact List.mem_singleton.mp hreq
    · cases hreq
  refine ⟨⟨rfl, rfl, hsize, hnodup, hpeers, hlength⟩, ⟨hseen, hdeps, fun j => ?_, fun j req hreq => htrack hreq,
    fun j reply hreply => ?_, fun _ hmem => absurd hmem List.not_mem_nil⟩, fun j p hmem => ?_⟩
  · show (Tagged.select c (s.requests (home, j)) ++ Tagged.select j (peers.map _)).length +
      (Tagged.select c (s.replies (j, home))).length + 0 ≤ if j ∈ peers then 1 else 0
    rw [hrequests, hreplies, Tagged.select_map hnodup]
    split <;> simp
  · have hreply' : reply ∈ Tagged.select c (s.replies (j, home)) := hreply
    rw [hreplies] at hreply'
    cases hreply'
  · have heq := htrack hmem
    cases heq
    rfl

/-- A slot that the counter has passed stays behind it. -/
theorem passed_of_changes {i : Nat} {inner inner' : ReplicaInner} {slot : Int} (hlt : inner.curSlot < 2 ^ 31)
    (hbegins : ∀ cmds peers thrifty, a = .propose i cmds peers thrifty → 0 ≤ inner.curSlot)
    (hpassed : slot < inner.curSlot ∨ inner.curSlot < 0) (hchanges : Changes rt s a i inner inner') :
    slot < inner'.curSlot ∨ inner'.curSlot < 0 := by
  cases hchanges with
  | same => exact hpassed
  | started hstart =>
      have hnonneg := hbegins _ _ _ rfl
      have hmoved := Runtime.i32_succ hnonneg hlt (curSlot_startProposal hstart).2
      omega
  | served _ hhandle => rwa [curSlot_handle hhandle]
  | broke => rwa [(frame_remains inner _).curSlot_eq]
  | committed _ _ hcommit => rwa [(frame_commitLocal hcommit).curSlot_eq]
  | commitBroke => rwa [(frame_commitRemains inner _ _ _).curSlot_eq]

theorem Rounds.taken_step (h : Rounds n key seen s) (hok : Normal n key s a)
    (hbegins : Begins (Targets False n) s a) (hstep : step rt s a = some t) :
    ∀ call ∈ t.calls, call.key = key → ∀ rep, t.replicas[key.1]? = some rep →
      key.2 < rep.inner.curSlot ∨ rep.inner.curSlot < 0 := by
  intro call hcall hkey rep hrep
  obtain ⟨c, hc⟩ := List.mem_iff_getElem?.mp hcall
  rcases joins_of_step hstep hc with ⟨call', hcall', hheader⟩ | ⟨-, hjoins⟩
  · obtain ⟨old, hold, hchanges⟩ := changes_of_step hstep hrep
    have hpassed := h.taken call' (List.mem_of_getElem? hcall')
      (by rw [← Coordinator.key_eq_of_header hheader, hkey]) old hold
    refine passed_of_changes (Sound.curSlot_lt (h.sound.replicas key.1 old hold)) ?_ hpassed hchanges
    rintro cmds peers thrifty rfl
    exact hbegins old hold
  · obtain ⟨cmds, peers, thrifty, old, inner, seq, deps, rfl, hold, hlock, -, hcur, hnonneg, hstart, -, -⟩ :=
      h.joins hok hbegins hjoins hkey
    cases moves_of_step hstep with
    | propose hrun _ hstart' =>
        cases hold.symm.trans hrun
        cases hstart.symm.trans hstart'
        cases (ListUpdate.getElem?_set_of_some (State.running?_eq_some hold)).symm.trans hrep
        have hlt := Sound.curSlot_lt (h.sound.replicas key.1 old (State.running?_eq_some hold))
        have hmoved := Runtime.i32_succ (by omega) hlt (curSlot_startProposal hstart).2
        dsimp only
        omega
    | proposePanic hrun _ hnone =>
        cases hold.symm.trans hrun
        cases hstart.symm.trans hnone

/-- The proposal that a step begins. -/
theorem Rounds.begun (h : Rounds n key seen s) (hok : Normal n key s a) (hbegins : Begins (Targets False n) s a)
    (hstep : step rt s a = some t) (hjoins : Joins rt s a call) (hkey : call.key = key) :
    ∃ v, Event.started key v ∈ seen ++ observe rt s a ∧ Proposing n call.header ∧
      (t.view s.calls.length call).Inv n (seen ++ observe rt s a) call.header ∧
      ∀ j p, Request.preAccept p ∈ (t.view s.calls.length call).track j → p = preAcceptOf key v := by
  obtain ⟨cmds, peers, thrifty, rep, inner, seq, deps, rfl, hrep, hlock, hid, hcur, hnonneg, hstart, rfl, -⟩ :=
    h.joins hok hbegins hjoins hkey
  have hrep' := State.running?_eq_some hrep
  have hsound : Sound n key.1 rep.inner := h.sound.replicas key.1 rep hrep'
  obtain ⟨-, -, hdeps⟩ := hsound.startProposal (by omega) hstart
  -- no message carries the index of a call that is not there yet
  have hnone {β : Type} {queue : List (Nat × β)} {home : Nat} {P : Nat × β → Coordinator → Prop}
      (hqueue : ∀ x ∈ queue, OfHeader s.calls x.1 home (P x)) : Tagged.select s.calls.length queue = [] := by
    refine List.eq_nil_iff_forall_not_mem.mpr fun b hb => ?_
    obtain ⟨call, hcall, -⟩ := hqueue _ (Tagged.mem_select.mp hb)
    exact absurd (List.getElem?_eq_some_iff.mp hcall).1 (Nat.lt_irrefl _)
  have hseen : Event.started (key.1, key.2) ⟨cmds, seq, deps⟩ ∈
      seen ++ observe rt s (.propose key.1 cmds peers thrifty) := by
    refine List.mem_append_right _ ?_
    simp only [observe, hrep, Option.bind_some, hlock, Bool.false_eq_true, if_false, hstart, Option.map_some,
      Option.toList_some, List.mem_singleton, hid]
  cases moves_of_step hstep with
  | propose hrun _ hstart' =>
      exact ⟨_, hseen, inv_view_propose hsound.lt hok.1 hok.2 hdeps.length_eq hseen
        (fun j => hnone (h.sound.requests key.1 j)) fun j => hnone (h.sound.replies key.1 j)⟩
  | proposePanic hrun _ hnone' =>
      cases hrep.symm.trans hrun
      cases hstart.symm.trans hnone'

/-- A call on the instance was there before the step, and its view took a step, or it has just begun. -/
theorem Rounds.viewed (h : Rounds n key seen s) (hok : Normal n key s a) (hstep : step rt s a = some t)
    {call' : Coordinator} (hcall' : t.calls[c]? = some call') (hkey' : call'.key = key) :
    (∃ call, s.calls[c]? = some call ∧ call.key = key ∧ call'.header = call.header ∧
        View.Step n (seen ++ observe rt s a) call.header (s.view c call) (t.view c call')) ∨
      (c = s.calls.length ∧ Joins rt s a call') := by
  rcases joins_of_step hstep hcall' with ⟨call, hcall, hheader⟩ | hjoins
  · have hkey : call.key = key := by rw [← Coordinator.key_eq_of_header hheader, hkey']
    obtain ⟨next, hnext, -, hview⟩ := viewStep_of_step h hok hstep hcall hkey
    cases hcall'.symm.trans hnext
    exact Or.inl ⟨call, hcall, hkey, hheader, hview⟩
  · exact Or.inr hjoins

theorem Rounds.step (h : Rounds n key seen s) (hok : Normal n key s a)
    (hbegins : Begins (Targets False n) s a) (hstep : step rt s a = some t) :
    Rounds n key (seen ++ observe rt s a) t where
  sound := h.sound.step (kept_wellFormedLocal False rt n) hbegins hstep
  one c c' call call' hcall hcall' hkey hkey' := by
    have hold {x : Nat} {new : Coordinator} (hnewkey : new.key = key) (hold : ∃ call, s.calls[x]? = some call ∧
        new.header = call.header) : ∃ call, s.calls[x]? = some call ∧ call.key = key := by
      obtain ⟨call, hcall, hheader⟩ := hold
      exact ⟨call, hcall, by rw [← Coordinator.key_eq_of_header hheader, hnewkey]⟩
    have hnew {x y : Nat} {new : Coordinator} (hnewkey : new.key = key) (hjoins : Joins rt s a new)
        (hthere : ∃ call, s.calls[y]? = some call ∧ call.key = key) : x = y := by
      obtain ⟨old, hy, hkey⟩ := hthere
      obtain ⟨_, _, _, _, _, _, _, -, -, -, -, -, -, -, -, hfresh⟩ := h.joins hok hbegins hjoins hnewkey
      exact absurd hkey (hfresh old (List.mem_of_getElem? hy))
    rcases joins_of_step hstep hcall with hc | ⟨hc, hjoins⟩
    · obtain ⟨x, hx, hxkey⟩ := hold hkey hc
      rcases joins_of_step hstep hcall' with hc' | ⟨-, hjoins'⟩
      · obtain ⟨y, hy, hykey⟩ := hold hkey' hc'
        exact h.one c c' x y hx hy hxkey hykey
      · exact (hnew hkey' hjoins' ⟨x, hx, hxkey⟩).symm
    · rcases joins_of_step hstep hcall' with hc' | ⟨hc', -⟩
      · exact hnew hkey hjoins (hold hkey' hc')
      · rw [hc, hc']
  taken := h.taken_step hok hbegins hstep
  started v hv := by
    rcases List.mem_append.mp hv with hv | hv
    · obtain ⟨call, hcall, hkey⟩ := h.started v hv
      obtain ⟨c, hc⟩ := List.mem_iff_getElem?.mp hcall
      obtain ⟨call', hcall', hheader, -⟩ := viewStep_of_step h hok hstep hc hkey
      exact ⟨call', List.mem_of_getElem? hcall', by rw [Coordinator.key_eq_of_header hheader, hkey]⟩
    · obtain ⟨i, peers, thrifty, rep, inner, rfl, hrep, hlock, hid, hstart⟩ := started_of_observe hv
      cases moves_of_step hstep with
      | propose hrun _ hstart' =>
          cases hrep.symm.trans hrun
          cases hstart.symm.trans hstart'
          refine ⟨_, List.mem_append_right _ (List.mem_singleton.mpr rfl), ?_⟩
          rw [key_propose, hid]
      | proposePanic hrun _ hnone =>
          cases hrep.symm.trans hrun
          cases hstart.symm.trans hnone
  origin v v' hv hv' := by
    have hnew {x y : Value} (hx : Event.started key x ∈ seen) (hy : Event.started key y ∈ observe rt s a) : x = y := by
      obtain ⟨i, peers, thrifty, rep, inner, ha, hrep, -, hid, hstart⟩ := started_of_observe hy
      obtain ⟨call, hcall, hkey⟩ := h.started x hx
      obtain ⟨-, -, -, hfresh⟩ := h.fresh hbegins ha hrep hstart (by rw [hid])
      exact absurd hkey (hfresh call hcall)
    rcases List.mem_append.mp hv with hv | hv
    · rcases List.mem_append.mp hv' with hv' | hv'
      · exact h.origin v v' hv hv'
      · exact hnew hv hv'
    · rcases List.mem_append.mp hv' with hv' | hv'
      · exact (hnew hv' hv).symm
      · obtain ⟨i, peers, thrifty, rep, inner, rfl, hrep, -, -, hstart⟩ := started_of_observe hv
        obtain ⟨i', peers', thrifty', rep', inner', ha, hrep', -, -, hstart'⟩ := started_of_observe hv'
        cases v
        cases v'
        cases ha
        cases hrep.symm.trans hrep'
        cases hstart.symm.trans hstart'
        rfl
  asked c call' hcall' hkey' j p hmem := by
    rcases h.viewed hok hstep hcall' hkey' with ⟨call, hcall, hkey, -, hview⟩ | ⟨rfl, hjoins⟩
    · obtain ⟨-, hinv⟩ := h.rounds c call hcall hkey
      obtain ⟨v, hv, hp⟩ := h.asked c call hcall hkey j p (hview.mem_track hinv.not_recovers hmem)
      exact ⟨v, List.mem_append_left _ hv, hp⟩
    · obtain ⟨v, hv, -, -, htrack⟩ := h.begun hok hbegins hstep hjoins hkey'
      exact ⟨v, hv, htrack j p hmem⟩
  rounds c call' hcall' hkey' := by
    rcases h.viewed hok hstep hcall' hkey' with ⟨call, hcall, hkey, hheader, hview⟩ | ⟨rfl, hjoins⟩
    · obtain ⟨hproposing, hinv⟩ := h.rounds c call hcall hkey
      rw [hheader]
      exact ⟨hproposing, (hinv.mono (List.subset_append_left ..)).step hproposing hview⟩
    · obtain ⟨-, -, hproposing, hinv, -⟩ := h.begun hok hbegins hstep hjoins hkey'
      exact ⟨hproposing, hinv⟩

theorem rounds_init (n : Nat) (key : Nat × Int) : Rounds n key [] (init n) where
  sound := meets_init fun _ hi => sound_new hi
  one c c' call call' hcall := by cases hcall
  taken call hcall := absurd hcall List.not_mem_nil
  started v hv := absurd hv List.not_mem_nil
  origin v v' hv := absurd hv List.not_mem_nil
  asked c call hcall := by cases hcall
  rounds c call hcall := by cases hcall

/-- The proposal of an instance, after any run of the normal path. -/
theorem rounds_run {acts : List Act} (hslots : rt.checked = true ∨ ∀ i, proposals i acts ≤ 2 ^ 31)
    (hnormal : Transition.Within (Epaxos.step rt) (Normal n key) (init n) acts)
    (hrun : Transition.run (Epaxos.step rt) (init n) acts = some s) :
    Rounds n key (Transition.trace (Epaxos.step rt) (observe rt) (init n) acts) s := by
  have hbegins : Transition.Within (Epaxos.step rt) (Begins (Targets False n)) (init n) acts :=
    begins_of_proposals hslots False.elim
  have hrounds := Transition.run_invariant_trace (P := Rounds n key)
    (fun _ _ _ _ h hok hstep => Rounds.step h hok.1 hok.2 hstep) (rounds_init n key) (hnormal.and hbegins) hrun
  rwa [List.nil_append] at hrounds

end Simulation

/-! ### Commits -/

/-- What stands behind the commit of an instance with the value `v`: on the fast path every peer has recorded
it, with the attributes the leader started with; on the slow path `n / 2` peers have accepted it. It is at least
what the leader started with and what every counted reply said. -/
structure Quorate (n : Nat) (seen : List Event) (s : State) (key : Nat × Int) (orig v : Value) (fastPath : Bool) :
    Prop where
  started : ∀ x, Event.started key x ∈ seen ↔ x = orig
  cmds_eq : v.cmds = orig.cmds
  fast : fastPath = true → v = orig ∧
    ∀ j < n, j ≠ key.1 → ∃ inst, s.record? j key = some inst ∧ inst.value = v
  slow : fastPath = false → ∃ counted : List Nat, counted.Nodup ∧ n / 2 ≤ counted.length ∧
    ∀ j ∈ counted, j < n ∧ j ≠ key.1 ∧ Accepted v (s.record? j key)
  seq_le : orig.seq ≤ v.seq
  deps_le : List.Forall₂ (· ≤ ·) orig.deps v.deps
  replies : ∃ replies, Event.decided key replies v fastPath ∈ seen ∧ n / 2 ≤ replies.length ∧
    ∀ r ∈ replies, r.seq ≤ v.seq ∧ List.Forall₂ (· ≤ ·) r.deps v.deps

theorem Rounds.quorate {n : Nat} {key : Nat × Int} {seen : List Event} {s : State} (h : Rounds n key seen s)
    {c : Nat} {call : Coordinator} (hcall : s.calls[c]? = some call) (hkey : call.key = key) {v : Value}
    {fastPath : Bool} (hphase : call.phase = .committing v fastPath) :
    ∃ orig, Quorate n seen s key orig v fastPath := by
  obtain ⟨hproposing, hinv⟩ := h.rounds c call hcall hkey
  have hview : (s.view c call).phase = .committing v fastPath := hphase
  rw [View.Inv, hview] at hinv
  obtain ⟨⟨orig, hstarted, replies, hdecided, hdecides, -⟩, hbacked⟩ := hinv
  subst hkey
  have hhome : call.key.1 = call.home := hproposing.replica_eq
  have hpeer {j : Nat} : j ∈ call.peers ↔ j < n ∧ j ≠ call.key.1 := by
    rw [hhome]
    exact hproposing.mem_peers j
  refine ⟨orig, fun x => ⟨fun hx => h.origin x orig hx hstarted, fun hx => hx ▸ hstarted⟩, hdecides.cmds_eq,
    fun htrue => ⟨hdecides.fast htrue, fun j hj hne => ?_⟩, fun hfalse => ?_, hdecides.seq_le, hdecides.deps_le,
    replies, hdecided, hdecides.quorum, fun r hr => ⟨hdecides.reply_seq_le r hr, hdecides.reply_deps_le r hr⟩⟩
  · subst htrue
    exact (hbacked j (hpeer.mpr ⟨hj, hne⟩)).2
  · subst hfalse
    obtain ⟨counted, hnodup, hquorum, hcounted⟩ := hbacked
    refine ⟨counted, hnodup, hquorum, fun j hj => ?_⟩
    obtain ⟨hmem, -, haccepted⟩ := hcounted j hj
    exact ⟨(hpeer.mp hmem).1, (hpeer.mp hmem).2, haccepted⟩

/-- In every run of the normal path in which the slot counters do not wrap around, a commit is backed by a
quorum at the moment `commit_local` is due. -/
theorem commit_backed {rt : Runtime} {n : Nat} {acts : List Act} {s : State}
    (hslots : rt.checked = true ∨ ∀ i, proposals i acts ≤ 2 ^ 31)
    (hrun : Transition.run (step rt) (init n) acts = some s) {c : Nat} {call : Coordinator}
    (hcall : s.calls[c]? = some call) {v : Value} {fastPath : Bool} (hphase : call.phase = .committing v fastPath)
    (hnormal : Transition.Within (step rt) (Normal n call.key) (init n) acts) :
    ∃ orig, Quorate n (Transition.trace (step rt) (observe rt) (init n) acts) s call.key orig v fastPath :=
  (rounds_run hslots hnormal hrun).quorate hcall rfl hphase

/-- The peer has a proposal of its own on the key: the first reply sends the call on the slow path. -/
def contestedProposal : List Act :=
  [.propose 0 [putX] [1, 2] false, .propose 1 [putX] [0, 2] false, .enqueue 0 0, .deliver 0 1, .receive 0 1,
    .enqueue 0 1, .deliver 0 1, .receive 0 1]

theorem commit_backed_contestedProposal : ∃ s orig,
    Transition.run (step plainRuntime) (init 3) contestedProposal = some s ∧
      Quorate 3 (Transition.trace (step plainRuntime) (observe plainRuntime) (init 3) contestedProposal) s (0, 0) orig
        ⟨[putX], 2, [-1, 0, -1]⟩ false := by
  obtain ⟨s, hrun⟩ : ∃ s, Transition.run (step plainRuntime) (init 3) contestedProposal = some s := ⟨_, rfl⟩
  obtain ⟨call, hcall, heq⟩ := Transition.exists_of_run_map (f := fun s : State => s.calls[0]?)
    (g := fun call => (call.key, call.phase)) rfl hrun
  obtain ⟨hkey, hphase⟩ := Prod.mk.inj heq
  have hothers (i : Nat) (hi : i < 2) (j : Nat) : j ∈ [1 - i, 2] ↔ j < 3 ∧ j ≠ i := by
    simp only [List.mem_cons, List.not_mem_nil, or_false]
    omega
  have hnormal : Transition.Within (step plainRuntime) (Normal 3 call.key) (init 3) contestedProposal := by
    refine Transition.within_cons rfl ⟨by decide, hothers 0 (by decide)⟩ ?_
    refine Transition.within_cons rfl ⟨by decide, hothers 1 (by decide)⟩ ?_
    refine Transition.within_cons rfl (fun _ _ _ _ k hk => absurd hk (Nat.not_lt_zero k)) ?_
    refine Transition.within_cons rfl trivial (Transition.within_cons rfl trivial ?_)
    refine Transition.within_cons rfl ?_
      (Transition.within_cons rfl trivial (Transition.within_cons rfl trivial trivial))
    rintro other e hother he k hk e' he'
    cases hother
    cases he
    cases Nat.lt_one_iff.mp hk
    cases he'
    decide
  obtain ⟨orig, hquorate⟩ := commit_backed (Or.inl rfl) hrun hcall hphase hnormal
  rw [hkey] at hquorate
  exact ⟨s, orig, hrun, hquorate⟩

/-! ### A slot that is used again -/

def putY : Command := ⟨1, "y", "1"⟩

/-- A proposal that has its quorum on the fast path. -/
def fastProposal : List Act := [.propose 0 [putX] [1] false, .enqueue 0 0, .deliver 0 1, .receive 0 1]

/-- The commit of a proposal is due when the slot counter has gone around once, and the slot is used again. -/
def reusedSlot : List Act :=
  fastProposal ++ (flood 0 [1] (2 ^ 32 - 1) ++ [.propose 0 [putY] [1] false, .enqueue (2 ^ 32) 0, .deliver 0 1])

/-- A proposal with one peer, up to the delivery of its PreAccept. -/
theorem run_preAccept {rt : Runtime} {s : State} {i j : Nat} {rep rep' : Replica} {cmds : List Command}
    {inner : ReplicaInner} {slot seq : Int} {deps : List Int} (hne : i ≠ j) (hrep : s.running? i = some rep)
    (hid : rep.inner.id = i) (hlock : rep.poisoned = false)
    (hstart : rep.inner.startProposal rt cmds = some (inner, slot, seq, deps)) (hqueue : s.requests (i, j) = [])
    (hrep' : s.running? j = some rep') :
    ∃ t, Transition.run (step rt) s [.propose i cmds [j] false, .enqueue s.calls.length 0, .deliver i j] = some t ∧
      (∀ (c : Nat) (call : Coordinator), s.calls[c]? = some call → t.calls[c]? = some call) ∧
      t.replicas[j]? = some (rep'.serve rt (.preAccept (preAcceptOf (i, slot) ⟨cmds, seq, deps⟩))).1 := by
  obtain ⟨t, hpropose, hcalls, hrequests, hreplicas⟩ : ∃ t, step rt s (.propose i cmds [j] false) = some t ∧
      t.calls = s.calls ++ [Coordinator.propose rep.inner.id cmds [j] false slot seq deps] ∧
      t.requests = s.requests ∧ t.replicas = s.replicas.set i { rep with inner := inner } :=
    ⟨_, step_of_moves (.propose hrep hlock hstart), rfl, rfl, rfl⟩
  rw [hid] at hcalls
  have hset : t.replicas[i]? = some { rep with inner := inner } := by
    rw [hreplicas]
    exact ListUpdate.getElem?_set_of_some (State.running?_eq_some hrep)
  have hcall : t.call? s.calls.length = some (Coordinator.propose i cmds [j] false slot seq deps) := by
    have hrun : t.running? i = some { rep with inner := inner } :=
      State.running?_of_getElem? hset (State.stopped_of_running? hrep :)
    exact State.call?_of_running? (by rw [hcalls, List.getElem?_concat_length]) hrun
  obtain ⟨u, henqueue, hcalls', hrequests', hreplicas'⟩ : ∃ u, step rt t (.enqueue s.calls.length 0) = some u ∧
      (∀ c, c ≠ s.calls.length → u.calls[c]? = t.calls[c]?) ∧
      u.requests (i, j) = t.requests (i, j) ++
        [(s.calls.length, .preAccept (preAcceptOf (i, slot) ⟨cmds, seq, deps⟩))] ∧ u.replicas = t.replicas := by
    refine ⟨_, step_of_moves (.enqueue hcall rfl), fun c hc => ?_, Function.update_self .., rfl⟩
    exact List.getElem?_set_ne (Ne.symm hc)
  rw [hrequests, hqueue, List.nil_append] at hrequests'
  have hrun : u.running? j = some rep' := by
    refine State.running?_of_getElem? ?_ (State.stopped_of_running? hrep')
    rw [hreplicas', hreplicas, List.getElem?_set_ne hne]
    exact State.running?_eq_some hrep'
  refine ⟨_, Transition.run_cons_eq_some.mpr ⟨t, hpropose, Transition.run_cons_eq_some.mpr ⟨u, henqueue,
    Transition.run_cons_eq_some.mpr ⟨_, step_of_moves (.deliver hrequests' hrun), rfl⟩⟩⟩, fun c call hc => ?_, ?_⟩
  · have hlt := (List.getElem?_eq_some_iff.mp hc).1
    show u.calls[c]? = some call
    rw [hcalls' c (by omega), hcalls]
    exact ListUpdate.getElem?_append_of_some hc _
  · exact ListUpdate.getElem?_set_of_some (State.running?_eq_some hrun)

theorem within_flood {rt : Runtime} {key : Nat × Int} (s : State) (k : Nat) :
    Transition.Within (step rt) (Normal 2 key) s (flood 0 [1] k) := by
  have hact : Transition.Within (step rt) (fun _ a => a = .propose 0 [] [1] false) s (flood 0 [1] k) :=
    Transition.within_of_forall fun a ha => (List.mem_replicate.mp ha).2
  refine hact.imp fun s a ha => ?_
  subst ha
  refine ⟨by decide, fun j => ?_⟩
  simp only [List.mem_cons, List.not_mem_nil, or_false]
  omega

theorem not_backed_reusedSlot : ∃ s call,
    Transition.run (step wrappingRuntime) (init 2) reusedSlot = some s ∧
      Transition.Within (step wrappingRuntime) (Normal 2 (0, 0)) (init 2) reusedSlot ∧
      s.calls[0]? = some call ∧ call.key = (0, 0) ∧ call.phase = .committing ⟨[putX], 1, [-1, -1]⟩ true ∧
      ¬∃ orig, Quorate 2 (Transition.trace (step wrappingRuntime) (observe wrappingRuntime) (init 2) reusedSlot) s
        (0, 0) orig ⟨[putX], 1, [-1, -1]⟩ true := by
  -- the state in which the commit is due
  obtain ⟨s, rep, rep', call, inner, hrun, hrep, hlock, hid, hcur, hstart, hcalls, hkey, hphase, hrequests, hrep',
      hrecord⟩ :
      ∃ s rep rep' call inner, Transition.run (step wrappingRuntime) (init 2) fastProposal = some s ∧
        s.running? 0 = some rep ∧ rep.poisoned = false ∧ (rep.inner.id = 0 ∧ rep.inner.n = 2) ∧
        rep.inner.curSlot = 1 ∧
        ReplicaInner.startProposal wrappingRuntime { rep.inner with curSlot := 0 } [putY] =
          some (inner, 0, 1, [-1, -1]) ∧
        s.calls = [call] ∧ call.key = (0, 0) ∧ call.phase = .committing ⟨[putX], 1, [-1, -1]⟩ true ∧
        s.requests (0, 1) = [] ∧ s.running? 1 = some rep' ∧
        ((rep'.serve wrappingRuntime (.preAccept (preAcceptOf (0, 0) ⟨[putY], 1, [-1, -1]⟩))).1.inner.record? 0
          0).map Instance.cmds = some [putY] :=
    ⟨_, _, _, _, _, rfl, rfl, rfl, ⟨rfl, rfl⟩, rfl, rfl, rfl, rfl, rfl, rfl, rfl, rfl⟩
  have hrt : wrappingRuntime.checked = false := rfl
  obtain ⟨more, hlength, hflood⟩ := run_flood hrt hrep hlock (by rw [hid.1, hid.2]; decide)
    (by rw [hcur]; decide) [1] (2 ^ 32 - 1)
  have hzero : wrapped (rep.inner.curSlot + ((2 ^ 32 - 1 : Nat) : Int)) = 0 := by
    rw [hcur]
    decide
  rw [hzero] at hflood
  obtain ⟨u, hlast, hcalls', hreplica⟩ := run_preAccept (j := 1) (by decide) (running?_flooded hrep 0 more) hid.1 hlock
    hstart hrequests (by
      refine State.running?_of_getElem? ?_ (State.stopped_of_running? hrep')
      exact (List.getElem?_set_ne (by decide)).trans (State.running?_eq_some hrep'))
  have hsize : (s.flooded 0 rep 0 more).calls.length = 2 ^ 32 := by
    show (s.calls ++ more).length = _
    rw [List.length_append, hcalls, hlength, List.length_singleton]
    omega
  rw [hsize] at hlast
  have hreused : Transition.run (step wrappingRuntime) (init 2) reusedSlot = some u :=
    Transition.run_append_eq_some.mpr ⟨s, hrun, Transition.run_append_eq_some.mpr ⟨_, hflood, hlast⟩⟩
  refine ⟨u, call, hreused, ?_, ?_, hkey, hphase, ?_⟩
  · have hothers (j : Nat) : j ∈ [1] ↔ j < 2 ∧ j ≠ 0 := by
      simp only [List.mem_cons, List.not_mem_nil, or_false]
      omega
    have hfast : Transition.Within (step wrappingRuntime) (Normal 2 (0, 0)) (init 2) fastProposal := by
      refine Transition.within_cons rfl ⟨by decide, hothers⟩ ?_
      refine Transition.within_cons rfl (fun _ _ _ _ k hk => absurd hk (Nat.not_lt_zero k)) ?_
      exact Transition.within_cons rfl trivial (Transition.within_cons rfl trivial trivial)
    refine Transition.within_append hrun hfast (Transition.within_append hflood (within_flood s _) ?_)
    refine ⟨⟨by decide, hothers⟩, fun _ _ => ⟨fun _ _ _ _ k hk => absurd hk (Nat.not_lt_zero k), fun _ _ => ?_⟩⟩
    exact ⟨trivial, fun _ _ => trivial⟩
  · exact hcalls' 0 call (by show (s.calls ++ more)[0]? = _; rw [hcalls]; rfl)
  · rintro ⟨orig, hquorate⟩
    obtain ⟨inst, hinst, hvalue⟩ := (hquorate.fast rfl).2 1 (by decide) (by decide)
    rw [State.record?, hreplica, Option.bind_some] at hinst
    have hcmds : some inst.cmds = some [putY] := by
      rw [← hrecord, ← Option.map_some (f := Instance.cmds), ← hinst]
    have hput : inst.cmds = [putX] := congrArg Value.cmds hvalue
    rw [hput] at hcmds
    exact absurd hcmds (by decide)

end Quorums.Epaxos
