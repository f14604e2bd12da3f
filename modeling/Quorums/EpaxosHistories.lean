import Quorums.BaseSchedule
import Quorums.EpaxosIdle
import Quorums.EpaxosOrdering

/-! The histories of the replicas on the normal path. An instance is decided once, when its PreAccept round
ends, so that all replicas apply the same batch for it; and each of them goes through one graph, that of the
decisions. The writes of a key come in one order: what a replica has done is the beginning of what another has
done, or the other way round. Every action of a run is taken under a runtime of its own, since each hash set has
an order of its own: no two runs of an executor have to list their sets in the same way. -/

namespace Quorums.Epaxos

open ReplicaInner Relation Components Transition

/-! ### One decision -/

/-- The PreAccept round. -/
def Phase.PreAccepts : Phase → Prop
  | .preAccepting _ _ _ _ => True
  | _ => False

/-- A decided instance is that of a call, and its PreAccept round is over. -/
structure State.Concluded (s : State) : Prop where
  called : ∀ key v, (key, v) ∈ s.decided → ∃ call ∈ s.calls, call.key = key
  ended : ∀ key v, (key, v) ∈ s.decided → ∀ call ∈ s.calls, call.key = key → ¬call.phase.PreAccepts

/-- A proposal fixes its value in the PreAccept round. -/
theorem preAccepts_of_fixes {call : Coordinator} {reply : Reply} {v : Value} (hnot : ¬call.phase.Recovers)
    (hv : (call.receive reply).2 = some v) : call.phase.PreAccepts := by
  cases reply with
  | preAccept r =>
      simp only [Coordinator.receive] at hv
      split at hv
      · rename_i hphase
        rw [hphase]
        exact trivial
      · cases hv
  | prepare r =>
      simp only [Coordinator.receive] at hv
      split at hv
      · rename_i hphase
        rw [hphase] at hnot
        exact absurd trivial hnot
      · cases hv
  | tryPreAccept r =>
      simp only [Coordinator.receive] at hv
      split at hv
      · split at hv <;> cases hv
      · cases hv
  | accept r =>
      simp only [Coordinator.receive] at hv
      split at hv
      · split at hv <;> cases hv
      · cases hv

/-- The machine does not go back to the PreAccept round. -/
theorem View.Step.preAccepts {n : Nat} {seen : List Event} {c : Coordinator} {w w' : View}
    (h : View.Step n seen c w w') (hnot : ¬w.phase.Recovers) (hphase : w'.phase.PreAccepts) :
    w.phase.PreAccepts := by
  cases h with
  | drift heq => rwa [← heq]
  | served out heq => rwa [← heq]
  | received hhead hreads =>
      generalize w.phase = before at hreads
      generalize w'.phase = after at hreads hphase
      cases hreads with
      | ignored => exact hphase
      | counted => trivial
      | fast | slow | more | enough => exact absurd hphase id
  | ended hover =>
      generalize w'.phase = after at hover hphase
      cases after with
      | preAccepting => exact absurd hover id
      | _ => exact absurd hphase id
  | foreign hrecovers => exact absurd hrecovers hnot

section Decisions

variable {rt : Runtime} {n : Nat} {acts : List Act} {seen : List Event} {s t : State} {a : Act} {key : Nat × Int}
  {v : Value}

/-- The value that a step fixes is the end of a PreAccept round. -/
theorem exists_of_fixes (hrounds : ∀ key, Rounds n key seen s) (hfixes : s.fixes a = some (key, v)) :
    ∃ i j c reply rest call, a = .receive i j ∧ s.replies (j, i) = (c, reply) :: rest ∧ s.calls[c]? = some call ∧
      call.key = key ∧ ¬call.phase.Recovers ∧ (call.receive reply).2 = some v := by
  cases a with
  | receive i j =>
      simp only [State.fixes] at hfixes
      split at hfixes
      · cases hfixes
      · rename_i c reply rest hqueue
        obtain ⟨call, hcall, hvalue⟩ := Option.bind_eq_some_iff.mp hfixes
        obtain ⟨w, hw, heq⟩ := Option.map_eq_some_iff.mp hvalue
        cases heq
        have hnot : ¬(s.view c call).phase.Recovers := ((hrounds call.key).rounds c call hcall rfl).2.not_recovers
        exact ⟨i, j, c, reply, rest, call, rfl, hqueue, hcall, rfl, hnot, hw⟩
  | _ => cases hfixes

/-- No instance is decided twice on the normal path. -/
theorem State.Concluded.alone (h : s.Concluded) (hrounds : ∀ key, Rounds n key seen s) : Alone s a := by
  intro key v hfixes w hw
  obtain ⟨i, j, c, reply, rest, call, rfl, -, hcall, hkey, hnot, hv⟩ := exists_of_fixes hrounds hfixes
  exact h.ended key w hw call (List.mem_of_getElem? hcall) hkey (preAccepts_of_fixes hnot hv)

theorem State.Concluded.step (h : s.Concluded) (hrounds : ∀ key, Rounds n key seen s)
    (hok : ∀ key, Normal n key s a) (hbegins : Begins (Targets False n) s a) (hstep : step rt s a = some t) :
    t.Concluded := by
  have hcases {key : Nat × Int} {v : Value} (hmem : (key, v) ∈ t.decided) :
      (key, v) ∈ s.decided ∨ s.fixes a = some (key, v) := by
    rw [decided_step hstep, List.mem_append, Option.mem_toList] at hmem
    exact hmem
  have hthere {key : Nat × Int} {v : Value} (hmem : (key, v) ∈ t.decided) : ∃ call ∈ s.calls, call.key = key := by
    rcases hcases hmem with hold | hfixes
    · exact h.called key v hold
    · obtain ⟨i, j, c, reply, rest, call, -, -, hcall, hkey, -⟩ := exists_of_fixes hrounds hfixes
      exact ⟨call, List.mem_of_getElem? hcall, hkey⟩
  constructor
  · intro key v hmem
    obtain ⟨call, hcall, hkey⟩ := hthere hmem
    obtain ⟨c, hc⟩ := List.mem_iff_getElem?.mp hcall
    obtain ⟨next, hnext, hheader, -⟩ := viewStep_of_step (hrounds key) (hok key) hstep hc hkey
    exact ⟨next, List.mem_of_getElem? hnext, by rw [Coordinator.key_eq_of_header hheader, hkey]⟩
  · intro key v hmem next hnextmem hnextkey hphase
    obtain ⟨c, hnext⟩ := List.mem_iff_getElem?.mp hnextmem
    rcases (hrounds key).viewed (hok key) hstep hnext hnextkey with ⟨call, hcall, hkey, -, hview⟩ | ⟨-, hjoins⟩
    · have hnot := ((hrounds key).rounds c call hcall hkey).2.not_recovers
      rcases hcases hmem with hold | hfixes
      · exact h.ended key v hold call (List.mem_of_getElem? hcall) hkey (hview.preAccepts hnot hphase)
      · -- the call that has fixed the value goes on with it
        obtain ⟨i, j, d, reply, rest, other, rfl, hqueue, hother, hotherkey, hothernot, hv⟩ :=
          exists_of_fixes hrounds hfixes
        obtain rfl := (hrounds key).one c d call other hcall hother hkey hotherkey
        cases moves_of_step hstep with
        | receive hqueue' hcall' =>
            cases hqueue.symm.trans hqueue'
            cases hother.symm.trans (State.call?_eq_some hcall')
            cases hnext.symm.trans (ListUpdate.getElem?_set_of_some hother)
            rcases phase_of_fixes hothernot hv with heq | heq
            · rw [heq] at hphase
              exact hphase
            · rw [heq] at hphase
              exact hphase
    · obtain ⟨call, hcall, hkey⟩ := hthere hmem
      obtain ⟨_, _, _, _, _, _, _, -, -, -, -, -, -, -, -, hfresh⟩ :=
        (hrounds key).joins (hok key) hbegins hjoins hnextkey
      exact hfresh call hcall hkey

theorem concluded_init (n : Nat) : (init n).Concluded where
  called _ _ hmem := absurd hmem List.not_mem_nil
  ended _ _ hmem := absurd hmem List.not_mem_nil

theorem nodup_decided_step (h : (s.decided.map Prod.fst).Nodup) (halone : Alone s a) (hstep : step rt s a = some t) :
    (t.decided.map Prod.fst).Nodup := by
  rw [decided_step hstep]
  cases hfixes : s.fixes a with
  | none =>
      rw [Option.toList_none, List.append_nil]
      exact h
  | some p =>
      rw [Option.toList_some, List.map_append, List.nodup_append]
      refine ⟨h, List.nodup_singleton _, ?_⟩
      rintro x hx y hy rfl
      obtain ⟨⟨key, w⟩, hw, rfl⟩ := List.mem_map.mp hx
      rw [List.map_singleton, List.mem_singleton] at hy
      exact halone p.1 p.2 hfixes w (hy ▸ hw)

theorem unique_of_nodup (h : (s.decided.map Prod.fst).Nodup) : s.Unique := fun _ _ _ hv hw =>
  congrArg Prod.snd (List.inj_on_of_nodup_map h hv hw rfl)

end Decisions

section Runs

variable {n : Nat} {acts : List (Runtime × Act)} {s t : State}

/-- On the normal path no instance is decided twice. -/
theorem nodup_decided_run (hslots : SlotsSuffice acts)
    (hnormal : Within (mixed step) (fun s x => ∀ key, Normal n key s x.2) (init n) acts)
    (hrun : run (mixed step) (init n) acts = some s) : (s.decided.map Prod.fst).Nodup := by
  have hbegins : Within (mixed step) (fun s x => Begins (Targets False n) s x.2) (init n) acts :=
    begins_of_slots hslots False.elim
  have hstart : (∀ key, Rounds n key [] (init n)) ∧ (init n).Concluded ∧ ((init n).decided.map Prod.fst).Nodup :=
    ⟨rounds_init n, concluded_init n, List.nodup_nil⟩
  have hkept : ∀ (seen : List Event) (s : State) (x : Runtime × Act) (t : State),
      (∀ key, Rounds n key seen s) ∧ s.Concluded ∧ (s.decided.map Prod.fst).Nodup →
      (∀ key, Normal n key s x.2) ∧ Begins (Targets False n) s x.2 → mixed step s x = some t →
      (∀ key, Rounds n key (seen ++ observe x.1 s x.2) t) ∧ t.Concluded ∧ (t.decided.map Prod.fst).Nodup := by
    rintro seen s ⟨rt, a⟩ t ⟨hrounds, hconcluded, hnodup⟩ ⟨hok, hbegins⟩ hstep
    refine ⟨fun key => (hrounds key).step (hok key) hbegins hstep, hconcluded.step hrounds hok hbegins hstep, ?_⟩
    exact nodup_decided_step hnodup (hconcluded.alone hrounds) hstep
  have hend := run_invariant_trace (P := fun seen s =>
    (∀ key, Rounds n key seen s) ∧ s.Concluded ∧ (s.decided.map Prod.fst).Nodup) hkept hstart (hnormal.and hbegins)
    hrun
  exact hend.2.2

/-- What is decided in a state of a run is decided in its end. -/
theorem decided_prefix_of_run (hrun : run (mixed step) s acts = some t) : s.decided <+: t.decided := by
  refine run_relation (R := fun s t : State => s.decided <+: t.decided) (fun _ => List.prefix_rfl)
    (fun _ _ _ => List.IsPrefix.trans) (fun s x t hstep => ?_) hrun
  obtain ⟨rt, a⟩ := x
  rw [decided_step hstep]
  exact List.prefix_append _ _

/-- In every run of the normal path in which the slot counters do not wrap around, no instance is decided twice,
and each has one value: in all states, every committed record, every Commit on its way and every call that has
returned carries it. -/
theorem agreement_of_normal {n : Nat} {acts : List (Runtime × Act)} {t : State} (hslots : SlotsSuffice acts)
    (hnormal : Within (mixed step) (fun s x => ∀ key, Normal n key s x.2) (init n) acts)
    (hrun : run (mixed step) (init n) acts = some t) :
    ∃ chosen : Nat × Int → Value, ∀ pre post s, acts = pre ++ post → run (mixed step) (init n) pre = some s →
      s.Carries chosen ∧ (s.decided.map Prod.fst).Nodup := by
  have hnodup := nodup_decided_run hslots hnormal hrun
  refine ⟨Decisions.chosen t.decided, fun pre post s hacts hpre => ?_⟩
  rw [hacts, run_append_eq_some] at hrun
  obtain ⟨s', hpre', hpost⟩ := hrun
  cases hpre.symm.trans hpre'
  have hinv : s.Inv := run_invariant (fun _ _ _ h hstep => inv_step h hstep) (inv_init n) hpre
  have hmore := decided_prefix_of_run hpost
  refine ⟨hinv.carries fun key v hv => ?_, hnodup.sublist (hmore.sublist.map _)⟩
  exact (unique_of_nodup hnodup).chosen_eq (hmore.subset hv)

end Runs

/-- All other replicas are the peers, nobody recovers, and requests are sent in their order. -/
theorem within_normal {n : Nat} {acts : List (Runtime × Act)} (h : ∀ x ∈ acts, x.2.Plain n) :
    Within (mixed step) (fun s x => ∀ key, Normal n key s x.2) (init n) acts :=
  (within_of_forall h).imp fun s _ hx key => hx.normal s key

theorem agreement_of_normal_bothCommit : ∃ t chosen,
    run (mixed step) (init 2) (bothCommit.map (Prod.mk plainRuntime)) = some t ∧ t.Carries chosen ∧
      t.decided.map Prod.fst = [(0, 0), (1, 0)] ∧ (t.decided.map Prod.fst).Nodup := by
  obtain ⟨t, hrun⟩ : ∃ t, run (mixed step) (init 2) (bothCommit.map (Prod.mk plainRuntime)) = some t := ⟨_, rfl⟩
  obtain ⟨chosen, hchosen⟩ := agreement_of_normal (slotsSuffice_of_one (Or.inl rfl)) (within_normal (by decide)) hrun
  obtain ⟨hcarries, hnodup⟩ := hchosen _ [] t (List.append_nil _).symm hrun
  exact ⟨t, chosen, hrun, hcarries, eq_of_run_map (f := fun s : State => s.decided.map Prod.fst) rfl hrun, hnodup⟩

/-! ### What a replica applies -/

namespace ReplicaInner

/-- The commit of an instance. With `skip`, a duplicate one is ignored. -/
def commitOn (rt : Runtime) (inner : ReplicaInner) (r : Nat) (slot : Int) (v : Value) (skip : Bool) :
    Option ReplicaInner := do
  let (inner, duplicate) ← recordCommit inner r slot v
  if duplicate && skip then return inner else inner.executeAllReady rt

/-- What the executor applies on it. -/
def appliedOn (rt : Runtime) (inner : ReplicaInner) (r : Nat) (slot : Int) (v : Value) (skip : Bool) : List Applied :=
  match recordCommit inner r slot v with
  | none => []
  | some (inner, duplicate) =>
      if duplicate && skip then []
      else ((inner.groups rt).map fun groups => inner.appliedBy groups.flatten).getD []

/-- Nothing is executed. -/
structure Still (inner inner' : ReplicaInner) : Prop where
  store_eq : inner'.store = inner.store
  executed : ∀ r s, inner'.isExecuted r s = inner.isExecuted r s

section Still

variable {rt : Runtime} {inner inner' : ReplicaInner}

theorem handleCommitInner_eq (rt : Runtime) (inner : ReplicaInner) (req : CommitRequest) :
    handleCommitInner rt inner req = inner.commitOn rt (asUsize req.replica) req.slot req.value true := by
  simp only [handleCommitInner, commitOn, Bool.and_true]

theorem commitLocal_eq (rt : Runtime) (inner : ReplicaInner) (r : Nat) (slot : Int) (v : Value) :
    commitLocal rt inner r slot v = inner.commitOn rt r slot v false := by
  simp only [commitLocal, commitOn, Bool.and_false, Bool.false_eq_true, if_false]

theorem Still.refl (inner : ReplicaInner) : Still inner inner := ⟨rfl, fun _ _ => rfl⟩

theorem Opens.still {r : Nat} {slot : Int} (h : Opens r slot inner inner') : Still inner inner' :=
  ⟨h.store_eq, h.executed⟩

end Still

end ReplicaInner

section Still

variable {rt : Runtime} {inner inner' : ReplicaInner}

theorem Settles.still {r : Nat} {slot : Int} {v : Value} {duplicate : Bool}
    (h : Settles inner r slot v inner' duplicate) : Still inner inner' := by
  cases h with
  | duplicate hopens => exact hopens.still
  | written hopens => exact ⟨hopens.store_eq, hopens.executed⟩

theorem still_startProposal {cmds : List Command} {slot seq : Int} {deps : List Int}
    (h : inner.startProposal rt cmds = some (inner', slot, seq, deps)) : Still inner inner' := by
  simp only [startProposal, Option.bind_eq_bind, Option.bind_eq_some_iff] at h
  obtain ⟨curSlot, -, attrs, -, conflicts, -, deps', -, heq⟩ := h
  cases heq
  exact ⟨rfl, fun _ _ => rfl⟩

theorem still_commitRemains (h : inner.Framed) (r : Nat) (slot : Int) (v : Value) :
    Still inner (commitRemains inner r slot v) := by
  rw [commitRemains]
  cases hrecord : recordCommit inner r slot v with
  | none => exact Still.refl inner
  | some p =>
      obtain ⟨-, -, hsettles⟩ := settles_of_recordCommit h hrecord
      exact hsettles.still

theorem still_remains (h : inner.Framed) (req : Request) : Still inner (remains inner req) := by
  cases req with
  | commit req => exact still_commitRemains h _ _ _
  | _ => exact Still.refl inner

/-- Only a Commit makes a replica execute something. -/
theorem still_handle (h : inner.Framed) {req : Request} {reply : Option Reply} (hnot : ∀ p, req ≠ .commit p)
    (hhandle : handle rt inner req = some (inner', reply)) : Still inner inner' := by
  cases req with
  | preAccept p =>
      obtain ⟨⟨served, r⟩, hinner, heq⟩ := Option.map_eq_some_iff.mp hhandle
      cases heq
      simp only [handlePreAcceptInner, Option.bind_eq_bind, Option.bind_eq_some_iff] at hinner
      obtain ⟨opened, hopened, attrs, -, deps, -, conflicts, -, hresult⟩ := hinner
      cases hresult
      have hstill := (opens_of_ensureSlot h hopened).still
      exact ⟨hstill.store_eq, hstill.executed⟩
  | accept p =>
      obtain ⟨⟨served, r⟩, hinner, heq⟩ := Option.map_eq_some_iff.mp hhandle
      cases heq
      simp only [handleAcceptInner, Option.bind_eq_bind, Option.bind_eq_some_iff] at hinner
      obtain ⟨opened, hopened, hresult⟩ := hinner
      cases hresult
      have hstill := (opens_of_ensureSlot h hopened).still
      exact ⟨hstill.store_eq, hstill.executed⟩
  | commit p => exact absurd rfl (hnot p)
  | prepare p =>
      cases hhandle
      exact Still.refl inner
  | tryPreAccept p =>
      obtain ⟨r, -, heq⟩ := Option.map_eq_some_iff.mp hhandle
      cases heq
      exact Still.refl inner

/-- A commit that panics applies nothing. -/
theorem appliedOn_of_none {r : Nat} {slot : Int} {v : Value} {skip : Bool}
    (h : inner.commitOn rt r slot v skip = none) : inner.appliedOn rt r slot v skip = [] := by
  rw [commitOn] at h
  rw [appliedOn]
  cases hrecord : recordCommit inner r slot v with
  | none => rfl
  | some p =>
      simp only [hrecord, Option.bind_eq_bind, Option.bind_some] at h
      dsimp only
      split
      · rfl
      · rename_i hskip
        rw [if_neg hskip, executeAllReady_eq, Option.map_eq_none_iff] at h
        rw [h]
        rfl

end Still

/-- The replica `i`, when its process is there and its lock is not poisoned. -/
def State.unlocked? (s : State) (i : Nat) : Option ReplicaInner :=
  (s.running? i).bind fun rep => if rep.poisoned then none else some rep.inner

/-- What the replica `i` applies when an action is taken in the state `s`. -/
def applied (rt : Runtime) (i : Nat) (s : State) : Act → List Applied
  | .deliver j k =>
      if k = i then
        match s.requests (j, k), s.unlocked? k with
        | (_, .commit req) :: _, some inner => inner.appliedOn rt (asUsize req.replica) req.slot req.value true
        | _, _ => []
      else []
  | .commit c =>
      match s.call? c with
      | some call =>
          if call.home = i then
            match call.phase, s.unlocked? call.home with
            | .committing v _, some inner => inner.appliedOn rt call.replica call.slot v false
            | _, _ => []
          else []
      | none => []
  | _ => []

/-- What becomes of a replica in a step, with what it applies. -/
inductive Advances (rt : Runtime) (n : Nat) (s : State) (inner inner' : ReplicaInner) : List Applied → Prop where
  | still (hstill : Still inner inner') : Advances rt n s inner inner' []
  | committed {r : Nat} {slot : Int} {v : Value} {skip : Bool} (hdecided : ((r, slot), v) ∈ s.decided)
      (hdeps : Valid n (r, slot) → DepsFor n (r, slot) v.deps)
      (hcommit : inner.commitOn rt r slot v skip = some inner') :
      Advances rt n s inner inner' (inner.appliedOn rt r slot v skip)

section Advances

variable {rt : Runtime} {n : Nat} {s t : State} {a : Act}

theorem State.unlocked?_of_running? {i : Nat} {rep : Replica} (hrep : s.running? i = some rep)
    (hlock : rep.poisoned = false) : s.unlocked? i = some rep.inner := by
  rw [State.unlocked?, hrep, Option.bind_some, hlock]
  rfl

theorem State.unlocked?_of_poisoned {i : Nat} {rep : Replica} (hrep : s.running? i = some rep)
    (hlock : rep.poisoned = true) : s.unlocked? i = none := by
  rw [State.unlocked?, hrep, Option.bind_some, hlock]
  rfl

/-- A request is handled. -/
theorem advances_deliver (hinv : s.Inv) (hsound : s.Meets (wellFormedLocal False n)) {i j c : Nat} {req : Request}
    {rest : List (Nat × Request)} {rep : Replica} (hqueue : s.requests (j, i) = (c, req) :: rest)
    (hrep : s.running? i = some rep) :
    Advances rt n s rep.inner (rep.serve rt req).1.inner (applied rt i s (.deliver j i)) := by
  have hframed : rep.inner.Framed := (hsound.replicas i rep (State.running?_eq_some hrep)).shaped.framed
  simp only [applied, if_true, hqueue]
  cases hlock : rep.poisoned with
  | true =>
      rw [State.unlocked?_of_poisoned hrep hlock, Replica.serve, if_pos hlock]
      cases req <;> exact .still (Still.refl _)
  | false =>
      rw [State.unlocked?_of_running? hrep hlock, serve_eq_of_lock hlock]
      by_cases hcommit : ∃ p, req = .commit p
      · obtain ⟨p, rfl⟩ := hcommit
        have hhandle : handle rt rep.inner (.commit p) =
            (rep.inner.commitOn rt (asUsize p.replica) p.slot p.value true).map fun inner => (inner, none) := by
          rw [← handleCommitInner_eq]
          rfl
        rw [hhandle]
        dsimp only
        cases hresult : rep.inner.commitOn rt (asUsize p.replica) p.slot p.value true with
        | none =>
            rw [appliedOn_of_none hresult]
            exact .still (still_remains hframed (.commit p))
        | some inner' =>
            have hmem : (c, Request.commit p) ∈ s.requests (j, i) := by
              rw [hqueue]
              exact List.mem_cons_self
            obtain ⟨call, -, hfor⟩ := hinv.requests (j, i) _ hmem
            obtain ⟨call', -, -, hreq⟩ := hsound.requests j i _ hmem
            have hkey : (asUsize p.replica, p.slot) = call'.key := Request.Sound.key_eq hreq
            refine .committed (hfor.written _ rfl) (fun hvalid => ?_) hresult
            rw [hkey] at hvalid ⊢
            exact Request.Sound.deps hreq hvalid _ rfl
      · have hnot : ∀ p, req ≠ .commit p := fun p hp => hcommit ⟨p, hp⟩
        have hnone : (match (c, req) :: rest, some rep.inner with
            | (_, .commit req) :: _, some inner => inner.appliedOn rt (asUsize req.replica) req.slot req.value true
            | _, _ => []) = ([] : List Applied) := by
          cases req with
          | commit p => exact absurd rfl (hnot p)
          | _ => rfl
        rw [hnone]
        cases hhandle : handle rt rep.inner req with
        | none => exact .still (still_remains hframed req)
        | some p => exact .still (still_handle hframed hnot hhandle)

/-- A call commits on its own replica. -/
theorem advances_commit (hinv : s.Inv) (hsound : s.Meets (wellFormedLocal False n)) {c : Nat} {call : Coordinator}
    {v : Value} {fastPath : Bool} {rep : Replica} {inner' : ReplicaInner} (hcall : s.call? c = some call)
    (hphase : call.phase = .committing v fastPath) (hrep : s.running? call.home = some rep)
    (hlock : rep.poisoned = false)
    (hinner' : commitLocal rt rep.inner call.replica call.slot v = some inner' ∨
      commitLocal rt rep.inner call.replica call.slot v = none ∧
        inner' = commitRemains rep.inner call.replica call.slot v) :
    Advances rt n s rep.inner inner' (applied rt call.home s (.commit c)) := by
  have hmem := List.mem_of_getElem? (State.call?_eq_some hcall)
  simp only [applied, hcall, if_true, hphase, State.unlocked?_of_running? hrep hlock]
  rw [commitLocal_eq] at hinner'
  rcases hinner' with hresult | ⟨hnone, rfl⟩
  · have hdeps : Valid n call.key → DepsFor n call.key v.deps := by
      have hcallsound := (hsound.calls call hmem).phase
      rwa [hphase] at hcallsound
    exact .committed ((hinv.calls call hmem).decided_of_committing hphase) hdeps hresult
  · rw [appliedOn_of_none hnone]
    exact .still (still_commitRemains (hsound.replicas _ rep (State.running?_eq_some hrep)).shaped.framed _ _ _)

theorem advances_of_step (hinv : s.Inv) (hsound : s.Meets (wellFormedLocal False n)) (hstep : step rt s a = some t)
    {i : Nat} {rep' : Replica} (hrep' : t.replicas[i]? = some rep') :
    ∃ rep, s.replicas[i]? = some rep ∧ Advances rt n s rep.inner rep'.inner (applied rt i s a) := by
  -- another replica, or none, has moved
  have hsame (hnone : applied rt i s a = []) (hmem : s.replicas[i]? = some rep') :
      ∃ rep, s.replicas[i]? = some rep ∧ Advances rt n s rep.inner rep'.inner (applied rt i s a) := by
    rw [hnone]
    exact ⟨rep', hmem, .still (Still.refl _)⟩
  have hset {k : Nat} {old new : Replica} (hold : s.replicas[k]? = some old)
      (hadvances : Advances rt n s old.inner new.inner (applied rt k s a))
      (hother : k ≠ i → applied rt i s a = []) (hmem : (s.replicas.set k new)[i]? = some rep') :
      ∃ rep, s.replicas[i]? = some rep ∧ Advances rt n s rep.inner rep'.inner (applied rt i s a) := by
    rcases ListUpdate.getElem?_set_cases hmem with ⟨rfl, rfl⟩ | ⟨hne, hmem⟩
    · exact ⟨old, hold, hadvances⟩
    · exact hsame (hother (Ne.symm hne)) hmem
  cases moves_of_step hstep with
  | propose hrep hlock hstart =>
      exact hset (State.running?_eq_some hrep) (.still (still_startProposal hstart)) (fun _ => rfl) hrep'
  | proposePanic hrep =>
      refine hset (State.running?_eq_some hrep) ?_ (fun _ => rfl) hrep'
      exact .still (Still.refl _)
  | @deliver j k c req rest rep hqueue hrep =>
      refine hset (State.running?_eq_some hrep) (advances_deliver hinv hsound hqueue hrep) (fun hne => ?_) hrep'
      rw [applied, if_neg hne]
  | @commit c call v fastPath rep inner hcall hphase hrep hlock hcommit =>
      refine hset (State.running?_eq_some hrep)
        (advances_commit hinv hsound hcall hphase hrep hlock (Or.inl hcommit)) (fun hne => ?_) hrep'
      simp only [applied, hcall, if_neg hne]
  | @commitPanic c call v fastPath rep hcall hphase hrep hlock hcommit =>
      refine hset (State.running?_eq_some hrep)
        (advances_commit hinv hsound hcall hphase hrep hlock (Or.inr ⟨hcommit, rfl⟩)) (fun hne => ?_) hrep'
      simp only [applied, hcall, if_neg hne]
  | @commitPoisoned c call v fastPath rep hcall hphase hrep hlock =>
      refine hsame ?_ hrep'
      simp only [applied, hcall, hphase, State.unlocked?_of_poisoned hrep hlock, ite_self]
  | stop hrep =>
      refine hset hrep ?_ (fun _ => rfl) hrep'
      exact .still (Still.refl _)
  | _ => exact hsame rfl hrep'

end Advances

/-! ### The order in which it applies them -/

/-- Each instance has at most one decision. -/
def Decisions.Single (decided : Decisions) : Prop := ∀ key v, (key, v) ∈ decided → decided.chosen key = v

/-- The graph of the decisions. -/
def Decisions.Depends (decided : Decisions) (a b : Nat × Int) : Prop :=
  (decided.chosen a).deps[b.1]? = some b.2 ∧ 0 ≤ b.2

def Decisions.seqOf (decided : Decisions) (key : Nat × Int) : Int := (decided.chosen key).seq

/-- What a replica has applied: batches that were decided, one for each instance, and all together a schedule of
the graph. -/
structure Ran (decided : Decisions) (n id : Nat) (applied : List Applied) (inner : ReplicaInner) : Prop
    extends AppliedInv id n inner applied where
  values : ∀ a ∈ applied, (a.key, a.record.value) ∈ decided
  valid : ∀ a ∈ applied, Valid n a.key
  deps : ∀ a ∈ applied, DepsFor n a.key a.record.deps
  blocks : ∃ blocks, blocks.flatten = applied.map Applied.key ∧
    Schedule decided.Depends decided.seqOf blocks

/-- The committed records were decided. -/
def Agrees (decided : Decisions) (inner : ReplicaInner) : Prop :=
  ∀ r s inst, inner.instance? r s = some inst → inst.status = .committed → ((r, (s : Int)), inst.value) ∈ decided

section Ran

variable {rt : Runtime} {decided : Decisions} {n id : Nat} {applied : List Applied} {inner inner' : ReplicaInner}
  {nodes : List (Nat × Int)} {groups : List (List (Nat × Int))}

theorem Agrees.exists_record (h : Agrees decided inner) {a : Nat × Int} (hlive : inner.Live a) :
    ∃ inst, inner.recordOf a = some inst ∧ (a, inst.value) ∈ decided := by
  obtain ⟨hnonneg, -, inst, hrecord, hstatus⟩ := hlive
  refine ⟨inst, hrecord, ?_⟩
  have hvalue := h _ _ inst hrecord hstatus
  rwa [Int.toNat_of_nonneg hnonneg] at hvalue

theorem Agrees.dependsOn_iff (h : Agrees decided inner) (hone : decided.Single) {a : Nat × Int} (hlive : inner.Live a)
    (b : Nat × Int) : inner.DependsOn a b ↔ decided.Depends a b := by
  obtain ⟨inst, hrecord, hvalue⟩ := h.exists_record hlive
  have hdeps : (decided.chosen a).deps = inst.deps := congrArg Value.deps (hone a _ hvalue)
  constructor
  · rintro ⟨inst', hrecord', hdep, hnonneg⟩
    cases hrecord.symm.trans hrecord'
    exact ⟨by rw [hdeps]; exact hdep, hnonneg⟩
  · rintro ⟨hdep, hnonneg⟩
    exact ⟨inst, hrecord, by rw [← hdeps]; exact hdep, hnonneg⟩

theorem Agrees.seqOf_eq (h : Agrees decided inner) (hone : decided.Single) {a : Nat × Int} (hlive : inner.Live a) :
    inner.seqOf a = decided.seqOf a := by
  obtain ⟨inst, hrecord, hvalue⟩ := h.exists_record hlive
  rw [ReplicaInner.seqOf, show inner.instance? a.1 a.2.toNat = some inst from hrecord, Decisions.seqOf,
    hone a _ hvalue]
  rfl

theorem ran_new (decided : Decisions) (n id : Nat) : Ran decided n id [] (ReplicaInner.new id n) where
  toAppliedInv := appliedInv_new id n
  values _ ha := absurd ha List.not_mem_nil
  valid _ ha := absurd ha List.not_mem_nil
  deps _ ha := absurd ha List.not_mem_nil
  blocks := ⟨[], rfl, Schedule.nil _ _⟩

theorem Ran.still (h : Ran decided n id applied inner) (hstill : Still inner inner') (hsound : Sound n id inner') :
    Ran decided n id applied inner' := by
  have hn : inner'.n = inner.n := hsound.n_eq.trans h.n_eq.symm
  exact ⟨h.toAppliedInv.of_eq hsound.shaped hn hstill.store_eq hstill.executed, h.values, h.valid, h.deps, h.blocks⟩

/-- A run of the executor goes on with the schedule. -/
theorem Ran.schedule (h : Ran decided n id applied inner) (hone : decided.Single) (hagrees : Agrees decided inner)
    (hruns : Runs rt inner nodes groups) : ∃ blocks,
      blocks.flatten = (applied ++ groups.flatten.map inner.appliedFrom).map Applied.key ∧
        Schedule decided.Depends decided.seqOf blocks := by
  obtain ⟨blocks, hflatten, hschedule⟩ := h.blocks
  have hready {a : Nat × Int} (ha : a ∈ nodes) : inner.Ready a := (hruns.ready a).mp ha
  have hdone (a : Nat × Int) : inner.Done a ↔ a ∈ blocks.flatten := by
    rw [hflatten]
    exact h.done a
  refine ⟨blocks ++ groups, ?_, hschedule.append hruns.scc hruns.nodup (fun a ha hmem => ?_) (fun a b hab => ?_)
    (fun a ha b hab => ?_) fun group hgroup => ?_⟩
  · rw [List.flatten_append, List.map_append, hflatten, List.map_map]
    exact congrArg _ (List.map_id _).symm
  · exact not_done_of_live (hready ha).1 ((hdone a).mpr hmem)
  · exact (hagrees.dependsOn_iff hone hab.1 b).mp hab.2.2
  · have hdep := (hagrees.dependsOn_iff hone (hready ha).1 b).mpr hab
    rcases (hready ha).needs ⟨(hready ha).1, hdep⟩ with hb | hb
    · exact Or.inl ((hdone b).mp hb)
    · exact Or.inr ⟨(hruns.ready b).mpr hb, (hready ha).1, hb.1, hdep⟩
  · refine (hruns.sorted group hgroup).imp_of_mem fun {a b} ha hb hle => ?_
    rwa [hagrees.seqOf_eq hone (hready (hruns.scc.mem_nodes hgroup ha)).1,
      hagrees.seqOf_eq hone (hready (hruns.scc.mem_nodes hgroup hb)).1] at hle

theorem Ran.execute (h : Ran decided n id applied inner) (hrt : rt.Faithful) (hone : decided.Single)
    (hagrees : Agrees decided inner) (hsound : Sound n id inner) (hresult : inner.executeAllReady rt = some inner') :
    Ran decided n id
      (applied ++ ((inner.groups rt).map fun groups => inner.appliedBy groups.flatten).getD []) inner' := by
  obtain ⟨nodes, groups, hgroups, hruns⟩ := groups_spec h.shaped hrt
  have hlive {key : Nat × Int} (hkey : key ∈ groups.flatten) : inner.Live key :=
    ((hruns.ready key).mp (hruns.scc.perm.subset hkey)).1
  have hexec := executes h.shaped (hruns.scc.perm.nodup_iff.mpr hruns.nodup) fun key => hlive
  rw [executeAllReady_eq, hgroups] at hresult
  cases hresult
  rw [hgroups, Option.map_some, Option.getD_some, hexec.applied]
  -- what this run applies
  have hnew {P : Applied → Prop} (hold : ∀ a ∈ applied, P a)
      (hP : ∀ key inst, inner.Live key → inner.recordOf key = some inst → (key, inst.value) ∈ decided → P ⟨key, inst⟩) :
      ∀ a ∈ applied ++ groups.flatten.map inner.appliedFrom, P a := by
    intro a ha
    rcases List.mem_append.mp ha with ha | ha
    · exact hold a ha
    · obtain ⟨key, hkey, rfl⟩ := List.mem_map.mp ha
      obtain ⟨inst, hrecord, hvalue⟩ := hagrees.exists_record (hlive hkey)
      rw [appliedFrom_eq hrecord]
      exact hP key inst (hlive hkey) hrecord hvalue
  refine ⟨h.toAppliedInv.execute hruns, hnew h.values fun key inst _ _ hvalue => hvalue,
    hnew h.valid fun key inst hkey hrecord _ => ?_, hnew h.deps fun key inst hkey hrecord _ => ?_,
    h.schedule hone hagrees hruns⟩
  · exact ⟨hsound.n_eq ▸ lt_n_of_recordOf h.shaped hrecord, hkey.1⟩
  · have hdeps := hsound.records _ _ inst hrecord
    rwa [Int.toNat_of_nonneg hkey.1] at hdeps

/-- The records after a commit of a decided value. -/
theorem Agrees.recordCommit (h : Agrees decided inner) {r : Nat} {slot : Int} {v : Value} {duplicate : Bool}
    (hv : ((r, slot), v) ∈ decided) (hrecord : recordCommit inner r slot v = some (inner', duplicate)) :
    Agrees decided inner' := by
  intro a b inst hinst hstatus
  rcases recordsFrom_recordCommit hrecord a b inst hinst (by rw [hstatus]; rfl) with hold | hwritten
  · exact h a b inst hold hstatus
  · obtain ⟨hkey, hvalue⟩ := Prod.mk.inj (Option.some.inj hwritten)
    rw [← hkey, ← hvalue]
    exact hv

theorem Ran.commit (h : Ran decided n id applied inner) (hrt : rt.Faithful) (hone : decided.Single)
    (hagrees : Agrees decided inner) (hsound : Sound n id inner) {r : Nat} {slot : Int} {v : Value} {skip : Bool}
    (hv : ((r, slot), v) ∈ decided) (hdeps : Valid n (r, slot) → DepsFor n (r, slot) v.deps)
    (hcommit : inner.commitOn rt r slot v skip = some inner') :
    Ran decided n id (applied ++ inner.appliedOn rt r slot v skip) inner' := by
  rw [commitOn, Option.bind_eq_bind, Option.bind_eq_some_iff] at hcommit
  obtain ⟨⟨mid, duplicate⟩, hrecord, hcommit⟩ := hcommit
  have hvalid := hsound.valid_of_recordCommit hrecord
  obtain ⟨mid', duplicate', hrecord', hsound'⟩ := hsound.exists_recordCommit hvalid.1 hvalid.2 (hdeps hvalid)
  cases hrecord.symm.trans hrecord'
  obtain ⟨-, -, hsettles⟩ := settles_of_recordCommit hsound.shaped.framed hrecord
  have hmid := h.still hsettles.still hsound'
  simp only [appliedOn, hrecord]
  dsimp only at hcommit
  split at hcommit
  · rename_i hskip
    cases hcommit
    rw [if_pos hskip, List.append_nil]
    exact hmid
  · rename_i hskip
    rw [if_neg hskip]
    exact hmid.execute hrt hone (hagrees.recordCommit hv hrecord) hsound' hcommit

theorem Ran.advance {s : State} {new : List Applied} (h : Ran decided n id applied inner) (hrt : rt.Faithful)
    (hone : decided.Single) (hagrees : Agrees decided inner) (hsound : Sound n id inner) (hsound' : Sound n id inner')
    (hsub : s.decided ⊆ decided) (hadvances : Advances rt n s inner inner' new) :
    Ran decided n id (applied ++ new) inner' := by
  cases hadvances with
  | still hstill =>
      rw [List.append_nil]
      exact h.still hstill hsound'
  | committed hdecided hdeps hcommit => exact h.commit hrt hone hagrees hsound (hsub hdecided) hdeps hcommit

end Ran

theorem single_run {n : Nat} {acts : List (Runtime × Act)} {s : State} (hslots : SlotsSuffice acts)
    (hnormal : Within (mixed step) (fun s x => ∀ key, Normal n key s x.2) (init n) acts)
    (hrun : run (mixed step) (init n) acts = some s) : Decisions.Single s.decided :=
  fun _ _ hv => (unique_of_nodup (nodup_decided_run hslots hnormal hrun)).chosen_eq hv

/-- What the replica `i` has applied in a run from `init n`. -/
def appliedIn (n : Nat) (acts : List (Runtime × Act)) (i : Nat) : List Applied :=
  trace (mixed step) (fun s x => applied x.1 i s x.2) (init n) acts

/-- After a run of the normal path, each replica has gone through the graph of the decisions. -/
theorem ran_run {n : Nat} {acts : List (Runtime × Act)} {s : State} (hrt : ∀ x ∈ acts, x.1.Faithful)
    (hslots : SlotsSuffice acts)
    (hnormal : Within (mixed step) (fun s x => ∀ key, Normal n key s x.2) (init n) acts)
    (hrun : run (mixed step) (init n) acts = some s) {i : Nat} {rep : Replica} (hrep : s.replicas[i]? = some rep) :
    Ran s.decided n i (appliedIn n acts i) rep.inner := by
  have hone := single_run hslots hnormal hrun
  -- what is decided on the way is what is decided in the end
  have hsub : Within (mixed step) (fun t _ => t.decided ⊆ s.decided) (init n) acts := by
    refine within_iff.mpr fun pre x post t hsplit hpre => ?_
    rw [hsplit, run_append_eq_some] at hrun
    obtain ⟨t', hpre', hpost⟩ := hrun
    cases hpre.symm.trans hpre'
    exact (decided_prefix_of_run hpost).subset
  have hfaithful : Within (mixed step) (fun _ x => x.1.Faithful) (init n) acts := within_of_forall hrt
  have hbegins : Within (mixed step) (fun s x => Begins (Targets False n) s x.2) (init n) acts :=
    begins_of_slots hslots False.elim
  have hstart : (init n).Inv ∧ (init n).Meets (wellFormedLocal False n) ∧
      ∀ rep, (init n).replicas[i]? = some rep → Ran s.decided n i [] rep.inner := by
    refine ⟨inv_init n, meets_init fun _ hi => sound_new hi, fun rep hrep => ?_⟩
    simp only [init, List.getElem?_map, Option.map_eq_some_iff] at hrep
    obtain ⟨id, hid, rfl⟩ := hrep
    obtain ⟨-, rfl⟩ := List.getElem?_eq_some_iff.mp hid
    rw [List.getElem_range]
    exact ran_new _ n i
  have hkept : ∀ (past : List Applied) (t : State) (x : Runtime × Act) (u : State),
      (t.Inv ∧ t.Meets (wellFormedLocal False n) ∧
        ∀ rep, t.replicas[i]? = some rep → Ran s.decided n i past rep.inner) →
      (t.decided ⊆ s.decided ∧ x.1.Faithful) ∧ Begins (Targets False n) t x.2 → mixed step t x = some u →
      u.Inv ∧ u.Meets (wellFormedLocal False n) ∧
        ∀ rep, u.replicas[i]? = some rep → Ran s.decided n i (past ++ applied x.1 i t x.2) rep.inner := by
    rintro past t ⟨rt, a⟩ u ⟨hinv, hsound, hran⟩ ⟨⟨hdecided, hrt⟩, hbegins⟩ hstep
    have hsound' : u.Meets (wellFormedLocal False n) :=
      hsound.step (kept_wellFormedLocal False rt n) hbegins hstep
    refine ⟨inv_step hinv hstep, hsound', fun rep' hrep' => ?_⟩
    obtain ⟨old, hold, hadvances⟩ := advances_of_step hinv hsound hstep hrep'
    have hagrees : Agrees s.decided old.inner := fun r k inst hinst hstatus =>
      hdecided (hinv.replicas old (List.mem_of_getElem? hold) r k inst hinst (by rw [hstatus]; rfl))
    exact (hran old hold).advance hrt hone hagrees (hsound.replicas i old hold) (hsound'.replicas i rep' hrep')
      hdecided hadvances
  have hend := run_invariant_trace
    (P := fun past t => t.Inv ∧ t.Meets (wellFormedLocal False n) ∧
      ∀ rep, t.replicas[i]? = some rep → Ran s.decided n i past rep.inner)
    hkept hstart ((hsub.and hfaithful).and hbegins) hrun
  exact hend.2.2 rep hrep

/-! ### Decisions that interfere -/

/-- The dependencies lead from the instance to settled decisions only. -/
def Decisions.Closed (decided : Decisions) (n : Nat) (seen : List Event) (x : Nat × Int) : Prop :=
  ∀ y, ReflTransGen decided.Depends x y → Settled n seen y (decided.chosen y)

section Interfering

variable {rt : Runtime} {n : Nat} {acts : List Act} {seen : List Event} {s : State} {decided : Decisions}
  {x y : Nat × Int}

/-- A dependency on a row leads to every decision of the row up to it that interferes. -/
theorem History.reaches_of_depends (h : History n acts seen s) (hlinked : Linked acts)
    (hx : Settled n seen x (decided.chosen x)) (hy : decided.Closed n seen y)
    (hoverlap : Overlap (decided.chosen x).cmds (decided.chosen y).cmds) {d : Int}
    (hd : (decided.chosen y).deps[x.1]? = some d) (hle : x.2 ≤ d) : ReflTransGen decided.Depends y x := by
  obtain ⟨⟨orig, fastPath, hv⟩, hvalid, -⟩ := hx
  have hnonneg : 0 ≤ x.2 := hvalid.2
  induction hgap : (d - x.2).toNat using Nat.strong_induction_on generalizing y d with
  | _ gap ih =>
      have hdep : decided.Depends y (x.1, d) := ⟨hd, by show 0 ≤ d; omega⟩
      by_cases heq : x.2 = d
      · subst heq
        exact ReflTransGen.single hdep
      · -- the slot that is named depends on `x`, or on a slot between the two
        obtain ⟨⟨orig', fastPath', hw⟩, -, -⟩ := hy y .refl
        obtain ⟨⟨origNext, fastNext, hz⟩, -, hself⟩ := hy _ (.single hdep)
        have hbetween := h.overlap_of_dep hz hw hd (by show 0 ≤ d; omega)
        have hproposed : Proposed acts x.1 (decided.chosen (x.1, d)).cmds := h.proposed_of_decided (x := (x.1, d)) hz
        have hrow := hlinked x.1 y.1 _ _ _ (h.proposed_of_decided hv) hproposed (h.proposed_of_decided hw) hoverlap
          hbetween
        obtain ⟨d', hd', hle'⟩ := h.marks.knows_row hv hz hrow rfl (by show x.2 < d; omega)
        have hlt : d' < d := hself.self d' hd'
        refine ReflTransGen.head hdep ?_
        exact ih (d' - x.2).toNat (by omega) (fun z hz => hy z (.head hdep hz)) hrow hd' hle' rfl

/-- Decisions that interfere are connected. -/
theorem History.connected (h : History n acts seen s) (hlinked : Linked acts) (hx : decided.Closed n seen x)
    (hy : decided.Closed n seen y) (hoverlap : Overlap (decided.chosen x).cmds (decided.chosen y).cmds) :
    ReflTransGen decided.Depends x y ∨ ReflTransGen decided.Depends y x := by
  have hsettled := hx x .refl
  have hsettled' := hy y .refl
  obtain ⟨orig, fastPath, hv⟩ := hsettled.decided
  obtain ⟨orig', fastPath', hw⟩ := hsettled'.decided
  have hfrom {d : Int} (hd : (decided.chosen y).deps[x.1]? = some d) (hle : x.2 ≤ d) :
      ReflTransGen decided.Depends x y ∨ ReflTransGen decided.Depends y x :=
    Or.inr (h.reaches_of_depends hlinked hsettled hy hoverlap hd hle)
  have hto {d : Int} (hd : (decided.chosen x).deps[y.1]? = some d) (hle : y.2 ≤ d) :
      ReflTransGen decided.Depends x y ∨ ReflTransGen decided.Depends y x :=
    Or.inl (h.reaches_of_depends hlinked hsettled' hx hoverlap.symm hd hle)
  by_cases hrow : x.1 = y.1
  · rcases lt_trichotomy x.2 y.2 with hlt | heq | hlt
    · obtain ⟨d, hd, hle⟩ := h.marks.knows_row hv hw hoverlap hrow hlt
      exact hfrom hd hle
    · rw [Prod.ext hrow heq]
      exact Or.inl .refl
    · obtain ⟨d, hd, hle⟩ := h.marks.knows_row hw hv hoverlap.symm hrow.symm hlt
      exact hto hd hle
  · rcases h.marks.knows hv hw hsettled.valid.1 hsettled'.valid.1 hoverlap hrow with ⟨d, hd, hle⟩ | ⟨d, hd, hle⟩
    · exact hfrom hd hle
    · exact hto hd hle

/-- What a replica has applied leads to decisions that it has applied. -/
theorem Ran.closed {applied : List Applied} {inner : ReplicaInner} {i : Nat} (h : Ran s.decided n i applied inner)
    (hhistory : History n acts seen s) (hone : Decisions.Single s.decided) (hx : x ∈ applied.map Applied.key) :
    Decisions.Closed s.decided n seen x := by
  intro y hreach
  obtain ⟨blocks, hflatten, hschedule⟩ := h.blocks
  rw [← hflatten] at hx
  have hy := hschedule.mem_of_reach hx hreach
  rw [hflatten] at hy
  obtain ⟨a, ha, rfl⟩ := List.mem_map.mp hy
  have hvalue := hone _ _ (h.values a ha)
  rw [hvalue]
  exact ⟨hhistory.chosen _ _ (h.values a ha), h.valid a ha, h.deps a ha⟩

end Interfering

/-! ### Histories -/

/-- The writes of a key among what was applied: the instance and the value that its batch leaves. -/
def writesOf (k : String) (applied : List Applied) : List ((Nat × Int) × String) :=
  applied.filterMap fun a => (lastWrite a.record.cmds k).map fun value => (a.key, value)

/-- Two decisions on a cycle that write the key have different sequence numbers. -/
def Decisions.Untied (decided : Decisions) (k : String) : Prop :=
  ∀ x y v w, (x, v) ∈ decided → (y, w) ∈ decided → x ≠ y → Writes v.cmds k → Writes w.cmds k →
    Mutual decided.Depends x y → v.seq ≠ w.seq

/-- The instances that write the key. -/
def Decisions.writes (decided : Decisions) (k : String) (key : Nat × Int) : Bool :=
  (lastWrite (decided.chosen key).cmds k).isSome

section Histories

variable {rt : Runtime} {n i : Nat} {decided : Decisions} {applied : List Applied} {inner : ReplicaInner} {k : String}

/-- The store holds the last write. -/
theorem lookup_replay_new (id n : Nat) (applied : List Applied) (k : String) :
    (replay (ReplicaInner.new id n) applied).lookup k = (writesOf k applied).getLast?.map Prod.snd := by
  induction applied using List.reverseRecOn with
  | nil => rfl
  | append_singleton applied a ih =>
      rw [lookup_replay_append, ih, writesOf, writesOf, List.filterMap_append]
      cases hlast : lastWrite a.record.cmds k with
      | none => simp [hlast]
      | some value => simp [hlast]

/-- The history of a key is read off the instances. -/
theorem Ran.writesOf_eq (h : Ran decided n i applied inner) (hone : decided.Single) (k : String) :
    writesOf k applied = ((applied.map Applied.key).filter (decided.writes k)).filterMap fun key =>
      (lastWrite (decided.chosen key).cmds k).map fun value => (key, value) := by
  have hcongr : writesOf k applied = (applied.map Applied.key).filterMap fun key =>
      (lastWrite (decided.chosen key).cmds k).map fun value => (key, value) := by
    rw [List.filterMap_map]
    refine List.filterMap_congr fun a ha => ?_
    show _ = (lastWrite (decided.chosen a.key).cmds k).map fun value => (a.key, value)
    rw [hone _ _ (h.values a ha)]
    rfl
  rw [hcongr, List.filterMap_filter]
  refine List.filterMap_congr fun key _ => ?_
  rw [Decisions.writes]
  cases lastWrite (decided.chosen key).cmds k <;> rfl

end Histories

/-- In every run of the normal path in which the slot counters do not wrap around and the PreAccepts of
interfering batches keep the order of their slots, the replicas write a key in one order, whatever the orders are
in which their executors list the hash sets: the history of the key on one replica is the beginning of the history
on another, or the other way round. No instance is applied twice, and the store holds the last write. One slot of
a row has to stand for all those before it, batches that share the empty key have to share another one, and
decisions on a cycle must not be tied. -/
theorem histories_agree {n : Nat} {acts : List (Runtime × Act)} {s : State} (hrt : ∀ x ∈ acts, x.1.Faithful)
    (hslots : SlotsSuffice acts)
    (hnormal : Within (mixed step) (fun s x => ∀ key, Normal n key s x.2) (init n) acts)
    (horder : Within (mixed step) (fun s x => InSlotOrder s x.2) (init n) acts) (hlinked : Linked (acts.map Prod.snd))
    (hkeyed : Keyed (acts.map Prod.snd)) (hrun : run (mixed step) (init n) acts = some s) {k : String}
    (huntied : Decisions.Untied s.decided k) {i j : Nat} {rep rep' : Replica} (hrep : s.replicas[i]? = some rep)
    (hrep' : s.replicas[j]? = some rep') :
    (writesOf k (appliedIn n acts i) <+: writesOf k (appliedIn n acts j) ∨
        writesOf k (appliedIn n acts j) <+: writesOf k (appliedIn n acts i)) ∧
      ((appliedIn n acts i).map Applied.key).Nodup ∧
      rep.inner.store.lookup k = (writesOf k (appliedIn n acts i)).getLast?.map Prod.snd := by
  have hhistory := history_mixed hslots hnormal horder hrun
  have hone := single_run hslots hnormal hrun
  have hran := ran_run hrt hslots hnormal hrun hrep
  have hran' := ran_run hrt hslots hnormal hrun hrep'
  refine ⟨?_, hran.nodup, ?_⟩
  · obtain ⟨blocks, hflatten, hschedule⟩ := hran.blocks
    obtain ⟨blocks', hflatten', hschedule'⟩ := hran'.blocks
    have hclosed {x : Nat × Int} (hx : x ∈ blocks.flatten ∨ x ∈ blocks'.flatten) :
        Decisions.Closed s.decided n (trace (mixed step) (fun s x => observe x.1 s x.2) (init n) acts) x := by
      rw [hflatten, hflatten'] at hx
      exact hx.elim (hran.closed hhistory hone) (hran'.closed hhistory hone)
    have hdecided {x : Nat × Int} (hx : x ∈ blocks.flatten ∨ x ∈ blocks'.flatten) :
        (x, Decisions.chosen s.decided x) ∈ s.decided := by
      have happlied {i : Nat} {rep : Replica} (hran : Ran s.decided n i (appliedIn n acts i) rep.inner)
          (hx : x ∈ (appliedIn n acts i).map Applied.key) : (x, Decisions.chosen s.decided x) ∈ s.decided := by
        obtain ⟨a, ha, rfl⟩ := List.mem_map.mp hx
        rw [hone _ _ (hran.values a ha)]
        exact hran.values a ha
      rw [hflatten, hflatten'] at hx
      exact hx.elim (happlied hran) (happlied hran')
    rw [hran.writesOf_eq hone, hran'.writesOf_eq hone, ← hflatten, ← hflatten']
    refine (hschedule.prefix_or_prefix hschedule' (p := Decisions.writes s.decided k)
      fun x y hx hy hxk hyk hne => ?_).imp (fun h => h.filterMap _) fun h => h.filterMap _
    have hwrites := (isSome_lastWrite _ k).mp hxk
    have hwrites' := (isSome_lastWrite _ k).mp hyk
    have hproposed {x : Nat × Int} (hx : x ∈ blocks.flatten ∨ x ∈ blocks'.flatten) :
        Proposed (acts.map Prod.snd) x.1 (Decisions.chosen s.decided x).cmds := by
      obtain ⟨orig, fastPath, hv⟩ := (hclosed hx x .refl).decided
      exact hhistory.proposed_of_decided hv
    have hoverlap := overlap_of_writes hkeyed (hproposed hx) (hproposed hy) hwrites hwrites'
    rcases precedes_or_tied
        (hhistory.connected hlinked (hclosed hx) (hclosed hy) hoverlap) with hxy | hyx | ⟨hmutual, hseq⟩
    · exact Or.inl hxy
    · exact Or.inr hyx
    · exact absurd hseq (huntied x y _ _ (hdecided hx) (hdecided hy) hne hwrites hwrites' hmutual)
  · rw [hran.store]
    exact lookup_replay_new i n _ k

/-- A runtime that lists every hash set the other way round. -/
noncomputable def reversedRuntime : Runtime := { singleRuntime with order := List.reverse }

theorem faithful_reversedRuntime : reversedRuntime.Faithful :=
  ⟨fun keys => List.reverse_perm keys, faithful_singleRuntime.tarjanScc⟩

/-- A proposal is committed on both replicas, then one of the other replica on its own. -/
def oneBehind : List Act :=
  fastCommit 0 1 0 [putX] ++ (.enqueue 0 0 :: .deliver 0 1 :: fastCommit 1 0 1 [putX])

/-- The executors of the two replicas list their sets in different orders. -/
noncomputable def oneBehindRun : List (Runtime × Act) :=
  oneBehind.mapIdx fun k a => (if k < 5 then singleRuntime else reversedRuntime, a)

theorem proposed_oneBehind {i : Nat} {cmds : List Command} (h : Proposed oneBehind i cmds) : cmds = [putX] := by
  obtain ⟨peers, thrifty, hmem⟩ := h
  simp only [oneBehind, fastCommit, List.cons_append, List.nil_append, List.mem_cons, List.not_mem_nil, or_false,
    Act.propose.injEq, reduceCtorEq, false_or] at hmem
  rcases hmem with ⟨-, rfl, -⟩ | ⟨-, rfl, -⟩ <;> rfl

theorem faithful_oneBehindRun : ∀ x ∈ oneBehindRun, x.1.Faithful ∧ x.1.checked = true := by
  intro x hx
  obtain ⟨k, hk, rfl⟩ := List.mem_mapIdx.mp hx
  dsimp only
  split
  · exact ⟨faithful_singleRuntime, rfl⟩
  · exact ⟨faithful_reversedRuntime, rfl⟩

theorem inSlotOrder_oneBehindRun :
    Within (mixed step) (fun s x => InSlotOrder s x.2) (init 2) oneBehindRun := by
  have hkey {k : String} (hk : Touches [putX] k) : k = "x" := List.mem_singleton.mp hk.2
  have hskip {s t : State} {x : Runtime × Act} {acts : List (Runtime × Act)} (hstep : mixed step s x = some t)
      (hok : InSlotOrder s x.2) (hacts : Within (mixed step) (fun s x => InSlotOrder s x.2) t acts) :
      Within (mixed step) (fun s x => InSlotOrder s x.2) s (x :: acts) := within_cons hstep hok hacts
  refine hskip rfl trivial (hskip rfl trivial (hskip rfl ?_ ?_))
  · rintro c p rest rep hqueue hrep k entry d hk hentry
    cases hqueue
    cases hrep
    cases hentry
  refine hskip rfl trivial (hskip rfl trivial (hskip rfl trivial (hskip rfl ?_ ?_)))
  · rintro c p rest rep hqueue
    cases hqueue
  refine hskip rfl trivial (hskip rfl trivial (hskip rfl ?_ ?_))
  · rintro c p rest rep hqueue hrep k entry d hk hentry hd
    cases hqueue
    cases hrep
    cases hkey hk
    cases hentry
    cases hd
    decide
  exact hskip rfl trivial (hskip rfl trivial trivial)

theorem histories_agree_oneBehind : ∃ s rep rep', run (mixed step) (init 2) oneBehindRun = some s ∧
    s.replicas[0]? = some rep ∧ s.replicas[1]? = some rep' ∧
    (appliedIn 2 oneBehindRun 0).map Applied.key = [(0, 0)] ∧
    (appliedIn 2 oneBehindRun 1).map Applied.key = [(0, 0), (1, 0)] ∧
    (writesOf "x" (appliedIn 2 oneBehindRun 0) <+: writesOf "x" (appliedIn 2 oneBehindRun 1) ∨
      writesOf "x" (appliedIn 2 oneBehindRun 1) <+: writesOf "x" (appliedIn 2 oneBehindRun 0)) ∧
    ((appliedIn 2 oneBehindRun 0).map Applied.key).Nodup ∧
    rep.inner.store.lookup "x" = (writesOf "x" (appliedIn 2 oneBehindRun 0)).getLast?.map Prod.snd := by
  obtain ⟨s, hrun⟩ : ∃ s, run (mixed step) (init 2) oneBehindRun = some s := ⟨_, rfl⟩
  have hoverlap : Overlap [putX] [putX] :=
    ⟨"x", ⟨by decide, List.mem_singleton.mpr rfl⟩, ⟨by decide, List.mem_singleton.mpr rfl⟩⟩
  have hlinked : Linked (oneBehindRun.map Prod.snd) := by
    intro _ _ _ _ _ hxs hys _ _ _
    rw [proposed_oneBehind hxs, proposed_oneBehind hys]
    exact hoverlap
  have hkeyed : Keyed (oneBehindRun.map Prod.snd) := by
    intro _ _ _ _ hxs hys _ _
    rw [proposed_oneBehind hxs, proposed_oneBehind hys]
    exact hoverlap
  have hdecided : s.decided = [((0, 0), ⟨[putX], 1, [-1, -1]⟩), ((1, 0), ⟨[putX], 2, [0, -1]⟩)] :=
    eq_of_run_map (f := State.decided) rfl hrun
  have huntied : Decisions.Untied s.decided "x" := by
    intro x y v w hx hy hne _ _ _ hseq
    rw [hdecided] at hx hy
    simp only [List.mem_cons, List.not_mem_nil, or_false] at hx hy
    rcases hx with hx | hx <;> rcases hy with hy | hy <;> cases hx <;> cases hy
    · exact hne rfl
    · exact absurd hseq (by decide)
    · exact absurd hseq (by decide)
    · exact hne rfl
  have hnormal : Within (mixed step) (fun s x => ∀ key, Normal 2 key s x.2) (init 2) oneBehindRun := by
    refine within_normal fun x hx => ?_
    have hplain : ∀ a ∈ oneBehind, a.Plain 2 := by decide
    exact hplain x.2 (List.mem_map_of_mem hx)
  have hlength : s.replicas.length = 2 := eq_of_run_map (f := fun s : State => s.replicas.length) rfl hrun
  have hrep : s.replicas[0]? = some (s.replicas[0]) := List.getElem?_eq_getElem (by omega)
  have hrep' : s.replicas[1]? = some (s.replicas[1]) := List.getElem?_eq_getElem (by omega)
  exact ⟨s, _, _, hrun, hrep, hrep', rfl, rfl, histories_agree (fun x hx => (faithful_oneBehindRun x hx).1)
    (Or.inl fun x hx => (faithful_oneBehindRun x hx).2) hnormal inSlotOrder_oneBehindRun hlinked hkeyed hrun huntied
    hrep hrep'⟩

end Quorums.Epaxos
