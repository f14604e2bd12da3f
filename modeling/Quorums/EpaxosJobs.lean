import Quorums.EpaxosLocal
import Quorums.EpaxosLog

/-! One replica on its own, under any sequence of calls: `start_proposal`, the messages of all five kinds,
and `commit_local`. Each is done under the lock, and a panic poisons it. Nothing is asked of the messages;
a slot they carry is an `i32`. -/

namespace Quorums.Epaxos

open ReplicaInner

/-- What a replica can be asked to do. -/
inductive Job where
  | startProposal (cmds : List Command)
  | serve (req : Request)
  | commitLocal (r : Nat) (slot : Int) (v : Value)

/-- The slot that the job names is an `i32`. -/
def Job.Fits : Job → Prop
  | .startProposal _ => True
  | .serve (.preAccept req) | .serve (.accept req) | .serve (.tryPreAccept req) =>
      -2 ^ 31 ≤ req.slot ∧ req.slot < 2 ^ 31
  | .serve (.commit req) => -2 ^ 31 ≤ req.slot ∧ req.slot < 2 ^ 31
  | .serve (.prepare req) => -2 ^ 31 ≤ req.slot ∧ req.slot < 2 ^ 31
  | .commitLocal _ slot _ => -2 ^ 31 ≤ slot ∧ slot < 2 ^ 31

namespace Replica

/-- `Replica::new`. -/
def new (id n : Nat) : Replica := ⟨ReplicaInner.new id n, false, false⟩

/-- The replica once a call under the lock has returned, or has panicked and left `remains`. -/
def after (rep : Replica) (result : Option ReplicaInner) (remains : ReplicaInner) : Replica :=
  match result with
  | some inner => { rep with inner }
  | none => { rep with inner := remains, poisoned := true }

/-- The replica after a job, and the reply if the job is a request that is answered. -/
def work (rt : Runtime) (rep : Replica) : Job → Replica × Option Reply
  | .startProposal cmds =>
      if rep.poisoned then (rep, none)
      else (rep.after ((rep.inner.startProposal rt cmds).map Prod.fst) rep.inner, none)
  | .serve req => rep.serve rt req
  | .commitLocal r slot v =>
      if rep.poisoned then (rep, none)
      else
        (rep.after (Epaxos.commitLocal rt rep.inner r slot v) (commitRemains rep.inner r slot v), none)

def step (rt : Runtime) (rep : Replica) (job : Job) : Option Replica := some (rep.work rt job).1

end Replica

/-! ### What a job does -/

/-- The instance that a job commits, with its value. -/
def Job.commits : Job → Option (Nat × Int × Value)
  | .serve (.commit req) => some (asUsize req.replica, req.slot, req.value)
  | .commitLocal r slot v => some (r, slot, v)
  | _ => none

/-- What a job does to a replica, whatever the records look like. -/
inductive Works (rt : Runtime) (rep : Replica) : Job → Replica → Option Reply → Prop where
  -- the lock is poisoned
  | refused {job : Job} (hlock : rep.poisoned = true) : Works rt rep job rep none
  | started {cmds : List Command} {inner' : ReplicaInner} {slot seq : Int} {deps : List Int}
      (hlock : rep.poisoned = false)
      (hstart : rep.inner.startProposal rt cmds = some (inner', slot, seq, deps)) :
      Works rt rep (.startProposal cmds) { rep with inner := inner' } none
  | startPanic {cmds : List Command} (hlock : rep.poisoned = false) :
      Works rt rep (.startProposal cmds) { rep with poisoned := true } none
  | preAccepted {req : Proposal} {inner' : ReplicaInner} {reply : PreAcceptReply}
      (hlock : rep.poisoned = false) (hr : asUsize req.replica < rep.inner.n) (hslot : 0 ≤ req.slot)
      (hregisters : Registers rt rep.inner req inner' reply) :
      Works rt rep (.serve (.preAccept req)) { rep with inner := inner' } (some (.preAccept reply))
  | preAcceptPanic {req : Proposal} (hlock : rep.poisoned = false)
      (hpanic : asUsize req.replica < rep.inner.n → 0 ≤ req.slot →
        Overflows rt rep.inner.conflicts req.cmds) :
      Works rt rep (.serve (.preAccept req)) { rep with poisoned := true } none
  | accepted {req : Proposal} {opened : ReplicaInner} (hlock : rep.poisoned = false)
      (hr : asUsize req.replica < rep.inner.n) (hslot : 0 ≤ req.slot)
      (hopens : Opens (asUsize req.replica) req.slot rep.inner opened) :
      Works rt rep (.serve (.accept req))
        { rep with
          inner := opened.setInstance (asUsize req.replica) req.slot.toNat
            ⟨req.cmds, req.seq, req.deps, .accepted, req.ballot⟩ }
        (some (.accept ⟨rep.inner.id, req.slot, true, req.ballot⟩))
  | acceptPanic {req : Proposal} (hlock : rep.poisoned = false)
      (hpanic : ¬(asUsize req.replica < rep.inner.n ∧ 0 ≤ req.slot)) :
      Works rt rep (.serve (.accept req)) { rep with poisoned := true } none
  -- the record is written, or was; the executor runs, or does not, or panics
  | committed {job : Job} {r : Nat} {slot : Int} {v : Value} {mid inner' : ReplicaInner}
      {duplicate poisoned : Bool} (hlock : rep.poisoned = false) (hjob : job.commits = some (r, slot, v))
      (hr : r < rep.inner.n) (hslot : 0 ≤ slot) (hsettles : Settles rep.inner r slot v mid duplicate)
      (hinstances : inner'.instances = mid.instances) (hframe : Frame mid inner')
      (hframed : inner'.Framed)
      (hexecuted : poisoned = false →
        duplicate = true ∧ inner' = mid ∨ mid.executeAllReady rt = some inner') :
      Works rt rep job { rep with inner := inner', poisoned } none
  | commitPanic {job : Job} {r : Nat} {slot : Int} {v : Value} (hlock : rep.poisoned = false)
      (hjob : job.commits = some (r, slot, v)) (hpanic : ¬(r < rep.inner.n ∧ 0 ≤ slot)) :
      Works rt rep job { rep with poisoned := true } none
  | prepared {req : PrepareRequest} (hlock : rep.poisoned = false) :
      Works rt rep (.serve (.prepare req)) rep (some (.prepare (handlePrepareInner rep.inner req)))
  | tried {req : Proposal} {reply : TryPreAcceptReply} (hlock : rep.poisoned = false)
      (hreply : handleTryPreAcceptInner rep.inner req = some reply) :
      Works rt rep (.serve (.tryPreAccept req)) rep (some (.tryPreAccept reply))
  | tryPanic {req : Proposal} (hlock : rep.poisoned = false) :
      Works rt rep (.serve (.tryPreAccept req)) { rep with poisoned := true } none

section Works

variable {rt : Runtime} {rep rep' : Replica} {job : Job} {reply : Option Reply}

theorem work_commitLocal (hlock : rep.poisoned = false) (r : Nat) (slot : Int) (v : Value) :
    rep.work rt (.commitLocal r slot v) =
      (rep.after (commitLocal rt rep.inner r slot v) (commitRemains rep.inner r slot v), none) := by
  rw [Replica.work, hlock]
  rfl

theorem work_commit (hlock : rep.poisoned = false) (req : CommitRequest) :
    rep.work rt (.serve (.commit req)) =
      (rep.after (handleCommitInner rt rep.inner req)
        (commitRemains rep.inner (asUsize req.replica) req.slot req.value), none) := by
  rw [Replica.work, serve_eq_of_lock hlock, handle]
  cases handleCommitInner rt rep.inner req <;> rfl

theorem works_preAccept (h : rep.inner.Framed) {req : Proposal} (hi32 : req.slot < 2 ^ 31)
    (hlock : rep.poisoned = false) :
    Works rt rep (.serve (.preAccept req)) (rep.serve rt (.preAccept req)).1
      (rep.serve rt (.preAccept req)).2 := by
  rw [serve_eq_of_lock hlock, handle]
  cases hhandle : handlePreAcceptInner rt rep.inner req with
  | some result =>
      obtain ⟨hr, hslot, hregisters⟩ := registers_of_handle h hi32 hhandle
      exact .preAccepted hlock hr hslot hregisters
  | none =>
      refine .preAcceptPanic hlock fun hr hslot => by_contra fun hfits => ?_
      obtain ⟨seq, hseq⟩ : ∃ seq, joinedSeq rt rep.inner.conflicts req.cmds req.seq = some seq :=
        exists_joinedSeq hfits
      obtain ⟨inner', reply, hsome, -⟩ := exists_registers h hr hslot hi32 hseq
      cases hhandle.symm.trans hsome

theorem works_accept (h : rep.inner.Framed) {req : Proposal} (hlock : rep.poisoned = false) :
    Works rt rep (.serve (.accept req)) (rep.serve rt (.accept req)).1 (rep.serve rt (.accept req)).2 := by
  rw [serve_eq_of_lock hlock, handle]
  by_cases hplace : asUsize req.replica < rep.inner.n ∧ 0 ≤ req.slot
  · obtain ⟨opened, hopens, hhandle⟩ := accept_opens h hplace.1 hplace.2
    rw [hhandle]
    exact .accepted hlock hplace.1 hplace.2 hopens
  · have hnone : handleAcceptInner rep.inner req = none := by
      cases hensure : rep.inner.ensureSlot (asUsize req.replica) req.slot with
      | none => rw [handleAcceptInner, hensure]; rfl
      | some opened => exact absurd ⟨lt_of_ensureSlot h hensure, nonneg_of_ensureSlot hensure⟩ hplace
    rw [hnone]
    exact .acceptPanic hlock hplace

/-- A commit, by whichever path, ends with the record and, after a panic, with a poisoned lock. -/
theorem works_commit (h : rep.inner.Framed) {r : Nat} {slot : Int} {v : Value} (hlock : rep.poisoned = false)
    (hjob : job.commits = some (r, slot, v)) (result : Option ReplicaInner)
    (hresult : ∀ mid duplicate, recordCommit rep.inner r slot v = some (mid, duplicate) →
      duplicate = true ∧ result = some mid ∨ result = mid.executeAllReady rt)
    (hpanic : recordCommit rep.inner r slot v = none → result = none) :
    Works rt rep job (rep.after result (commitRemains rep.inner r slot v)) none := by
  by_cases hplace : r < rep.inner.n ∧ 0 ≤ slot
  · obtain ⟨mid, duplicate, hrecord, hsettles⟩ := exists_settles h hplace.1 hplace.2 v
    have hmid : mid.Framed := by
      cases hsettles with
      | duplicate hopens => exact hopens.framed
      | written hopens => exact hopens.framed.setInstance ..
    cases hinner : result with
    | none =>
        rw [commitRemains, hrecord]
        exact .committed hlock hjob hplace.1 hplace.2 hsettles rfl (Frame.refl mid) hmid (by rintro ⟨⟩)
    | some inner' =>
        have hafter : rep.after (some inner') (commitRemains rep.inner r slot v) =
            { rep with inner := inner', poisoned := false } := by
          rw [Replica.after, ← hlock]
        rw [hafter]
        rcases hresult mid duplicate hrecord with ⟨hduplicate, hsame⟩ | hexecuted
        · cases hsame.symm.trans hinner
          exact .committed hlock hjob hplace.1 hplace.2 hsettles rfl (Frame.refl mid) hmid
            fun _ => Or.inl ⟨hduplicate, rfl⟩
        · rw [hinner] at hexecuted
          exact .committed hlock hjob hplace.1 hplace.2 hsettles (instances_executeAllReady hexecuted.symm)
            (frame_executeAllReady hexecuted.symm) (framed_executeAllReady hmid hexecuted.symm)
            fun _ => Or.inr hexecuted.symm
  · have hnone : recordCommit rep.inner r slot v = none := by
      cases hrecord : recordCommit rep.inner r slot v with
      | none => rfl
      | some p =>
          obtain ⟨hr, hslot, -⟩ := settles_of_recordCommit h hrecord
          exact absurd ⟨hr, hslot⟩ hplace
    rw [hpanic hnone, commitRemains, hnone]
    exact .commitPanic hlock hjob hplace

theorem works (h : rep.inner.Framed) (hjob : job.Fits) :
    Works rt rep job (rep.work rt job).1 (rep.work rt job).2 := by
  cases hlock : rep.poisoned with
  | true =>
      have hrefused : rep.work rt job = (rep, none) := by
        cases job <;> simp [Replica.work, Replica.serve, hlock]
      rw [hrefused]
      exact .refused hlock
  | false =>
      cases job with
      | startProposal cmds =>
          rw [Replica.work, if_neg (by rw [hlock]; exact Bool.false_ne_true)]
          cases hstart : rep.inner.startProposal rt cmds with
          | none => exact .startPanic hlock
          | some result => exact .started hlock hstart
      | commitLocal r slot v =>
          rw [work_commitLocal hlock]
          exact works_commit h hlock rfl _
            (fun mid duplicate hrecord => Or.inr (by rw [commitLocal, hrecord]; rfl))
            (fun hnone => by rw [commitLocal, hnone]; rfl)
      | serve req =>
          cases req with
          | preAccept req => exact works_preAccept h hjob.2 hlock
          | accept req => exact works_accept h hlock
          | commit req =>
              rw [work_commit hlock]
              exact works_commit h hlock rfl _
                (fun mid duplicate hrecord => by
                  rw [handleCommitInner, hrecord]
                  cases duplicate
                  · exact Or.inr rfl
                  · exact Or.inl ⟨rfl, rfl⟩)
                (fun hnone => by rw [handleCommitInner, hnone]; rfl)
          | prepare req =>
              simp only [Replica.work]
              rw [serve_eq_of_lock hlock, handle]
              exact .prepared hlock
          | tryPreAccept req =>
              simp only [Replica.work]
              rw [serve_eq_of_lock hlock, handle]
              cases hreply : handleTryPreAcceptInner rep.inner req with
              | none => exact .tryPanic hlock
              | some reply => exact .tried hlock hreply

/-! ### The shape of the replica -/

theorem touched_of_startProposal {inner inner' : ReplicaInner} (h : inner.Framed) {cmds : List Command}
    {slot seq : Int} {deps : List Int}
    (hstart : inner.startProposal rt cmds = some (inner', slot, seq, deps)) :
    ∃ next conflicts, inner' = { inner with curSlot := next, conflicts } ∧ inner.id < inner.n ∧
      slot = inner.curSlot ∧ joinedSeq rt inner.conflicts cmds 1 = some seq ∧
      Touched inner.n inner.id inner.curSlot seq cmds inner.conflicts conflicts := by
  simp only [startProposal_eq h.known, Option.bind_eq_bind, Option.bind_eq_some_iff] at hstart
  obtain ⟨next, -, seq', hseq, conflicts, htouch, capped, hcap, hresult⟩ := hstart
  have hid : inner.id < inner.n := by
    obtain ⟨d, hd, -⟩ := Option.bind_eq_some_iff.mp hcap
    have hlen : (joinedDeps inner.conflicts cmds (List.replicate inner.n (-1))).length = inner.n :=
      length_joinedDeps h.known List.length_replicate
    rw [← hlen]
    exact (List.getElem?_eq_some_iff.mp hd).1
  obtain ⟨conflicts', htouch', htouched⟩ := touchConflicts_spec inner.curSlot seq' cmds hid h.known
  rw [htouch] at htouch'
  cases htouch'
  cases hresult
  exact ⟨next, conflicts, rfl, hid, rfl, hseq, htouched⟩

/-- Every job leaves the frame of the replica. -/
theorem Works.framed (hworks : Works rt rep job rep' reply) (h : rep.inner.Framed) :
    rep'.inner.Framed ∧ rep'.inner.n = rep.inner.n := by
  cases hworks with
  | refused | startPanic | preAcceptPanic | acceptPanic | commitPanic | prepared | tried | tryPanic =>
      exact ⟨h, rfl⟩
  | started _ hstart =>
      obtain ⟨next, conflicts, rfl, -, -, -, htouched⟩ := touched_of_startProposal h hstart
      exact ⟨⟨h.rows, h.marks, htouched.length_deps h.known⟩, rfl⟩
  | preAccepted _ _ _ hregisters =>
      cases hregisters with
      | mk hopens _ _ htouched =>
          have hknown := htouched.length_deps h.known
          rw [← hopens.n_eq] at hknown
          exact ⟨(hopens.framed.setConflicts hknown).setInstance _ _ _, hopens.n_eq⟩
  | accepted _ _ _ hopens => exact ⟨hopens.framed.setInstance _ _ _, hopens.n_eq⟩
  | committed _ _ _ _ hsettles _ hframe hframed =>
      refine ⟨hframed, hframe.n_eq.trans ?_⟩
      cases hsettles with
      | duplicate hopens => exact hopens.n_eq
      | written hopens => exact hopens.n_eq

theorem framed_new (id n : Nat) : (Replica.new id n).inner.Framed := (shaped_new id n).framed

/-- What the runs of a replica start from and keep. -/
def Replica.Sized (n : Nat) (rep : Replica) : Prop := rep.inner.Framed ∧ rep.inner.n = n

theorem sized_new (id n : Nat) : (Replica.new id n).Sized n := ⟨framed_new id n, rfl⟩

theorem Replica.Sized.step {n : Nat} (h : rep.Sized n) (hjob : job.Fits) :
    ∃ rep', rep.step rt job = some rep' ∧ rep'.Sized n := by
  have hworks : Works rt rep job _ _ := works h.1 hjob
  obtain ⟨hframed, hn⟩ := hworks.framed h.1
  exact ⟨_, rfl, hframed, hn.trans h.2⟩

theorem Replica.Sized.run {n : Nat} (h : rep.Sized n) {jobs : List Job} (hjobs : ∀ job ∈ jobs, job.Fits)
    (hrun : Transition.run (Replica.step rt) rep jobs = some rep') : rep'.Sized n := by
  have hwithin : Transition.Within (Replica.step rt) (fun _ => Job.Fits) rep jobs :=
    Transition.within_of_forall hjobs
  refine Transition.run_invariant_within (fun rep job rep' hrep hjob hstep => ?_) h hwithin hrun
  obtain ⟨next, hnext, hsized⟩ := hrep.step hjob
  cases hnext.symm.trans hstep
  exact hsized

end Works

/-! ### Records -/

/-- A record is written at a place that was opened for it. -/
theorem instance?_write {inner opened : ReplicaInner} {r : Nat} {slot : Int} (h : Opens r slot inner opened)
    (hslot : 0 ≤ slot) (inst : Instance) (r' s' : Nat) :
    (opened.setInstance r slot.toNat inst).instance? r' s' =
      if r' = r ∧ s' = slot.toNat then some inst else opened.instance? r' s' := by
  rw [instance?_setInstance_eq]
  by_cases hplace : r' = r ∧ s' = slot.toNat
  · obtain ⟨old, hold⟩ := h.exists_record hslot
    rw [if_pos hplace, if_pos ⟨hplace.1.symm, hplace.2.symm⟩, hold, Option.map_some]
  · rw [if_neg hplace, if_neg fun hc => hplace ⟨hc.1.symm, hc.2.symm⟩]

/-- A record that opening a place shows was there before, or is empty. -/
theorem ReplicaInner.Opens.cases_record {inner opened : ReplicaInner} {r : Nat} {slot : Int}
    (h : Opens r slot inner opened) {r' s' : Nat} {inst : Instance} (hinst : opened.instance? r' s' = some inst) :
    inner.instance? r' s' = some inst ∨ inst = Instance.new inner.n := by
  rw [h.records] at hinst
  rcases Option.or_eq_some_iff.mp hinst with hold | ⟨-, hnew⟩
  · exact Or.inl hold
  · split at hnew
    · cases hnew
      exact Or.inr rfl
    · cases hnew

theorem ReplicaInner.Opens.keeps {inner opened : ReplicaInner} {r : Nat} {slot : Int} (h : Opens r slot inner opened)
    {r' s' : Nat} {inst : Instance} (hinst : inner.instance? r' s' = some inst) :
    opened.instance? r' s' = some inst := by
  rw [h.records, hinst, Option.some_or]

end Quorums.Epaxos
