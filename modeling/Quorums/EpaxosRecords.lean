import Quorums.EpaxosJobs

/-! What the jobs of a replica leave of its instance records. A commit respects a record that is committed;
a PreAccept or an Accept looks at neither the status of the record it overwrites nor its ballot, and a
Prepare leaves nothing behind that a later message could be measured against. -/

namespace Quorums.Epaxos

open ReplicaInner

/-! ### Committed records -/

/-- The instance is committed here. -/
def ReplicaInner.Committed (inner : ReplicaInner) (r : Nat) (slot : Int) : Prop :=
  ∃ inst, inner.record? r slot = some inst ∧ inst.status = .committed

/-- What is committed in `rep` is committed with the same value in `rep'`. -/
def Replica.KeepsCommits (rep rep' : Replica) : Prop :=
  ∀ r s inst, rep.inner.instance? r s = some inst → inst.status = .committed →
    ∃ inst', rep'.inner.instance? r s = some inst' ∧ inst'.status = .committed ∧ inst'.value = inst.value

/-- The job is not a PreAccept or an Accept that is carried out for an instance that is committed. -/
def Replica.SparesCommits (rt : Runtime) (rep : Replica) : Job → Prop
  | .serve (.preAccept req) => rep.poisoned = false → ¬Overflows rt rep.inner.conflicts req.cmds →
      ¬rep.inner.Committed (asUsize req.replica) req.slot
  | .serve (.accept req) => rep.poisoned = false → ¬rep.inner.Committed (asUsize req.replica) req.slot
  | _ => True

section Commits

variable {rt : Runtime} {rep rep' rep'' : Replica} {job : Job} {reply : Option Reply}

theorem Replica.KeepsCommits.refl (rep : Replica) : rep.KeepsCommits rep :=
  fun _ _ inst hinst hstatus => ⟨inst, hinst, hstatus, rfl⟩

theorem Replica.KeepsCommits.trans (h : rep.KeepsCommits rep') (h' : rep'.KeepsCommits rep'') :
    rep.KeepsCommits rep'' := by
  intro r s inst hinst hstatus
  obtain ⟨inst', hinst', hstatus', hvalue⟩ := h r s inst hinst hstatus
  obtain ⟨inst'', hinst'', hstatus'', hvalue'⟩ := h' r s inst' hinst' hstatus'
  exact ⟨inst'', hinst'', hstatus'', hvalue'.trans hvalue⟩

theorem Replica.KeepsCommits.of_instances (h : rep'.inner.instances = rep.inner.instances) : rep.KeepsCommits rep' := by
  intro r s inst hinst hstatus
  refine ⟨inst, ?_, hstatus, rfl⟩
  rw [instance?, h]
  exact hinst

theorem committed_iff {inner : ReplicaInner} {r : Nat} {slot : Int} (hslot : 0 ≤ slot) :
    inner.Committed r slot ↔ ∃ inst, inner.instance? r slot.toNat = some inst ∧ inst.status = .committed := by
  rw [Committed, record?, if_neg (by omega)]

/-- The places that are committed are those of a replica. -/
theorem ReplicaInner.Committed.place {inner : ReplicaInner} (h : inner.Framed) {r : Nat} {slot : Int}
    (hcommitted : inner.Committed r slot) : r < inner.n ∧ 0 ≤ slot := by
  obtain ⟨inst, hinst, -⟩ := hcommitted
  rw [record?] at hinst
  split at hinst
  · cases hinst
  · obtain ⟨row, hrow, -⟩ := Option.bind_eq_some_iff.mp hinst
    rw [← h.rows]
    exact ⟨(List.getElem?_eq_some_iff.mp hrow).1, by omega⟩

/-- A record with another status is written over whatever stands there. -/
theorem keepsCommits_write {opened : ReplicaInner} {r : Nat} {slot : Int} (h : Opens r slot rep.inner opened)
    (hslot : 0 ≤ slot) {inst : Instance} (hstatus : inst.status ≠ .committed)
    (hinstances : rep'.inner.instances = (opened.setInstance r slot.toNat inst).instances) :
    rep.KeepsCommits rep' ↔ ¬rep.inner.Committed r slot := by
  have hrecords (r' s' : Nat) : rep'.inner.instance? r' s' =
      if r' = r ∧ s' = slot.toNat then some inst else opened.instance? r' s' := by
    rw [← instance?_write h hslot, instance?, hinstances]
    rfl
  rw [committed_iff hslot]
  constructor
  · rintro hkeeps ⟨old, hold, hcommitted⟩
    obtain ⟨inst', hinst', hstatus', -⟩ := hkeeps r slot.toNat old hold hcommitted
    rw [hrecords, if_pos ⟨rfl, rfl⟩] at hinst'
    cases hinst'
    exact hstatus hstatus'
  · intro hnot r' s' old hold hcommitted
    refine ⟨old, ?_, hcommitted, rfl⟩
    rw [hrecords, if_neg fun hplace => hnot ⟨old, by rw [← hplace.1, ← hplace.2]; exact hold, hcommitted⟩]
    exact h.keeps hold

theorem keepsCommits_settles {r : Nat} {slot : Int} {v : Value} {mid : ReplicaInner} {duplicate : Bool}
    (h : Settles rep.inner r slot v mid duplicate) (hslot : 0 ≤ slot)
    (hinstances : rep'.inner.instances = mid.instances) : rep.KeepsCommits rep' := by
  intro r' s' old hold hcommitted
  have hsame : rep'.inner.instance? r' s' = mid.instance? r' s' := by rw [instance?, hinstances]; rfl
  rw [hsame]
  cases h with
  | duplicate hopens => exact ⟨old, hopens.keeps hold, hcommitted, rfl⟩
  | written hopens hinst hstatus =>
      refine ⟨old, ?_, hcommitted, rfl⟩
      rw [instance?_write hopens hslot]
      have hkept := hopens.keeps hold
      rw [if_neg fun hplace => ?_]
      · exact hkept
      · rw [hplace.1, hplace.2, hinst] at hkept
        cases hkept
        exact hstatus hcommitted

theorem sparesCommits_of_commits (rep : Replica) {r : Nat} {slot : Int} {v : Value}
    (hjob : job.commits = some (r, slot, v)) : rep.SparesCommits rt job := by
  cases job with
  | startProposal | commitLocal => trivial
  | serve req =>
      cases req with
      | preAccept | accept => cases hjob
      | commit | prepare | tryPreAccept => trivial

/-- A job keeps what is committed, exactly when it is not a PreAccept or an Accept that writes over it. -/
theorem Works.keepsCommits_iff (hworks : Works rt rep job rep' reply) (h : rep.inner.Framed) :
    rep.KeepsCommits rep' ↔ rep.SparesCommits rt job := by
  cases hworks with
  | refused hlock =>
      refine iff_of_true (.refl rep) ?_
      unfold Replica.SparesCommits
      split
      · exact fun hopen => absurd (hlock.symm.trans hopen) nofun
      · exact fun hopen => absurd (hlock.symm.trans hopen) nofun
      · trivial
  | started _ hstart =>
      obtain ⟨next, conflicts, rfl, -⟩ := touched_of_startProposal h hstart
      exact iff_of_true (.of_instances rfl) trivial
  | startPanic | prepared | tried | tryPanic => exact iff_of_true (.of_instances rfl) trivial
  | preAccepted hlock hr hslot hregisters =>
      have hfits := hregisters.fits
      cases hregisters with
      | mk hopens =>
          rw [keepsCommits_write hopens hslot Status.noConfusion rfl]
          exact ⟨fun hnot _ _ => hnot, fun hspares => hspares hlock hfits⟩
  | preAcceptPanic hlock hpanic =>
      refine iff_of_true (.of_instances rfl) fun _ hfits hcommitted => ?_
      obtain ⟨hr, hslot⟩ := hcommitted.place h
      exact hfits (hpanic hr hslot)
  | accepted hlock hr hslot hopens =>
      rw [keepsCommits_write hopens hslot Status.noConfusion rfl]
      exact ⟨fun hnot _ => hnot, fun hspares => hspares hlock⟩
  | acceptPanic hlock hpanic =>
      exact iff_of_true (.of_instances rfl) fun _ hcommitted => hpanic (hcommitted.place h)
  | committed hlock hjob _ hslot hsettles hinstances =>
      exact iff_of_true (keepsCommits_settles hsettles hslot hinstances) (sparesCommits_of_commits rep hjob)
  | commitPanic hlock hjob => exact iff_of_true (.of_instances rfl) (sparesCommits_of_commits rep hjob)

end Commits

/-- In every run of a replica, a committed instance keeps its commands, its attributes and its status from
any moment to any later one, exactly when no PreAccept and no Accept is carried out for an instance that is
committed at that moment. -/
theorem committed_stays_iff (rt : Runtime) (id n : Nat) {jobs : List Job} (hjobs : ∀ job ∈ jobs, job.Fits) :
    (∀ pre mid post rep rep', jobs = pre ++ mid ++ post →
      Transition.run (Replica.step rt) (Replica.new id n) pre = some rep →
      Transition.run (Replica.step rt) rep mid = some rep' → rep.KeepsCommits rep') ↔
    Transition.Within (Replica.step rt) (Replica.SparesCommits rt) (Replica.new id n) jobs := by
  have htotal (rep : Replica) (job : Job) (hrep : rep.Sized n) (hjob : job.Fits) :
      ∃ rep', rep.step rt job = some rep' ∧ rep'.Sized n := hrep.step hjob
  refine Transition.forall_related_iff_within Replica.KeepsCommits.refl (fun _ _ _ => .trans) htotal
    (fun rep job rep' hrep hjob hstep => ?_) (sized_new id n) hjobs
  cases hstep
  exact (works hrep.1 hjob).keepsCommits_iff hrep.1

/-- A PreAccept, the commit of its instance, and a commit and a Prepare that come late. -/
def committedOnce : List Job :=
  [.serve (.preAccept ⟨0, 0, 0, 0, 1, [-1, -1], [putX]⟩), .serve (.commit ⟨0, 0, 0, [putX], 1, [-1, -1]⟩),
    .commitLocal 0 0 ⟨[], 0, [-1, -1]⟩, .serve (.prepare ⟨1, 0, 0, 1⟩)]

theorem committed_stays_iff_committedOnce :
    Transition.Within (Replica.step plainRuntime) (Replica.SparesCommits plainRuntime) (Replica.new 0 2)
      committedOnce ∧
    ∀ pre mid post rep rep', committedOnce = pre ++ mid ++ post →
      Transition.run (Replica.step plainRuntime) (Replica.new 0 2) pre = some rep →
      Transition.run (Replica.step plainRuntime) rep mid = some rep' → rep.KeepsCommits rep' := by
  have hfits : ∀ job ∈ committedOnce, job.Fits := by simp [committedOnce, Job.Fits]
  have hspares : Transition.Within (Replica.step plainRuntime) (Replica.SparesCommits plainRuntime)
      (Replica.new 0 2) committedOnce := by
    refine ⟨fun _ _ hcommitted => ?_, fun _ _ => ⟨trivial, fun _ _ => ⟨trivial, fun _ _ => ⟨trivial,
      fun _ _ => trivial⟩⟩⟩⟩
    obtain ⟨inst, hinst, -⟩ := hcommitted
    cases hinst
  exact ⟨hspares, (committed_stays_iff plainRuntime 0 2 hfits).mpr hspares⟩

/-- The Commit of a recovery overtakes the PreAccept of the leader. -/
def overtaken : List Job :=
  [.serve (.commit ⟨1, 0, 0, [], 0, [-1, -1]⟩), .serve (.preAccept ⟨0, 0, 0, 0, 1, [-1, -1], [putX]⟩)]

theorem committed_changes_overtaken : ¬∀ pre mid post rep rep', overtaken = pre ++ mid ++ post →
    Transition.run (Replica.step plainRuntime) (Replica.new 0 2) pre = some rep →
    Transition.run (Replica.step plainRuntime) rep mid = some rep' → rep.KeepsCommits rep' := by
  intro hstays
  have hkeeps := hstays (overtaken.take 1) (overtaken.drop 1) [] _ _ rfl rfl rfl
  obtain ⟨inst, hinst, hstatus, -⟩ := hkeeps 0 0 _ rfl rfl
  cases hinst
  cases hstatus

/-! ### Promises -/

namespace Replica

/-- The replica answers a Prepare for the instance at ballot `b`, with `ok = true`. -/
def Promises (rt : Runtime) (rep : Replica) (job : Job) (key : Nat × Int) (b : Int) : Prop :=
  ∃ req reply, job = .serve (.prepare req) ∧ (Request.prepare req).key = key ∧ req.ballot = b ∧
    (rep.work rt job).2 = some (.prepare reply) ∧ reply.ok = true

/-- What a job made of the replica, and its reply, respect a promise for the instance at ballot `b`: below
it, a PreAccept or an Accept leaves the record and is not answered as a success, and a Prepare is not
answered with `ok = true`. -/
def Honours (rep : Replica) (key : Nat × Int) (b : Int) : Job → Replica × Option Reply → Prop
  | .serve (.preAccept req), result => (Request.preAccept req).key = key → req.ballot < b →
      result.1.inner.record? key.1 key.2 = rep.inner.record? key.1 key.2 ∧
      ∀ reply, result.2 = some (.preAccept reply) →
        reply.status ≠ .preaccepted ∧ reply.status ≠ .preacceptedEq
  | .serve (.accept req), result => (Request.accept req).key = key → req.ballot < b →
      result.1.inner.record? key.1 key.2 = rep.inner.record? key.1 key.2 ∧
      ∀ reply, result.2 = some (.accept reply) → reply.ok = false
  | .serve (.prepare req), result => (Request.prepare req).key = key → req.ballot < b →
      ∀ reply, result.2 = some (.prepare reply) → reply.ok = false
  | _, _ => True

/-- The job is carried out, although it has a smaller ballot than an earlier Prepare for its instance. -/
def Undercuts (rt : Runtime) (rep : Replica) (promise : PrepareRequest) : Job → Prop
  | .serve (.preAccept req) => (Request.preAccept req).key = (Request.prepare promise).key ∧
      req.ballot < promise.ballot ∧ rep.poisoned = false ∧ asUsize req.replica < rep.inner.n ∧ 0 ≤ req.slot ∧
      ¬Overflows rt rep.inner.conflicts req.cmds
  | .serve (.accept req) => (Request.accept req).key = (Request.prepare promise).key ∧
      req.ballot < promise.ballot ∧ rep.poisoned = false ∧ asUsize req.replica < rep.inner.n ∧ 0 ≤ req.slot
  | .serve (.prepare req) => (Request.prepare req).key = (Request.prepare promise).key ∧
      req.ballot < promise.ballot ∧ rep.poisoned = false
  | _ => False

end Replica

section Promises

variable {rt : Runtime} {rep rep' : Replica} {job : Job} {reply : Option Reply}

theorem honours_refused (hlock : rep.poisoned = true) (promise : PrepareRequest) (job : Job) :
    rep.Honours (Request.prepare promise).key promise.ballot job (rep, none) ↔
      ¬rep.Undercuts rt promise job := by
  have hclosed : ¬rep.poisoned = false := fun hopen => absurd (hlock.symm.trans hopen) nofun
  cases job with
  | startProposal | commitLocal => exact iff_of_true trivial nofun
  | serve req =>
      cases req with
      | commit | tryPreAccept => exact iff_of_true trivial nofun
      | preAccept | accept =>
          exact iff_of_true (fun _ _ => ⟨rfl, nofun⟩) fun hcut => hclosed hcut.2.2.1
      | prepare => exact iff_of_true (fun _ _ => nofun) fun hcut => hclosed hcut.2.2

/-- Ballots are not compared: a job that is carried out below a promise breaks it. -/
theorem Works.honours_iff (hworks : Works rt rep job rep' reply) (promise : PrepareRequest) :
    rep.Honours (Request.prepare promise).key promise.ballot job (rep', reply) ↔
      ¬rep.Undercuts rt promise job := by
  cases hworks with
  | refused hlock => exact honours_refused hlock promise job
  | started | startPanic | tried | tryPanic => exact iff_of_true trivial nofun
  | committed _ hcommits | commitPanic _ hcommits =>
      cases job with
      | startProposal | commitLocal => exact iff_of_true trivial nofun
      | serve req =>
          cases req with
          | commit | tryPreAccept => exact iff_of_true trivial nofun
          | preAccept | accept | prepare => cases hcommits
  | preAccepted hlock hr hslot hregisters =>
      have hfits := hregisters.fits
      cases hregisters with
      | mk hopens hseq _ _ hreply =>
          constructor
          · rintro hhonours ⟨hkey, hballot, -⟩
            obtain ⟨hpre, heq⟩ := (hhonours hkey hballot).2 _ rfl
            rw [hreply] at hpre heq
            dsimp only at hpre heq
            split at hpre
            · rename_i hequal
              rw [if_pos hequal] at heq
              exact heq rfl
            · exact hpre rfl
          · intro hnot hkey hballot
            exact absurd ⟨hkey, hballot, hlock, hr, hslot, hfits⟩ hnot
  | preAcceptPanic hlock hpanic =>
      exact iff_of_true (fun _ _ => ⟨rfl, nofun⟩) fun hcut =>
        hcut.2.2.2.2.2 (hpanic hcut.2.2.2.1 hcut.2.2.2.2.1)
  | accepted hlock hr hslot hopens =>
      constructor
      · rintro hhonours ⟨hkey, hballot, -⟩
        exact absurd ((hhonours hkey hballot).2 _ rfl) nofun
      · intro hnot hkey hballot
        exact absurd ⟨hkey, hballot, hlock, hr, hslot⟩ hnot
  | acceptPanic hlock hpanic =>
      exact iff_of_true (fun _ _ => ⟨rfl, nofun⟩) fun hcut => hpanic hcut.2.2.2
  | prepared hlock =>
      constructor
      · rintro hhonours ⟨hkey, hballot, -⟩
        have hok := hhonours hkey hballot _ rfl
        rw [handlePrepareInner] at hok
        split at hok <;> cases hok
      · intro hnot hkey hballot
        exact absurd ⟨hkey, hballot, hlock⟩ hnot

theorem Replica.Undercuts.lock {promise : PrepareRequest} (h : rep.Undercuts rt promise job) :
    rep.poisoned = false := by
  cases job with
  | startProposal | commitLocal => cases h
  | serve req =>
      cases req with
      | commit | tryPreAccept => cases h
      | preAccept | accept => exact h.2.2.1
      | prepare => exact h.2.2

/-- A poisoned lock stays poisoned. -/
theorem poisoned_step (hlock : rep.poisoned = true) (hstep : rep.step rt job = some rep') :
    rep'.poisoned = true := by
  cases hstep
  cases job <;> simp [Replica.work, Replica.serve, hlock]

theorem promises_of_lock (hlock : rep.poisoned = false) (promise : PrepareRequest) :
    rep.Promises rt (.serve (.prepare promise)) (Request.prepare promise).key promise.ballot := by
  refine ⟨promise, handlePrepareInner rep.inner promise, rfl, rfl, rfl, ?_, ?_⟩
  · rw [Replica.work, serve_eq_of_lock hlock]
    rfl
  · rw [handlePrepareInner]
    split <;> rfl

end Promises

/-- In every run of a replica, a Prepare that was answered is a promise for the messages after it, exactly
when no PreAccept, Accept or Prepare is carried out with a smaller ballot than an earlier Prepare for the
same instance. -/
theorem promise_kept_iff (rt : Runtime) (id n : Nat) {jobs : List Job} (hjobs : ∀ job ∈ jobs, job.Fits) :
    (∀ pre promise mid late post rep rep' key b, jobs = pre ++ promise :: mid ++ late :: post →
      Transition.run (Replica.step rt) (Replica.new id n) pre = some rep →
      rep.Promises rt promise key b →
      Transition.run (Replica.step rt) rep (promise :: mid) = some rep' →
      rep'.Honours key b late (rep'.work rt late)) ↔
    ∀ pre promise mid late post rep', jobs = pre ++ .serve (.prepare promise) :: mid ++ late :: post →
      Transition.run (Replica.step rt) (Replica.new id n) (pre ++ .serve (.prepare promise) :: mid) = some rep' →
      ¬rep'.Undercuts rt promise late := by
  have hlate {acts post : List Job} {late : Job} {rep : Replica} {promise : PrepareRequest}
      (hsplit : jobs = acts ++ late :: post)
      (hrun : Transition.run (Replica.step rt) (Replica.new id n) acts = some rep) :
      rep.Honours (Request.prepare promise).key promise.ballot late (rep.work rt late) ↔
        ¬rep.Undercuts rt promise late := by
    have hsized : rep.Sized n := (sized_new id n).run (fun job hjob =>
      hjobs job (by rw [hsplit]; exact List.mem_append_left _ hjob)) hrun
    exact (works hsized.1 (hjobs late (by rw [hsplit]; simp))).honours_iff promise
  constructor
  · intro h pre promise mid late post rep' hsplit hrun hcut
    obtain ⟨rep, hpre, hmid⟩ := Transition.run_append_eq_some.mp hrun
    have hlock : rep.poisoned = false := by
      cases hpoisoned : rep.poisoned with
      | false => rfl
      | true =>
          have hlast : rep'.poisoned = true := Transition.run_invariant
            (fun _ _ _ hlock hstep => poisoned_step hlock hstep) hpoisoned hmid
          exact absurd (hlast.symm.trans hcut.lock) nofun
    exact (hlate hsplit hrun).mp
      (h pre _ mid late post rep rep' _ _ hsplit hpre (promises_of_lock hlock promise) hmid) hcut
  · rintro h pre job mid late post rep rep' key b hsplit hpre ⟨promise, reply, rfl, rfl, rfl, -, -⟩ hmid
    have hrun := Transition.run_append_eq_some.mpr ⟨rep, hpre, hmid⟩
    exact (hlate hsplit hrun).mpr (h pre promise mid late post rep' hsplit hrun)

/-- A Prepare, and the Accept of the same ballot. -/
def acceptedAfter : List Job := [.serve (.prepare ⟨1, 0, 0, 1⟩), .serve (.accept ⟨1, 0, 0, 1, 0, [-1, -1], []⟩)]

theorem promise_kept_iff_acceptedAfter :
    (∃ rep, Transition.run (Replica.step plainRuntime) (Replica.new 0 2) acceptedAfter = some rep) ∧
    ∀ pre promise mid late post rep rep' key b, acceptedAfter = pre ++ promise :: mid ++ late :: post →
      Transition.run (Replica.step plainRuntime) (Replica.new 0 2) pre = some rep →
      rep.Promises plainRuntime promise key b →
      Transition.run (Replica.step plainRuntime) rep (promise :: mid) = some rep' →
      rep'.Honours key b late (rep'.work plainRuntime late) := by
  have hfits : ∀ job ∈ acceptedAfter, job.Fits := by simp [acceptedAfter, Job.Fits]
  refine ⟨⟨_, rfl⟩, (promise_kept_iff plainRuntime 0 2 hfits).mpr ?_⟩
  intro pre promise mid late post rep hsplit _ hcut
  have hlen := congrArg List.length hsplit
  simp only [acceptedAfter, List.length_append, List.length_cons, List.length_nil] at hlen
  obtain rfl : pre = [] := List.length_eq_zero_iff.mp (by omega)
  obtain rfl : mid = [] := List.length_eq_zero_iff.mp (by omega)
  cases hsplit
  exact absurd hcut.2.1 (by decide)

/-- After a Prepare at ballot 1, the PreAccept of the leader arrives. -/
def undercut : List Job :=
  [.serve (.prepare ⟨1, 0, 0, 1⟩), .serve (.preAccept ⟨0, 0, 0, 0, 1, [-1, -1], [putX]⟩)]

theorem promise_broken_undercut : ¬∀ pre promise mid late post rep rep' key b,
    undercut = pre ++ promise :: mid ++ late :: post →
    Transition.run (Replica.step plainRuntime) (Replica.new 0 2) pre = some rep →
    rep.Promises plainRuntime promise key b →
    Transition.run (Replica.step plainRuntime) rep (promise :: mid) = some rep' →
    rep'.Honours key b late (rep'.work plainRuntime late) := by
  intro hkept
  have hhonours := hkept [] _ [] _ [] _ _ (0, 0) 1 rfl rfl ⟨_, _, rfl, rfl, rfl, rfl, rfl⟩ rfl
  exact (hhonours rfl (by decide)).2 _ rfl |>.2 rfl

end Quorums.Epaxos
