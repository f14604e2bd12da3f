import Quorums.EpaxosConflicts
import Quorums.EpaxosIdle

/-! What a message can do to a replica beyond its records. A job that indexes out of bounds, that asks for
more memory than there is or whose `i32` arithmetic overflows leaves the replica useless, at once or in a
later run of the executor. The handlers check some of what they read: `Prepare` and `TryPreAccept` look up
places safely, and PreAccept pads its dependencies. The rest is asked of the messages here, and a run goes
through exactly when its jobs keep to it. -/

namespace Quorums.Epaxos

open ReplicaInner

/-- The same runtime, in a build that checks `i32` arithmetic. -/
def Runtime.strict (rt : Runtime) : Runtime := { rt with checked := true }

theorem Runtime.Faithful.strict {rt : Runtime} (h : rt.Faithful) : rt.strict.Faithful := ⟨h.order, h.tarjanScc⟩

theorem Runtime.i32_of_range (rt : Runtime) {x : Int} (h : -2 ^ 31 ≤ x ∧ x < 2 ^ 31) : rt.i32 x = some x := by
  rw [Runtime.i32, if_pos h]

/-- The batch reads a `max_seq` that has no successor. -/
def Exhausted (conflicts : Conflicts) (cmds : List Command) : Prop :=
  ∃ cmd ∈ cmds, cmd.key ≠ "" ∧ ∃ entry, conflicts.lookup cmd.key = some entry ∧
    ¬(-2 ^ 31 ≤ entry.maxSeq + 1 ∧ entry.maxSeq + 1 < 2 ^ 31)

theorem overflows_iff {rt : Runtime} {conflicts : Conflicts} {cmds : List Command} :
    Overflows rt conflicts cmds ↔ rt.checked = true ∧ Exhausted conflicts cmds := Iff.rfl

theorem not_exhausted_of_joinedSeq {rt : Runtime} {conflicts : Conflicts} {cmds : List Command} {start seq : Int}
    (hchecked : rt.checked = true) (hseq : joinedSeq rt conflicts cmds start = some seq) :
    ¬Exhausted conflicts cmds := by
  intro hexhausted
  rw [joinedSeq_eq_none_iff.mpr (overflows_iff.mpr ⟨hchecked, hexhausted⟩)] at hseq
  cases hseq

theorem not_exhausted_nil (conflicts : Conflicts) : ¬Exhausted conflicts [] := by
  rintro ⟨cmd, hcmd, -⟩
  cases hcmd

/-! ### The executor -/

namespace ReplicaInner

variable {rt : Runtime} {inner inner' : ReplicaInner}

/-- The executor returns exactly where it can read the dependencies of all that is pending. -/
theorem exists_executeAllReady_iff (h : inner.Framed) (hrt : rt.Faithful) :
    (∃ inner', inner.executeAllReady rt = some inner') ↔ inner.Readable := by
  constructor
  · rintro ⟨inner', hresult⟩
    exact readable_of_executeAllReady h hresult
  · intro hreadable
    obtain ⟨nodes, groups, hgroups, -⟩ := groups_spec h.shaped_trim hrt
    rw [groups_trim hreadable] at hgroups
    exact ⟨_, by rw [executeAllReady_eq, hgroups, Option.map_some]⟩

/-- The instance has a record that is committed. -/
def HasCommitted (inner : ReplicaInner) (r : Nat) (slot : Int) : Prop :=
  ∃ inst, inner.instance? r slot.toNat = some inst ∧ inst.status = .committed

theorem Opens.hasCommitted_iff {r : Nat} {slot : Int} (h : Opens r slot inner inner') (r' : Nat) (slot' : Int) :
    inner'.HasCommitted r' slot' ↔ inner.HasCommitted r' slot' := by
  constructor
  · rintro ⟨inst, hinst, hstatus⟩
    rcases h.cases_record hinst with hold | hnew
    · exact ⟨inst, hold, hstatus⟩
    · rw [hnew] at hstatus
      cases hstatus
  · rintro ⟨inst, hinst, hstatus⟩
    exact ⟨inst, h.keeps hinst, hstatus⟩

/-- Once a value is committed the executor reads its dependencies, unless the instance was executed. -/
theorem Opens.readable_commit_iff {r : Nat} {slot : Int} {opened : ReplicaInner} (h : Opens r slot inner opened)
    (hslot : 0 ≤ slot) (hread : inner.Readable) (inst : Instance) (hstatus : inst.status = .committed) :
    (opened.setInstance r slot.toNat inst).Readable ↔
      inner.isExecuted r slot.toNat = true ∨ inner.n ≤ inst.deps.length := by
  have hn : (opened.setInstance r slot.toNat inst).n = inner.n := h.n_eq
  have hexecuted (r' s' : Nat) : (opened.setInstance r slot.toNat inst).isExecuted r' s' = inner.isExecuted r' s' :=
    h.executed r' s'
  constructor
  · intro hreadable
    by_contra hneither
    rw [not_or] at hneither
    have hrecord : (opened.setInstance r slot.toNat inst).recordOf (r, slot) = some inst := by
      rw [recordOf, instance?_write h hslot, if_pos ⟨rfl, rfl⟩]
    have hlive : (opened.setInstance r slot.toNat inst).Live (r, slot) := by
      refine ⟨hslot, fun hdone => hneither.1 ?_, inst, hrecord, hstatus⟩
      rw [← hexecuted]
      exact hdone.2
    have hlen := hreadable (r, slot) inst hlive hrecord
    rw [hn] at hlen
    exact hneither.2 hlen
  · intro hcovered key x hlive hrecord
    rw [hn]
    obtain ⟨hnonneg, hnot, y, hy, hycommitted⟩ := hlive
    rw [hrecord] at hy
    cases hy
    have hnot' : ¬inner.Done key := fun hdone => hnot ⟨hdone.1, by rw [hexecuted]; exact hdone.2⟩
    rw [recordOf, instance?_write h hslot] at hrecord
    split at hrecord
    · rename_i hplace
      cases hrecord
      refine hcovered.resolve_left fun hmarked => hnot' ⟨hnonneg, ?_⟩
      rw [hplace.1, hplace.2]
      exact hmarked
    · have hold := h.fewer.records key x hrecord hycommitted
      exact hread key x ⟨hnonneg, hnot', x, hold, hycommitted⟩ hold

/-! ### Room -/

/-- No row is longer than there is room for. -/
def Bounded (room : Nat) (inner : ReplicaInner) : Prop := ∀ len ∈ inner.instances.map List.length, len ≤ room

variable {room : Nat}

theorem bounded_iff : inner.Bounded room ↔ ∀ r s inst, inner.instance? r s = some inst → s < room := by
  rw [Bounded, List.forall_mem_map]
  constructor
  · intro h r s inst hinst
    obtain ⟨row, hrow, hs⟩ := Option.bind_eq_some_iff.mp hinst
    exact (List.getElem?_eq_some_iff.mp hs).1.trans_le (h row (List.mem_of_getElem? hrow))
  · intro h row hrow
    by_contra hlong
    obtain ⟨r, hr⟩ := List.mem_iff_getElem?.mp hrow
    have hlast : room < row.length := Nat.lt_of_not_le hlong
    refine absurd (h r room row[room] ?_) (Nat.lt_irrefl room)
    rw [instance?, hr, Option.bind_some, List.getElem?_eq_getElem hlast]

theorem bounded_new (id n : Nat) : (ReplicaInner.new id n).Bounded room := by
  intro len hlen
  obtain ⟨row, hrow, rfl⟩ := List.mem_map.mp hlen
  rw [(List.mem_replicate.mp hrow).2]
  exact Nat.zero_le room

theorem bounded_setInstance (r s : Nat) (inst : Instance) :
    (inner.setInstance r s inst).Bounded room ↔ inner.Bounded room := by
  have hlengths : (inner.setInstance r s inst).instances.map List.length = inner.instances.map List.length := by
    refine List.ext_getElem? fun i => ?_
    rw [setInstance, List.getElem?_map, List.getElem?_map, List.getElem?_modify]
    cases inner.instances[i]? with
    | none => rfl
    | some row =>
        simp only [Option.map_some]
        split <;> simp
  rw [Bounded, hlengths]
  rfl

/-- A row grows up to the slot that is opened. -/
theorem Opens.bounded_iff {r : Nat} {slot : Int} (h : Opens r slot inner inner') (hslot : 0 ≤ slot) :
    inner'.Bounded room ↔ inner.Bounded room ∧ slot.toNat < room := by
  rw [ReplicaInner.bounded_iff, ReplicaInner.bounded_iff]
  constructor
  · intro hbound
    obtain ⟨inst, hinst⟩ := h.exists_record hslot
    exact ⟨fun r' s x hx => hbound r' s x (h.keeps hx), hbound r slot.toNat inst hinst⟩
  · rintro ⟨hbound, hroom⟩ r' s inst hinst
    rw [h.records] at hinst
    rcases Option.or_eq_some_iff.mp hinst with hold | ⟨-, hnew⟩
    · exact hbound r' s inst hold
    · split at hnew
      · rename_i hplace
        omega
      · cases hnew

end ReplicaInner

/-! ### What is asked of a job -/

/-- The place that a job opens. -/
def Job.place : Job → Option (Nat × Int)
  | .serve (.preAccept req) | .serve (.accept req) => some (asUsize req.replica, req.slot)
  | .serve (.commit req) => some (asUsize req.replica, req.slot)
  | .commitLocal r slot _ => some (r, slot)
  | .startProposal _ | .serve (.prepare _) | .serve (.tryPreAccept _) => none

/-- The batch whose keys a job looks up to compute a sequence number. -/
def Job.batch : Job → List Command
  | .startProposal cmds => cmds
  | .serve (.preAccept req) => req.cmds
  | _ => []

/-- The job is a request that is to be replied to. -/
def Job.asks : Job → Bool
  | .serve (.commit _) | .startProposal _ | .commitLocal _ _ _ => false
  | .serve _ => true

/-- A commit opens the place of its instance, looks up no key and is not replied to. -/
theorem Job.commits_cases {job : Job} {r : Nat} {slot : Int} {v : Value} (h : job.commits = some (r, slot, v)) :
    job.place = some (r, slot) ∧ job.batch = [] ∧ job.asks = false := by
  cases job with
  | serve req =>
      cases req with
      | commit req =>
          cases h
          exact ⟨rfl, rfl, rfl⟩
      | preAccept | accept | prepare | tryPreAccept => cases h
  | commitLocal =>
      cases h
      exact ⟨rfl, rfl, rfl⟩
  | startProposal => cases h

/-- The job does no harm to the replica: the place it opens is one of the cluster with room for it, the
executor will find all dependencies of what it commits, and the numbers it counts up have successors. -/
structure Job.Harmless (room : Nat) (rep : Replica) (job : Job) : Prop where
  place : ∀ r slot, job.place = some (r, slot) → r < rep.inner.n ∧ 0 ≤ slot ∧ slot.toNat < room
  deps : ∀ r slot v, job.commits = some (r, slot, v) →
    rep.inner.n ≤ v.deps.length ∨ rep.inner.isExecuted r slot.toNat = true ∨ rep.inner.HasCommitted r slot
  seqs : ¬Exhausted rep.inner.conflicts job.batch
  starts : ∀ cmds, job = .startProposal cmds →
    rep.inner.id < rep.inner.n ∧ rep.inner.curSlot + 1 < 2 ^ 31

/-- A job that neither commits nor starts a proposal is harmless by its place and its batch. -/
theorem Job.Harmless.of_plain {room : Nat} {rep : Replica} {job : Job}
    (hplace : ∀ r slot, job.place = some (r, slot) → r < rep.inner.n ∧ 0 ≤ slot ∧ slot.toNat < room)
    (hseqs : ¬Exhausted rep.inner.conflicts job.batch) (hcommits : job.commits = none)
    (hstarts : ∀ cmds, job ≠ .startProposal cmds) : job.Harmless room rep where
  place := hplace
  deps r slot v heq := by
    rw [hcommits] at heq
    cases heq
  seqs := hseqs
  starts cmds heq := absurd heq (hstarts cmds)

/-- The job is done as it should be: the lock is open, no index is out of bounds and no `i32` operation
overflows, whether the build checks for it or not, no row outgrows the room, and a request is replied to. -/
structure Served (room : Nat) (rt : Runtime) (rep : Replica) (job : Job) : Prop where
  lock : rep.poisoned = false
  sound : (rep.work rt.strict job).1.poisoned = false
  bounded : (rep.work rt.strict job).1.inner.Bounded room
  answered : job.asks = true → (rep.work rt job).2.isSome = true

/-- What holds of a replica to which no harm was done. -/
structure Replica.Healthy (room : Nat) (rep : Replica) : Prop where
  lock : rep.poisoned = false
  framed : rep.inner.Framed
  resting : rep.inner.Resting
  bounded : rep.inner.Bounded room
  slots : 0 ≤ rep.inner.curSlot ∧ rep.inner.curSlot < 2 ^ 31

theorem Replica.healthy_new (room id n : Nat) : (Replica.new id n).Healthy room where
  lock := rfl
  framed := framed_new id n
  resting := resting_new id n
  bounded := bounded_new id n
  slots := ⟨le_rfl, show (0 : Int) < 2 ^ 31 by decide⟩

section Jobs

variable {rt : Runtime} {room : Nat} {rep rep' : Replica} {job : Job} {reply : Option Reply}

/-! ### What keeps the lock open -/

theorem exists_startProposal (rt : Runtime) (h : rep.Healthy room) {cmds : List Command}
    (hharm : (Job.startProposal cmds).Harmless room rep) :
    ∃ result, rep.inner.startProposal rt cmds = some result := by
  obtain ⟨hid, hnext⟩ := hharm.starts cmds rfl
  obtain ⟨hnonneg, hi32⟩ := h.slots
  have hlen : (joinedDeps rep.inner.conflicts cmds (List.replicate rep.inner.n (-1))).length = rep.inner.n :=
    length_joinedDeps h.framed.known List.length_replicate
  obtain ⟨seq, hseq⟩ : ∃ seq, joinedSeq rt rep.inner.conflicts cmds 1 = some seq :=
    exists_joinedSeq fun hover => hharm.seqs (overflows_iff.mp hover).2
  obtain ⟨conflicts, htouch, -⟩ := touchConflicts_spec rep.inner.curSlot seq cmds hid h.framed.known
  rw [startProposal_eq h.framed.known, rt.i32_of_range ⟨by omega, hnext⟩, hseq]
  simp only [Option.bind_eq_bind, Option.bind_some, htouch,
    capSelf_eq (hid.trans_eq hlen.symm) hnonneg hi32]
  exact ⟨_, rfl⟩

/-- A commit by whichever path goes through: on a duplicate the executor has nothing to do. -/
theorem exists_commit (h : rep.Healthy room) (hrt : rt.Faithful) {r : Nat} {slot : Int} {v : Value}
    (hjob : job.commits = some (r, slot, v)) (hplace : job.place = some (r, slot))
    (hharm : job.Harmless room rep) : ∃ mid duplicate inner',
      recordCommit rep.inner r slot v = some (mid, duplicate) ∧ mid.executeAllReady rt = some inner' := by
  obtain ⟨hr, hslot, -⟩ := hharm.place r slot hplace
  obtain ⟨mid, duplicate, hrecord, hsettles⟩ := exists_settles h.framed hr hslot v
  refine ⟨mid, duplicate, ?_⟩
  cases hsettles with
  | duplicate hopens hinst hstatus =>
      have hrest := h.resting.of_fewer hopens.fewer
      exact ⟨_, hrecord, hrest.executeAllReady_eq_self hopens.framed hrt⟩
  | @written opened inst hopens hinst hstatus =>
      have hnot : ¬rep.inner.HasCommitted r slot := by
        rw [← hopens.hasCommitted_iff]
        rintro ⟨x, hx, hcommitted⟩
        cases hx.symm.trans hinst
        exact hstatus hcommitted
      have hcovered : rep.inner.isExecuted r slot.toNat = true ∨ rep.inner.n ≤ v.deps.length := by
        rcases hharm.deps r slot v hjob with hlen | hexecuted | hcommitted
        · exact Or.inr hlen
        · exact Or.inl hexecuted
        · exact absurd hcommitted hnot
      have hreadable := (hopens.readable_commit_iff hslot h.resting.1
        ⟨v.cmds, v.seq, v.deps, .committed, inst.ballot⟩ rfl).mpr hcovered
      obtain ⟨inner', hresult⟩ :=
        (exists_executeAllReady_iff (hopens.framed.setInstance r slot.toNat _) hrt).mpr hreadable
      exact ⟨inner', hrecord, hresult⟩

/-- A harmless job does not panic. -/
theorem Job.Harmless.unpoisoned (h : rep.Healthy room) (hrt : rt.Faithful) (hfits : job.Fits)
    (hharm : job.Harmless room rep) : (rep.work rt job).1.poisoned = false := by
  have hlock := h.lock
  cases job with
  | startProposal cmds =>
      obtain ⟨result, hstart⟩ := exists_startProposal rt h hharm
      rw [Replica.work, if_neg (by simp [hlock]), hstart]
      exact hlock
  | commitLocal r slot v =>
      obtain ⟨mid, duplicate, inner', hrecord, hresult⟩ := exists_commit h hrt rfl rfl hharm
      have hcommit : Epaxos.commitLocal rt rep.inner r slot v = some inner' := by
        rw [Epaxos.commitLocal, hrecord]
        exact hresult
      rw [work_commitLocal hlock, hcommit]
      exact hlock
  | serve req =>
      cases req with
      | preAccept req =>
          obtain ⟨hr, hslot, -⟩ := hharm.place _ _ rfl
          obtain ⟨seq, hseq⟩ : ∃ seq, joinedSeq rt rep.inner.conflicts req.cmds req.seq = some seq :=
            exists_joinedSeq fun hover => hharm.seqs (overflows_iff.mp hover).2
          obtain ⟨inner', reply, hhandle, -⟩ := exists_registers h.framed hr hslot hfits.2 hseq
          rw [Replica.work, serve_eq_of_lock hlock, handle, hhandle]
          exact hlock
      | accept req =>
          obtain ⟨hr, hslot, -⟩ := hharm.place _ _ rfl
          obtain ⟨opened, -, hhandle⟩ := accept_opens h.framed hr hslot
          rw [Replica.work, serve_eq_of_lock hlock, handle, hhandle]
          exact hlock
      | commit req =>
          obtain ⟨mid, duplicate, inner', hrecord, hresult⟩ := exists_commit h hrt rfl rfl hharm
          rw [work_commit hlock, handleCommitInner, hrecord, Option.bind_eq_bind, Option.bind_some]
          cases duplicate with
          | true => exact hlock
          | false =>
              simp only [Bool.false_eq_true, if_false, hresult]
              exact hlock
      | prepare req =>
          rw [Replica.work, serve_eq_of_lock hlock, handle]
          exact hlock
      | tryPreAccept req =>
          obtain ⟨reply, hreply, -⟩ := handleTryPreAccept_ok h.framed req
          rw [Replica.work, serve_eq_of_lock hlock, handle, hreply]
          exact hlock

/-! ### What a job that does not panic has met -/

/-- The rows grow up to the place that is opened. -/
theorem Works.bounded_iff (hworks : Works rt rep job rep' reply) (hlock : rep.poisoned = false)
    (hlock' : rep'.poisoned = false) (hframed : rep.inner.Framed) :
    rep'.inner.Bounded room ↔
      rep.inner.Bounded room ∧ ∀ r slot, job.place = some (r, slot) → slot.toNat < room := by
  have hnone (hplace : job.place = none) : rep.inner.Bounded room ↔
      rep.inner.Bounded room ∧ ∀ r slot, job.place = some (r, slot) → slot.toNat < room :=
    ⟨fun hbound => ⟨hbound, fun r slot hsome => by rw [hplace] at hsome; cases hsome⟩, fun hbound => hbound.1⟩
  have hsome {r : Nat} {slot : Int} (hplace : job.place = some (r, slot)) :
      (rep.inner.Bounded room ∧ slot.toNat < room) ↔
        rep.inner.Bounded room ∧ ∀ r slot, job.place = some (r, slot) → slot.toNat < room := by
    refine and_congr_right fun _ => ⟨fun hroom r' slot' heq => ?_, fun hroom => hroom r slot hplace⟩
    rw [hplace] at heq
    cases heq
    exact hroom
  cases hworks with
  | refused hpoisoned =>
      rw [hlock] at hpoisoned
      cases hpoisoned
  | startPanic | preAcceptPanic | acceptPanic | commitPanic | tryPanic => cases hlock'
  | started _ hstart =>
      obtain ⟨next, conflicts, rfl, -⟩ := touched_of_startProposal hframed hstart
      exact hnone rfl
  | preAccepted _ _ hslot hregisters =>
      cases hregisters with
      | mk hopens =>
          rw [bounded_setInstance, ← hsome rfl]
          exact hopens.bounded_iff hslot
  | accepted _ _ hslot hopens =>
      rw [bounded_setInstance, ← hsome rfl]
      exact hopens.bounded_iff hslot
  | @committed _ r slot v mid inner' _ _ _ hjob _ hslot hsettles hinstances =>
      have hplace : job.place = some (r, slot) := (Job.commits_cases hjob).1
      have hsame : inner'.Bounded room ↔ mid.Bounded room := by rw [Bounded, hinstances]; rfl
      rw [hsame, ← hsome hplace]
      cases hsettles with
      | duplicate hopens => exact hopens.bounded_iff hslot
      | written hopens =>
          rw [bounded_setInstance]
          exact hopens.bounded_iff hslot
  | prepared => exact hnone rfl
  | tried => exact hnone rfl

/-- A job that keeps the lock open in a strict build, and the rows within the room, is harmless. -/
theorem Works.harmless (hworks : Works rt rep job rep' reply) (hchecked : rt.checked = true)
    (h : rep.Healthy room) (hlock' : rep'.poisoned = false) (hbounded : rep'.inner.Bounded room) :
    job.Harmless room rep := by
  have hroom := ((hworks.bounded_iff h.lock hlock' h.framed).mp hbounded).2
  cases hworks with
  | refused hpoisoned =>
      rw [h.lock] at hpoisoned
      cases hpoisoned
  | startPanic | preAcceptPanic | acceptPanic | commitPanic | tryPanic => cases hlock'
  | started _ hstart =>
      obtain ⟨next, conflicts, rfl, hid, -, hseq, -⟩ := touched_of_startProposal h.framed hstart
      refine ⟨by rintro _ _ ⟨⟩, by rintro _ _ _ ⟨⟩, fun hexhausted => ?_, fun cmds heq => ?_⟩
      · exact not_exhausted_of_joinedSeq hchecked hseq hexhausted
      · cases heq
        refine ⟨hid, ?_⟩
        by_contra hlast
        have hnone : rt.i32 (rep.inner.curSlot + 1) = none :=
          i32_eq_none_iff.mpr ⟨hchecked, fun hrange => hlast hrange.2⟩
        rw [startProposal_eq h.framed.known, hnone] at hstart
        cases hstart
  | preAccepted _ hr hslot hregisters =>
      refine .of_plain (fun r slot hplace => ?_)
        (fun hexhausted => hregisters.fits (overflows_iff.mpr ⟨hchecked, hexhausted⟩)) rfl (by rintro _ ⟨⟩)
      cases hplace
      exact ⟨hr, hslot, hroom _ _ rfl⟩
  | accepted _ hr hslot hopens =>
      refine .of_plain (fun r slot hplace => ?_) (not_exhausted_nil _) rfl (by rintro _ ⟨⟩)
      cases hplace
      exact ⟨hr, hslot, hroom _ _ rfl⟩
  | @committed _ r slot v mid inner' duplicate _ _ hjob hr hslot hsettles _ _ _ hexecuted =>
      have hplace : job.place = some (r, slot) := (Job.commits_cases hjob).1
      refine ⟨fun r' slot' heq => ?_, fun r' slot' v' heq => ?_, ?_, fun cmds heq => ?_⟩
      · have hroom' := hroom r' slot' heq
        rw [hplace] at heq
        cases heq
        exact ⟨hr, hslot, hroom'⟩
      · rw [hjob] at heq
        cases heq
        rcases hexecuted hlock' with ⟨hduplicate, -⟩ | hresult
        · cases hsettles with
          | duplicate hopens hinst hstatus =>
              exact Or.inr (Or.inr ((hopens.hasCommitted_iff r slot).mp ⟨_, hinst, hstatus⟩))
          | written => cases hduplicate
        · cases hsettles with
          | duplicate hopens hinst hstatus =>
              exact Or.inr (Or.inr ((hopens.hasCommitted_iff r slot).mp ⟨_, hinst, hstatus⟩))
          | @written opened inst hopens hinst hstatus =>
              have hframed := hopens.framed.setInstance r slot.toNat
                ⟨v.cmds, v.seq, v.deps, .committed, inst.ballot⟩
              have hreadable := readable_of_executeAllReady hframed hresult
              have hcovered := (hopens.readable_commit_iff hslot h.resting.1 _ rfl).mp hreadable
              exact hcovered.symm.imp_right Or.inl
      · rw [(Job.commits_cases hjob).2.1]
        exact not_exhausted_nil _
      · rw [heq] at hjob
        cases hjob
  | prepared | tried => exact .of_plain (by rintro _ _ ⟨⟩) (not_exhausted_nil _) rfl (by rintro _ ⟨⟩)

/-! ### Runs -/

theorem Works.answered (hworks : Works rt rep job rep' reply) (hlock : rep.poisoned = false)
    (hlock' : rep'.poisoned = false) (hasks : job.asks = true) : reply.isSome = true := by
  cases hworks with
  | refused hpoisoned =>
      rw [hlock] at hpoisoned
      cases hpoisoned
  | startPanic | preAcceptPanic | acceptPanic | commitPanic | tryPanic => cases hlock'
  | started => cases hasks
  | committed _ hjob =>
      rw [(Job.commits_cases hjob).2.2] at hasks
      cases hasks
  | preAccepted | accepted | prepared | tried => rfl

/-- Only `start_proposal` moves the counter of slots. -/
theorem Works.curSlot_eq (hworks : Works rt rep job rep' reply) (hjob : ∀ cmds, job ≠ .startProposal cmds) :
    rep'.inner.curSlot = rep.inner.curSlot := by
  cases hworks with
  | refused | preAcceptPanic | acceptPanic | commitPanic | tryPanic | prepared | tried => rfl
  | started | startPanic => exact absurd rfl (hjob _)
  | preAccepted _ _ _ hregisters =>
      cases hregisters with
      | mk hopens => exact hopens.curSlot_eq
  | accepted _ _ _ hopens => exact hopens.curSlot_eq
  | committed _ _ _ _ hsettles _ hframe =>
      refine hframe.curSlot_eq.trans ?_
      cases hsettles with
      | duplicate hopens => exact hopens.curSlot_eq
      | written hopens => exact hopens.curSlot_eq

theorem Replica.Healthy.slots_work (h : rep.Healthy room) (hfits : job.Fits) (hharm : job.Harmless room rep) :
    0 ≤ (rep.work rt job).1.inner.curSlot ∧ (rep.work rt job).1.inner.curSlot < 2 ^ 31 := by
  have hworks : Works rt rep job _ _ := works h.framed hfits
  by_cases hstart : ∃ cmds, job = .startProposal cmds
  · obtain ⟨cmds, rfl⟩ := hstart
    obtain ⟨hnonneg, -⟩ := h.slots
    obtain ⟨-, hnext⟩ := hharm.starts cmds rfl
    obtain ⟨⟨inner', slot, seq, deps⟩, hsome⟩ := exists_startProposal rt h hharm
    have hwork : (rep.work rt (.startProposal cmds)).1.inner = inner' := by
      rw [Replica.work, if_neg (by simp [h.lock]), hsome]
      rfl
    rw [startProposal_eq h.framed.known, rt.i32_of_range ⟨by omega, hnext⟩] at hsome
    simp only [Option.bind_eq_bind, Option.bind_some, Option.bind_eq_some_iff] at hsome
    obtain ⟨seq', -, conflicts, -, capped, -, hresult⟩ := hsome
    cases hresult
    rw [hwork]
    exact ⟨by dsimp only; omega, hnext⟩
  · rw [hworks.curSlot_eq fun cmds heq => hstart ⟨cmds, heq⟩]
    exact h.slots

/-- What a harmless job leaves is as it was. -/
theorem Replica.Healthy.work (h : rep.Healthy room) (hrt : rt.Faithful) (hfits : job.Fits)
    (hharm : job.Harmless room rep) : (rep.work rt job).1.Healthy room := by
  have hlock := hharm.unpoisoned h hrt hfits
  have hworks : Works rt rep job _ _ := works h.framed hfits
  refine ⟨hlock, (hworks.framed h.framed).1, hworks.resting h.framed hrt (fun _ => h.resting) hlock, ?_,
    h.slots_work hfits hharm⟩
  refine (hworks.bounded_iff h.lock hlock h.framed).mpr ⟨h.bounded, fun r slot hplace => ?_⟩
  exact (hharm.place r slot hplace).2.2

/-- One job: it is served exactly when it is harmless. -/
theorem served_iff (h : rep.Healthy room) (hrt : rt.Faithful) (hfits : job.Fits) :
    Served room rt rep job ↔ job.Harmless room rep := by
  have hstrict : Works rt.strict rep job _ _ := works h.framed hfits
  constructor
  · intro hserved
    exact hstrict.harmless rfl h hserved.sound hserved.bounded
  · intro hharm
    have hsound := hharm.unpoisoned h hrt.strict hfits
    have hworks : Works rt rep job _ _ := works h.framed hfits
    refine ⟨h.lock, hsound, ?_, hworks.answered h.lock (hharm.unpoisoned h hrt hfits)⟩
    exact (hstrict.bounded_iff h.lock hsound h.framed).mpr
      ⟨h.bounded, fun r slot hplace => (hharm.place r slot hplace).2.2⟩

end Jobs

/-- In every run of a replica, whatever the jobs are, all of them are served if and only if each is harmless in
the state in which it is done. -/
theorem served_iff_harmless {rt : Runtime} (hrt : rt.Faithful) (id n room : Nat) {jobs : List Job}
    (hjobs : ∀ job ∈ jobs, job.Fits) :
    (∀ pre job post rep, jobs = pre ++ job :: post →
        Transition.run (Replica.step rt) (Replica.new id n) pre = some rep → Served room rt rep job) ↔
      ∀ pre job post rep, jobs = pre ++ job :: post →
        Transition.run (Replica.step rt) (Replica.new id n) pre = some rep → job.Harmless room rep := by
  rw [← Transition.within_iff, ← Transition.within_iff]
  have hiff (rep : Replica) (job : Job) (hrep : rep.Healthy room) (hfits : job.Fits) :
      Served room rt rep job ↔ job.Harmless room rep := served_iff hrep hrt hfits
  refine Transition.within_congr hiff (fun rep job rep' hrep hfits hserved hstep => ?_)
    (Replica.healthy_new room id n) hjobs
  cases hstep
  exact hrep.work hrt hfits ((hiff rep job hrep hfits).mp hserved)

/-- An Accept, and a Prepare for a place that is none. -/
def harmlessJobs : List Job :=
  [.serve (.accept ⟨0, 0, 0, 0, 1, [], [putX]⟩), .serve (.prepare ⟨1, -1, -5, 1⟩)]

theorem served_iff_harmless_prepare : ∃ rep,
    Transition.run (Replica.step singleRuntime) (Replica.new 0 2)
        [.serve (.accept ⟨0, 0, 0, 0, 1, [], [putX]⟩)] = some rep ∧
      Served 1 singleRuntime rep (.serve (.prepare ⟨1, -1, -5, 1⟩)) := by
  have hfits : ∀ job ∈ harmlessJobs, job.Fits := by simp [harmlessJobs, Job.Fits]
  have hserved := (served_iff_harmless faithful_singleRuntime 0 2 1 hfits).mpr ?_
  · exact ⟨_, rfl, hserved [_] _ [] _ rfl rfl⟩
  rw [← Transition.within_iff]
  refine Transition.within_cons rfl (.of_plain ?_ (not_exhausted_nil _) rfl (by rintro _ ⟨⟩))
    (Transition.within_cons rfl (.of_plain ?_ (not_exhausted_nil _) rfl (by rintro _ ⟨⟩)) trivial)
  · rintro _ _ ⟨⟩
    exact ⟨Nat.two_pos, le_rfl, Nat.one_pos⟩
  · rintro _ _ ⟨⟩

/-- A Commit without dependencies. -/
def bareCommit : Job := .serve (.commit ⟨0, 0, 0, [putX], 1, []⟩)

/-- A PreAccept with the highest sequence number there is, and another one on the key. -/
def lastSeq : List Job :=
  [.serve (.preAccept ⟨0, 0, 0, 0, 2 ^ 31 - 1, [-1, -1], [putX]⟩),
    .serve (.preAccept ⟨1, 1, 0, 0, 1, [-1, -1], [putX]⟩)]

/-- One message of another replica, and the lock of this one is poisoned: a Commit without dependencies, an
Accept for a replica that is none, an Accept for a negative slot, and a PreAccept after one that has taken
the last sequence number. From then on not even a Prepare is replied to. -/
theorem not_served_bareCommit :
    (∀ job ∈ [bareCommit, .serve (.accept ⟨0, 2, 0, 0, 1, [-1, -1], [putX]⟩),
        .serve (.accept ⟨0, 0, -1, 0, 1, [-1, -1], [putX]⟩)],
      job.Fits ∧ ∃ rep, Transition.run (Replica.step singleRuntime) (Replica.new 1 2) [job] = some rep ∧
        rep.poisoned = true ∧ (rep.serve singleRuntime (.prepare ⟨0, 0, 0, 1⟩)).2 = none) ∧
    (∃ rep, Transition.run (Replica.step singleRuntime) (Replica.new 1 2) lastSeq = some rep ∧
      rep.poisoned = true) ∧
    ¬∀ (rt : Runtime) (id n room : Nat) (jobs : List Job), rt.Faithful → (∀ job ∈ jobs, job.Fits) →
      2 ^ 31 ≤ room → ∀ pre job post rep, jobs = pre ++ job :: post →
        Transition.run (Replica.step rt) (Replica.new id n) pre = some rep → Served room rt rep job := by
  refine ⟨?_, ⟨_, rfl, rfl⟩, fun h => ?_⟩
  · simp only [List.forall_mem_cons, List.not_mem_nil, false_imp_iff, implies_true, and_true]
    exact ⟨⟨by simp [bareCommit, Job.Fits], _, rfl, rfl, rfl⟩, ⟨by simp [Job.Fits], _, rfl, rfl, rfl⟩,
      ⟨by simp [Job.Fits], _, rfl, rfl, rfl⟩⟩
  · have hserved := h singleRuntime 1 2 (2 ^ 31) [bareCommit] faithful_singleRuntime
      (by simp [bareCommit, Job.Fits]) le_rfl [] bareCommit [] _ rfl rfl
    cases hserved.sound

end Quorums.Epaxos
