import Quorums.EpaxosReplica

/-! The messages of `proto/epaxos.proto`, the handlers of a replica, `commit_local`, and what they do to
the instance records: each handler writes one record, the executor none. -/

namespace Quorums.Epaxos

/-- The fields of `PreAcceptRequest`, `AcceptRequest` and `TryPreAcceptRequest`. -/
structure Proposal where
  leaderId : Int
  replica : Int
  slot : Int
  ballot : Int
  seq : Int
  deps : List Int
  cmds : List Command
  deriving DecidableEq, Repr

def Proposal.value (p : Proposal) : Value := ⟨p.cmds, p.seq, p.deps⟩

structure CommitRequest where
  leaderId : Int
  replica : Int
  slot : Int
  cmds : List Command
  seq : Int
  deps : List Int
  deriving DecidableEq, Repr

def CommitRequest.value (c : CommitRequest) : Value := ⟨c.cmds, c.seq, c.deps⟩

structure PrepareRequest where
  leaderId : Int
  replica : Int
  slot : Int
  ballot : Int
  deriving DecidableEq, Repr

inductive Request where
  | preAccept (req : Proposal)
  | accept (req : Proposal)
  | commit (req : CommitRequest)
  | prepare (req : PrepareRequest)
  | tryPreAccept (req : Proposal)
  deriving DecidableEq, Repr

structure PreAcceptReply where
  replica : Int
  slot : Int
  status : Status
  ballot : Int
  seq : Int
  deps : List Int
  committedDeps : List Int
  deriving DecidableEq, Repr

structure AcceptReply where
  replica : Int
  slot : Int
  ok : Bool
  ballot : Int
  deriving DecidableEq, Repr

structure PrepareReply where
  replica : Int
  slot : Int
  ok : Bool
  ballot : Int
  status : Status
  seq : Int
  deps : List Int
  cmds : List Command
  deriving DecidableEq, Repr

def PrepareReply.value (r : PrepareReply) : Value := ⟨r.cmds, r.seq, r.deps⟩

structure TryPreAcceptReply where
  replica : Int
  slot : Int
  ok : Bool
  ballot : Int
  conflictReplica : Int
  conflictSlot : Int
  deriving DecidableEq, Repr

inductive Reply where
  | preAccept (r : PreAcceptReply)
  | accept (r : AcceptReply)
  | prepare (r : PrepareReply)
  | tryPreAccept (r : TryPreAcceptReply)
  deriving DecidableEq, Repr

/-- `v.resize(n, -1)`. -/
def resize (n : Nat) (v : List Int) : List Int := v.take n ++ List.replicate (n - v.length) (-1)

def handlePreAcceptInner (rt : Runtime) (inner : ReplicaInner) (req : Proposal) :
    Option (ReplicaInner × PreAcceptReply) := do
  let r := asUsize req.replica
  let slot := req.slot
  let inner ← inner.ensureSlot r slot
  let n := inner.n
  let (localSeq, localDeps) ←
    ReplicaInner.joinConflicts rt n inner.conflicts req.cmds (req.seq, resize n req.deps)
  let localDeps ← ReplicaInner.capSelf rt r slot localDeps
  let conflicts ← ReplicaInner.touchConflicts n r slot localSeq inner.conflicts req.cmds
  let inst : Instance := ⟨req.cmds, localSeq, localDeps, .preaccepted, req.ballot⟩
  let equal := localSeq = req.seq ∧ localDeps = resize n req.deps
  return ({ inner with conflicts }.setInstance r slot.toNat inst,
    { replica := inner.id, slot, status := if equal then .preacceptedEq else .preaccepted,
      ballot := req.ballot, seq := localSeq, deps := localDeps,
      committedDeps := List.replicate n (-1) })

def handleAcceptInner (inner : ReplicaInner) (req : Proposal) : Option (ReplicaInner × AcceptReply) := do
  let r := asUsize req.replica
  let inner ← inner.ensureSlot r req.slot
  let inst : Instance := ⟨req.cmds, req.seq, req.deps, .accepted, req.ballot⟩
  return (inner.setInstance r req.slot.toNat inst, ⟨inner.id, req.slot, true, req.ballot⟩)

/-- The part of `handle_commit_inner` and `commit_local` before the executor: a record that is committed
stays. The answer says whether it was. -/
def recordCommit (inner : ReplicaInner) (r : Nat) (slot : Int) (v : Value) :
    Option (ReplicaInner × Bool) := do
  let inner ← inner.ensureSlot r slot
  let inst ← inner.instance? r slot.toNat
  if inst.status = .committed then return (inner, true)
  else
    return (inner.setInstance r slot.toNat
      { inst with cmds := v.cmds, seq := v.seq, deps := v.deps, status := .committed }, false)

/-- A duplicate commit is ignored, without a run of the executor. -/
def handleCommitInner (rt : Runtime) (inner : ReplicaInner) (req : CommitRequest) :
    Option ReplicaInner := do
  let (inner, duplicate) ← recordCommit inner (asUsize req.replica) req.slot req.value
  if duplicate then return inner else inner.executeAllReady rt

def commitLocal (rt : Runtime) (inner : ReplicaInner) (r : Nat) (slot : Int) (v : Value) :
    Option ReplicaInner := do
  let (inner, _) ← recordCommit inner r slot v
  inner.executeAllReady rt

def handlePrepareInner (inner : ReplicaInner) (req : PrepareRequest) : PrepareReply :=
  match inner.record? (asUsize req.replica) req.slot with
  | none => ⟨inner.id, req.slot, true, req.ballot, .none, 0, [], []⟩
  | some inst =>
      ⟨inner.id, req.slot, true, req.ballot, inst.status, inst.seq, inst.deps, inst.cmds⟩

/-- The first conflict of the inner loop: a slot that the dependencies do not cover and that is not the
instance itself. -/
def uncovered (req : Proposal) (known : List Int) : List Nat → Option (Option (Int × Int))
  | [] => some none
  | depR :: rest =>
      match known[depR]? with
      | none => none
      | some knownSlot =>
          let covered := req.deps[depR]?.getD (-1)
          if knownSlot < 0 then uncovered req known rest
          else if knownSlot > covered ∧ ¬ (depR = asUsize req.replica ∧ knownSlot = req.slot) then
            some (some ((depR : Int), knownSlot))
          else uncovered req known rest

/-- The first conflict over the batch. -/
def conflictOf (inner : ReplicaInner) (req : Proposal) : List Command → Option (Option (Int × Int))
  | [] => some none
  | cmd :: cmds =>
      if cmd.key.isEmpty then conflictOf inner req cmds
      else
        match inner.conflicts.lookup cmd.key with
        | none => conflictOf inner req cmds
        | some entry =>
            match uncovered req entry.deps (List.range inner.n) with
            | none => none
            | some (some conflict) => some (some conflict)
            | some none => conflictOf inner req cmds

def handleTryPreAcceptInner (inner : ReplicaInner) (req : Proposal) : Option TryPreAcceptReply :=
  let settled := ((inner.record? (asUsize req.replica) req.slot).map
    fun inst => inst.status.settled).getD false
  if settled then some ⟨inner.id, req.slot, true, req.ballot, -1, -1⟩
  else
    (conflictOf inner req req.cmds).map fun conflict =>
      match conflict with
      | none => ⟨inner.id, req.slot, true, req.ballot, -1, -1⟩
      | some (r, slot) => ⟨inner.id, req.slot, false, req.ballot, r, slot⟩

/-! ### The records after a handler -/

/-- Every accepted or committed record of `inner'` was in `inner` or is the one in `written`. -/
def RecordsFrom (written : Option ((Nat × Int) × Value)) (inner inner' : ReplicaInner) : Prop :=
  ∀ r s inst, inner'.instance? r s = some inst → inst.status.settled = true →
    inner.instance? r s = some inst ∨ written = some ((r, (s : Int)), inst.value)

variable {rt : Runtime} {inner inner' : ReplicaInner} {written : Option ((Nat × Int) × Value)}

theorem RecordsFrom.refl (inner : ReplicaInner) : RecordsFrom written inner inner :=
  fun _ _ _ hinst _ => Or.inl hinst

theorem RecordsFrom.of_instances (h : inner'.instances = inner.instances) :
    RecordsFrom written inner inner' := by
  intro r s inst hinst _
  rw [ReplicaInner.instance?, h] at hinst
  exact Or.inl hinst

theorem RecordsFrom.trans {inner'' : ReplicaInner} (h : RecordsFrom written inner inner')
    (h' : RecordsFrom written inner' inner'') : RecordsFrom written inner inner'' := by
  intro r s inst hinst hsettled
  rcases h' r s inst hinst hsettled with hinst | hwritten
  · exact h r s inst hinst hsettled
  · exact Or.inr hwritten

theorem RecordsFrom.ensureSlot {r : Nat} {slot : Int} (h : inner.ensureSlot r slot = some inner') :
    RecordsFrom written inner inner' := by
  intro r' s inst hinst hsettled
  rcases ReplicaInner.instance?_ensureSlot h hinst with hold | hnone
  · exact Or.inl hold
  · rw [hnone] at hsettled
    cases hsettled

/-- A record is written: an unsettled one, or the one announced. -/
theorem RecordsFrom.setInstance {r s : Nat} {inst : Instance}
    (h : inst.status.settled = true → written = some ((r, (s : Int)), inst.value)) :
    RecordsFrom written inner (inner.setInstance r s inst) := by
  intro r' s' x hx hsettled
  rcases ReplicaInner.instance?_setInstance hx with ⟨rfl, rfl, rfl⟩ | hold
  · exact Or.inr (h hsettled)
  · exact Or.inl hold

theorem recordsFrom_preAccept {req : Proposal} {reply : PreAcceptReply}
    (h : handlePreAcceptInner rt inner req = some (inner', reply)) : RecordsFrom none inner inner' := by
  simp only [handlePreAcceptInner, Option.bind_eq_bind, Option.bind_eq_some_iff] at h
  obtain ⟨grown, hgrown, attrs, -, deps, -, conflicts, -, hresult⟩ := h
  cases hresult
  have htouched : RecordsFrom none grown { grown with conflicts } := .of_instances rfl
  exact (RecordsFrom.ensureSlot hgrown).trans (htouched.trans (.setInstance nofun))

theorem recordsFrom_accept {req : Proposal} {reply : AcceptReply}
    (h : handleAcceptInner inner req = some (inner', reply)) :
    RecordsFrom (some ((asUsize req.replica, req.slot), req.value)) inner inner' := by
  simp only [handleAcceptInner, Option.bind_eq_bind, Option.bind_eq_some_iff] at h
  obtain ⟨grown, hgrown, hresult⟩ := h
  cases hresult
  refine (RecordsFrom.ensureSlot hgrown).trans (.setInstance fun _ => ?_)
  rw [Int.toNat_of_nonneg (ReplicaInner.nonneg_of_ensureSlot hgrown)]
  rfl

theorem recordsFrom_recordCommit {r : Nat} {slot : Int} {v : Value} {duplicate : Bool}
    (h : recordCommit inner r slot v = some (inner', duplicate)) :
    RecordsFrom (some ((r, slot), v)) inner inner' := by
  simp only [recordCommit, Option.bind_eq_bind, Option.bind_eq_some_iff] at h
  obtain ⟨grown, hgrown, inst, -, hresult⟩ := h
  split at hresult
  · cases hresult
    exact .ensureSlot hgrown
  · cases hresult
    refine (RecordsFrom.ensureSlot hgrown).trans (.setInstance fun _ => ?_)
    rw [Int.toNat_of_nonneg (ReplicaInner.nonneg_of_ensureSlot hgrown)]
    rfl

theorem recordsFrom_commit {req : CommitRequest} (h : handleCommitInner rt inner req = some inner') :
    RecordsFrom (some ((asUsize req.replica, req.slot), req.value)) inner inner' := by
  simp only [handleCommitInner, Option.bind_eq_bind, Option.bind_eq_some_iff] at h
  obtain ⟨⟨recorded, duplicate⟩, hrecorded, hresult⟩ := h
  have hrecords := recordsFrom_recordCommit hrecorded
  dsimp only at hresult
  split at hresult
  · cases hresult
    exact hrecords
  · exact hrecords.trans (.of_instances (ReplicaInner.instances_executeAllReady hresult))

theorem recordsFrom_commitLocal {r : Nat} {slot : Int} {v : Value}
    (h : commitLocal rt inner r slot v = some inner') : RecordsFrom (some ((r, slot), v)) inner inner' := by
  simp only [commitLocal, Option.bind_eq_bind, Option.bind_eq_some_iff] at h
  obtain ⟨⟨recorded, duplicate⟩, hrecorded, hresult⟩ := h
  exact (recordsFrom_recordCommit hrecorded).trans
    (.of_instances (ReplicaInner.instances_executeAllReady hresult))

/-- A Prepare reply shows a record of the replica. -/
theorem handlePrepareInner_settled {req : PrepareRequest}
    (h : (handlePrepareInner inner req).status.settled = true) :
    ∃ s inst, req.slot = (s : Nat) ∧ inner.instance? (asUsize req.replica) s = some inst ∧
      inst.status.settled = true ∧ inst.value = (handlePrepareInner inner req).value := by
  rw [handlePrepareInner] at h ⊢
  split
  · rename_i hnone
    rw [hnone] at h
    cases h
  · rename_i inst hinst
    rw [hinst] at h
    rw [ReplicaInner.record?] at hinst
    split at hinst
    · cases hinst
    · exact ⟨req.slot.toNat, inst, by omega, hinst, h, rfl⟩

end Quorums.Epaxos
