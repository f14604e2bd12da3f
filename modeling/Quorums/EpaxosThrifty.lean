import Quorums.ConfigViews
import Quorums.EpaxosQuorums

/-! The recipients of a Commit. `propose` fixes them before its first round: in thrifty mode the first
`n / 2` peers of the configuration. Which peers answer its rounds is a matter of their arrivals. The two
agree when all peers have answered, as on the fast path, and need not on the slow path. -/

namespace Quorums

/-- A call that goes on has a value to go on with. -/
theorem Outcome.andThen_eq_ok {T U : Type} {o : Outcome T} {next : T → Outcome U} {u : U}
    (h : o.andThen next = .ok u) : ∃ v, o = .ok v ∧ next v = .ok u := by
  cases o with
  | returned result =>
      cases result with
      | error e => cases h
      | ok v => exact ⟨v, rfl, h⟩
  | panicked => cases h

namespace Epaxos

open Config (Configuration Node)
open Responses (oks values resolving)

/-- The results of the rounds of a `propose` call that have arrived when it commits, in their order of
arrival. The Accept round is empty on the fast path. -/
structure ProposeArrivals where
  preAccept : List (NodeResponse PreAcceptReply)
  accept : List (NodeResponse AcceptReply)

/-- The node has answered the PreAccept or the Accept round. -/
def ProposeArrivals.Answered (rounds : ProposeArrivals) (id : UInt32) : Prop :=
  id ∈ (oks rounds.preAccept).map NodeResponse.nodeId ∨ id ∈ (oks rounds.accept).map NodeResponse.nodeId

instance (rounds : ProposeArrivals) (id : UInt32) : Decidable (rounds.Answered id) :=
  inferInstanceAs (Decidable (_ ∨ _))

/-- `commit_peers`. -/
def commitPeers (peers : Configuration) (thrifty : Bool) : Configuration :=
  let n := peers.size + 1
  if thrifty then peers.subConfig ((peers.nodes.take (n / 2)).map Node.id) else peers

/-- What a `propose` call commits, on which path, and to whom it sends the Commit. -/
structure Committing where
  value : Value
  fastPath : Bool
  recipients : Configuration

/-- `propose` up to its `commit_local`. -/
def propose (rt : Runtime) (inner : ReplicaInner) (cmds : List Command) (peers : Configuration)
    (thrifty : Bool) (rounds : ProposeArrivals) : Outcome Committing :=
  match inner.startProposal rt cmds with
  | none => .panicked
  | some (_, _, origSeq, origDeps) =>
      let n := peers.size + 1
      let recipients := commitPeers peers thrifty
      (preAcceptPhase n origSeq origDeps rounds.preAccept).andThen fun (finalSeq, finalDeps, fastPath) =>
        let v : Value := ⟨cmds, finalSeq, finalDeps⟩
        if fastPath then .ok ⟨v, true, recipients⟩
        else (acceptPhase n v rounds.accept).andThen fun p => .ok ⟨p.1, p.2, recipients⟩

/-! ### The recipients -/

/-- The first peers of the configuration, whoever answers. -/
theorem nodeIds_commitPeers (peers : Configuration) :
    (commitPeers peers true).nodeIds = peers.nodeIds.take ((peers.size + 1) / 2) := by
  rw [commitPeers, if_pos rfl, Config.Configuration.nodeIds_subConfig, List.map_take]
  refine List.filter_eq_self.mpr fun id hid => ?_
  exact decide_eq_true (List.mem_of_mem_take hid)

theorem size_commitPeers {peers : Configuration} (hpeers : 1 ≤ peers.size) :
    (commitPeers peers true).size = (peers.size + 1) / 2 := by
  have hlen := congrArg List.length (nodeIds_commitPeers peers)
  rw [List.length_take, Configuration.nodeIds, Configuration.nodeIds, List.length_map, List.length_map] at hlen
  change (commitPeers peers true).size = min _ peers.size at hlen
  omega

/-- The calls of the cluster send their Commits to the same peers. -/
theorem commitPeers_propose (home : Nat) (cmds : List Command) (peers : Configuration) (thrifty : Bool)
    (slot seq : Int) (deps : List Int) :
    (Coordinator.propose home cmds (peers.nodeIds.map UInt32.toNat) thrifty slot seq deps).commitPeers =
      (commitPeers peers thrifty).nodeIds.map UInt32.toNat := by
  have hlen : (peers.nodeIds.map UInt32.toNat).length = peers.size := by
    rw [List.length_map, Configuration.nodeIds, List.length_map, Configuration.size]
  have hfixed : (Coordinator.propose home cmds (peers.nodeIds.map UInt32.toNat) thrifty slot seq deps).commitPeers =
      if thrifty then (peers.nodeIds.map UInt32.toNat).take ((peers.size + 1) / 2)
      else peers.nodeIds.map UInt32.toNat := by
    rw [Coordinator.propose, hlen]
    split <;> rfl
  rw [hfixed]
  cases thrifty with
  | true => rw [if_pos rfl, nodeIds_commitPeers, List.map_take]
  | false => rfl

/-- What a call that commits comes from: its PreAccept round decides what is committed and on which path;
no round has a say in the recipients. -/
theorem propose_eq_ok {rt : Runtime} {inner : ReplicaInner} {cmds : List Command} {peers : Configuration}
    {thrifty : Bool} {rounds : ProposeArrivals} {c : Committing}
    (h : propose rt inner cmds peers thrifty rounds = .ok c) :
    ∃ origSeq origDeps, preAcceptPhase (peers.size + 1) origSeq origDeps rounds.preAccept =
        .ok (c.value.seq, c.value.deps, c.fastPath) ∧ c.recipients = commitPeers peers thrifty := by
  rw [propose] at h
  cases hstart : inner.startProposal rt cmds with
  | none =>
      rw [hstart] at h
      cases h
  | some started =>
      obtain ⟨inner', slot, origSeq, origDeps⟩ := started
      rw [hstart] at h
      obtain ⟨⟨finalSeq, finalDeps, fastPath⟩, hphase, h⟩ := Outcome.andThen_eq_ok h
      refine ⟨origSeq, origDeps, ?_⟩
      cases fastPath with
      | true =>
          cases h
          exact ⟨hphase, rfl⟩
      | false =>
          obtain ⟨p, haccept, h⟩ := Outcome.andThen_eq_ok h
          obtain ⟨-, -, hp⟩ := Outcome.andThen_eq_ok haccept
          cases hp
          cases h
          exact ⟨hphase, rfl⟩

/-! ### The fast path -/

theorem length_of_fastPath {fastQuorum slowQuorumPeers : Nat} {origSeq seq : Int} {origDeps deps : List Int}
    {replies : List PreAcceptReply}
    (h : preAcceptDecision fastQuorum slowQuorumPeers origSeq origDeps replies = some (seq, deps, true)) :
    fastQuorum ≤ replies.length := by
  simp only [preAcceptDecision] at h
  split at h
  · rename_i hfast
    exact hfast.1
  · split at h
    · cases h
    · split at h <;> cases h

/-- The fast path is taken on replies of all peers. -/
theorem length_oks_of_fastPath {n : Nat} {origSeq seq : Int} {origDeps deps : List Int}
    {arrivals : List (NodeResponse PreAcceptReply)}
    (h : preAcceptPhase n origSeq origDeps arrivals = .ok (seq, deps, true)) :
    n - 1 ≤ (oks arrivals).length := by
  rw [preAcceptPhase, andThen_quorum] at h
  split at h
  · rename_i hsome
    obtain ⟨slice, hslice⟩ := Option.isSome_iff_exists.mp hsome
    obtain ⟨-, hpre, hanswers⟩ := Responses.resolving_spec hslice
    -- the decision was written when the closure answered on `slice`
    cases hdecision : preAcceptDecision (n - 1) (n / 2) origSeq origDeps slice with
    | none =>
        rw [preAcceptQuorum, hdecision] at hanswers
        cases hanswers
    | some decision =>
        rw [decisionCell, hslice, Option.bind_some, hdecision, Option.getD_some] at h
        cases h
        have hlen := length_of_fastPath hdecision
        have hle := hpre.length_le
        rw [Responses.length_values] at hle
        omega
  · exact absurd h (Outcome.incomplete_ne_ok _ _)

/-- On the fast path every peer has answered, as each answers at most once. -/
theorem answered_of_fastPath {rt : Runtime} {inner : ReplicaInner} {cmds : List Command}
    {peers : Configuration} {thrifty : Bool} {rounds : ProposeArrivals} {c : Committing}
    (h : propose rt inner cmds peers thrifty rounds = .ok c) (hfast : c.fastPath = true)
    (hfrom : (rounds.preAccept.map NodeResponse.nodeId).Subperm peers.nodeIds) :
    ∀ id ∈ peers.nodeIds, rounds.Answered id := by
  obtain ⟨origSeq, origDeps, hphase, -⟩ := propose_eq_ok h
  rw [hfast] at hphase
  have hlen := length_oks_of_fastPath hphase
  rw [Nat.add_sub_cancel] at hlen
  have hsub : ((oks rounds.preAccept).map NodeResponse.nodeId).Subperm peers.nodeIds :=
    (List.filter_sublist.map NodeResponse.nodeId).subperm.trans hfrom
  have hperm : ((oks rounds.preAccept).map NodeResponse.nodeId).Perm peers.nodeIds := by
    refine hsub.perm_of_length_le ?_
    rw [List.length_map, Configuration.nodeIds, List.length_map]
    exact hlen
  exact fun id hid => Or.inl (hperm.mem_iff.mpr hid)

/-! ### Thrifty mode -/

/-- The Commit goes to `n / 2` different peers, and each of them has answered. -/
structure GoesToHolders (peers : Configuration) (rounds : ProposeArrivals) (recipients : Configuration) :
    Prop where
  size : recipients.size = (peers.size + 1) / 2
  distinct : recipients.IsSet
  answered : ∀ id ∈ recipients.nodeIds, rounds.Answered id

/-- A peer among the first `n / 2` of the configuration that has answered neither round. -/
def SilentAhead (peers : Configuration) (rounds : ProposeArrivals) : Prop :=
  ∃ id ∈ peers.nodeIds.take ((peers.size + 1) / 2), ¬rounds.Answered id

/-- The Commit of a thrifty proposal goes to peers that hold the instance if and only if no peer among the
first `n / 2` of the configuration has stayed silent in both rounds and none of them is listed twice. On the
fast path no peer has stayed silent. -/
theorem thrifty_iff (rt : Runtime) (inner : ReplicaInner) (cmds : List Command) {peers : Configuration}
    (hpeers : 2 ≤ peers.size + 1) (rounds : ProposeArrivals) {c : Committing}
    (h : propose rt inner cmds peers true rounds = .ok c) :
    (GoesToHolders peers rounds c.recipients ↔
      ¬SilentAhead peers rounds ∧ (peers.nodeIds.take ((peers.size + 1) / 2)).Nodup) ∧
    (c.fastPath = true → (rounds.preAccept.map NodeResponse.nodeId).Subperm peers.nodeIds →
      ¬SilentAhead peers rounds) := by
  have hids := nodeIds_commitPeers peers
  obtain ⟨-, -, -, hrecipients⟩ := propose_eq_ok h
  rw [hrecipients]
  refine ⟨⟨fun hgoes => ⟨?_, ?_⟩, fun ⟨hsilent, hnodup⟩ => ⟨?_, ?_, ?_⟩⟩, ?_⟩
  · rintro ⟨id, hid, hnot⟩
    exact hnot (hgoes.answered id (hids ▸ hid))
  · exact hids ▸ hgoes.distinct
  · exact size_commitPeers (by omega)
  · rw [Configuration.IsSet, hids]
    exact hnodup
  · intro id hid
    by_contra hnot
    exact hsilent ⟨id, hids ▸ hid, hnot⟩
  · rintro hfast hfrom ⟨id, hid, hnot⟩
    exact hnot (answered_of_fastPath h hfast hfrom id (List.mem_of_mem_take hid))

/-- The peers of replica 0 in a cluster of three. -/
def twoPeers : Configuration := ⟨[⟨2, "127.0.0.1:5002"⟩, ⟨3, "127.0.0.1:5003"⟩]⟩

/-- One peer is gone; the other one knows of another instance on the key, and accepts. -/
def oneGone (gone : UInt32) (other : UInt32) (reply : PreAcceptReply) : ProposeArrivals where
  preAccept := [unreachable _ gone, ⟨other, .ok reply⟩]
  accept := [⟨other, .ok ⟨reply.replica, 0, true, 0⟩⟩, unreachable _ gone]

/-- The second peer is gone, and the Commit goes to the first one. -/
theorem thrifty_iff_second_gone :
    ∃ c, propose plainRuntime (.new 0 3) [putX] twoPeers true (oneGone 3 2 differingReply) = .ok c ∧
      c.recipients.nodeIds = [2] ∧ GoesToHolders twoPeers (oneGone 3 2 differingReply) c.recipients := by
  refine ⟨_, rfl, by decide, (thrifty_iff plainRuntime (.new 0 3) [putX] (by decide) _ rfl).1.mpr ⟨?_, by decide⟩⟩
  rintro ⟨id, hid, hnot⟩
  have hfirst : id = 2 := by simpa [twoPeers, Configuration.nodeIds, Configuration.size] using hid
  subst hfirst
  exact hnot (by decide)

/-- What replica 2 replies after a PreAccept of replica 1 on the key. -/
def lateReply : PreAcceptReply := ⟨2, 0, .preaccepted, 0, 2, [-1, 0, -1], [-1, -1, -1]⟩

/-- The first peer is gone, and the Commit goes to it alone: the leader is the only one to know of it. -/
theorem not_goesToHolders_first_gone :
    ((handlePreAcceptInner plainRuntime (.new 2 3) ⟨1, 1, 0, 0, 1, [-1, -1, -1], [putX]⟩).bind fun p =>
      handlePreAcceptInner plainRuntime p.1 ⟨0, 0, 0, 0, 1, [-1, -1, -1], [putX]⟩).map Prod.snd =
        some lateReply ∧
    (∃ c, propose plainRuntime (.new 0 3) [putX] twoPeers true (oneGone 2 3 lateReply) = .ok c ∧
      c.recipients.nodeIds = [2]) ∧
    ¬∀ (rt : Runtime) (inner : ReplicaInner) (cmds : List Command) (peers : Configuration)
      (rounds : ProposeArrivals) (c : Committing), 2 ≤ peers.size + 1 → peers.IsSet →
      (rounds.preAccept.map NodeResponse.nodeId).Perm peers.nodeIds →
      (rounds.accept.map NodeResponse.nodeId).Perm peers.nodeIds →
      propose rt inner cmds peers true rounds = .ok c → GoesToHolders peers rounds c.recipients := by
  refine ⟨rfl, ⟨_, rfl, by decide⟩, fun h => ?_⟩
  have hgoes := h plainRuntime (.new 0 3) [putX] twoPeers (oneGone 2 3 lateReply) _ (by decide) (by decide)
    (by decide) (by decide) rfl
  exact absurd (hgoes.answered 2 (by decide)) (by decide)

end Epaxos

end Quorums
