import Quorums.EpaxosAgreement
import Quorums.HandleThresholds

/-! The rounds of `propose` and `recover` on the handles that collect their replies. A round reads the
results of its peers in their order of arrival; its closure sees the successes alone, and what it has seen
when it answers decides how the call goes on. A round whose closure does not answer ends the call with
`Incomplete`, so what a call survives is read off the number of replies its closures wait for. -/

namespace Quorums

open Responses (values resolving transportFailures)

/-- `.await?`: go on with the value of a call. -/
def Outcome.andThen {T U : Type} (o : Outcome T) (next : T → Outcome U) : Outcome U :=
  match o with
  | .returned (.ok v) => next v
  | .returned (.error e) => .err e
  | .panicked => .panicked

@[simp] theorem Outcome.incomplete_andThen {T U : Type} (errors : List NodeError) (next : T → Outcome U) :
    (Outcome.incomplete errors).andThen next = .incomplete errors := rfl

namespace Epaxos

/-! ### The rounds -/

/-- The closure of the PreAccept round. It answers the last reply. -/
def preAcceptQuorum (n : Nat) (origSeq : Int) (origDeps : List Int) (replies : List PreAcceptReply) :
    Option PreAcceptReply :=
  (preAcceptDecision (n - 1) (n / 2) origSeq origDeps replies).bind fun _ => replies.getLast?

/-- `decision_cell` after the round: the closure writes it in the call in which it answers. -/
def decisionCell (n : Nat) (origSeq : Int) (origDeps : List Int)
    (arrivals : List (NodeResponse PreAcceptReply)) : Int × List Int × Bool :=
  ((resolving (preAcceptQuorum n origSeq origDeps) arrivals).bind
    (preAcceptDecision (n - 1) (n / 2) origSeq origDeps)).getD (origSeq, origDeps, true)

/-- The PreAccept phase of `propose`, with `n - 1` peers: the final attributes, and whether the fast path
was taken. -/
def preAcceptPhase (n : Nat) (origSeq : Int) (origDeps : List Int)
    (arrivals : List (NodeResponse PreAcceptReply)) : Outcome (Int × List Int × Bool) :=
  ((Responses.quorum (preAcceptQuorum n origSeq origDeps)).result arrivals).andThen fun _ =>
    .ok (decisionCell n origSeq origDeps arrivals)

/-- The closure of the Prepare and the TryPreAccept round. -/
def lastOfAll {T : Type} (nPeers : Nat) (replies : List T) : Option T :=
  if replies.length ≥ nPeers then replies.getLast? else none

/-- The Prepare phase of `recover` and what it concludes from `prep_cell`. -/
def preparePhase (n nPeers : Nat) (arrivals : List (NodeResponse PrepareReply)) : Outcome Analysis :=
  ((Responses.quorum (lastOfAll nPeers)).result arrivals).andThen fun _ =>
    .ok (analyze n ((resolving (lastOfAll nPeers) arrivals).getD []))

/-- The results of the rounds of a `recover` call, in their order of arrival. -/
structure RecoverArrivals where
  prepare : List (NodeResponse PrepareReply)
  tryPreAccept : List (NodeResponse TryPreAcceptReply)
  accept : List (NodeResponse AcceptReply)

/-- The Accept phase for `v`. -/
def acceptPhase (n : Nat) (v : Value) (arrivals : List (NodeResponse AcceptReply)) :
    Outcome (Value × Bool) :=
  ((Responses.threshold (n / 2)).result arrivals).andThen fun _ => .ok (v, false)

/-- `recover` up to its `commit_local`: the value it commits, and whether on the fast path. -/
def recover (n nPeers : Nat) (rounds : RecoverArrivals) : Outcome (Value × Bool) :=
  (preparePhase n nPeers rounds.prepare).andThen fun
    | .committed v => .ok (v, false)
    | .accepted v => acceptPhase n v rounds.accept
    | .tryFast v =>
        match (Responses.quorum (lastOfAll nPeers)).result rounds.tryPreAccept with
        | .returned (.ok _) =>
            -- `ok_cell`
            if ((resolving (lastOfAll nPeers) rounds.tryPreAccept).getD []).all fun r => r.ok then
              .ok (v, true)
            else acceptPhase n v rounds.accept
        | .returned (.error _) => acceptPhase n v rounds.accept
        | .panicked => .panicked
    | .slow v => acceptPhase n v rounds.accept

/-- A round with a closure: it goes on once the closure has answered, and ends the call if it never does. -/
theorem andThen_quorum {T U : Type} (f : List T → Option T) (arrivals : List (NodeResponse T)) (x : U) :
    ((Responses.quorum f).result arrivals).andThen (fun _ => .ok x) =
      if (resolving f arrivals).isSome then .ok x else .incomplete (transportFailures arrivals) := by
  rw [Responses.result_quorum]
  cases h : resolving f arrivals with
  | none => rfl
  | some slice =>
      obtain ⟨v, hv⟩ := Option.isSome_iff_exists.mp (Responses.resolving_spec h).2.2
      simp only [hv, Outcome.okUnwrap]
      rfl

/-! ### PreAccept -/

section PreAccept

variable {n : Nat} {origSeq : Int} {origDeps : List Int}

/-- When the closure has a decision: all peers have replied, or the slow quorum with a reply that is not
equal among them. -/
theorem preAcceptDecision_isSome (fastQuorum slowQuorumPeers : Nat) (origSeq : Int) (origDeps : List Int)
    (replies : List PreAcceptReply) :
    (preAcceptDecision fastQuorum slowQuorumPeers origSeq origDeps replies).isSome ↔
      fastQuorum ≤ replies.length ∨
        ((∃ r ∈ replies, r.status ≠ .preacceptedEq) ∧ slowQuorumPeers ≤ replies.length) := by
  have hall : (replies.all fun r => r.status = .preacceptedEq) = true ↔
      ¬∃ r ∈ replies, r.status ≠ .preacceptedEq := by simp
  simp only [preAcceptDecision, hall]
  split
  · rename_i h
    exact iff_of_true rfl (Or.inl h.1)
  · split
    · rename_i h
      exact iff_of_true rfl (Or.inl h)
    · rename_i hfew
      split
      · rename_i h
        exact iff_of_true rfl (Or.inr ⟨not_not.mp h.1, h.2⟩)
      · rename_i hnot
        refine iff_of_false (by simp) ?_
        rintro (hfast | ⟨hdiffer, hslow⟩)
        · exact hfew hfast
        · exact hnot ⟨not_not.mpr hdiffer, hslow⟩

theorem preAcceptQuorum_isSome {replies : List PreAcceptReply} (hne : replies ≠ []) :
    (preAcceptQuorum n origSeq origDeps replies).isSome ↔
      n - 1 ≤ replies.length ∨ ((∃ r ∈ replies, r.status ≠ .preacceptedEq) ∧ n / 2 ≤ replies.length) := by
  rw [← preAcceptDecision_isSome (n - 1) (n / 2) origSeq origDeps, preAcceptQuorum,
    List.getLast?_eq_some_getLast hne]
  cases preAcceptDecision (n - 1) (n / 2) origSeq origDeps replies <;> rfl

/-- Enough successes end the round unless a peer has failed and all replies are equal. -/
theorem resolving_preAccept_isSome (hn : 2 ≤ n) {arrivals : List (NodeResponse PreAcceptReply)}
    (hlen : arrivals.length = n - 1) (henough : n / 2 ≤ (Responses.oks arrivals).length) :
    (resolving (preAcceptQuorum n origSeq origDeps) arrivals).isSome ↔
      (∀ r ∈ arrivals, r.result.isOk) ∨ ∃ reply ∈ values arrivals, reply.status ≠ .preacceptedEq := by
  rw [← Responses.length_values] at henough
  rw [Responses.resolving_isSome, ← Responses.length_values_eq_iff]
  have hle : (values arrivals).length ≤ arrivals.length := List.length_filterMap_le ..
  constructor
  · rintro ⟨slice, hne, hpre, hsome⟩
    have hlen' := hpre.length_le
    rcases (preAcceptQuorum_isSome hne).mp hsome with hall | ⟨⟨reply, hreply, hstatus⟩, -⟩
    · exact Or.inl (by omega)
    · exact Or.inr ⟨reply, hpre.subset hreply, hstatus⟩
  · intro h
    -- the last call of the closure sees all successes
    have hne : values arrivals ≠ [] := by
      intro hnil
      rw [hnil, List.length_nil] at henough
      omega
    refine ⟨values arrivals, hne, List.prefix_rfl, (preAcceptQuorum_isSome hne).mpr ?_⟩
    rcases h with hall | hdiffer
    · exact Or.inl (by omega)
    · exact Or.inr ⟨hdiffer, henough⟩

end PreAccept

/-- With `n / 2` successes among its `n - 1` peers the PreAccept phase ends with a decision if and only if no
peer has failed or some reply is not equal; otherwise the call ends with `Incomplete`. -/
theorem preAccept_decides_iff {n : Nat} (hn : 2 ≤ n) (origSeq : Int) (origDeps : List Int)
    {arrivals : List (NodeResponse PreAcceptReply)} (hlen : arrivals.length = n - 1)
    (henough : n / 2 ≤ (Responses.oks arrivals).length) :
    ((∃ decision, preAcceptPhase n origSeq origDeps arrivals = .ok decision) ↔
      (∀ r ∈ arrivals, r.result.isOk) ∨ ∃ reply ∈ values arrivals, reply.status ≠ .preacceptedEq) ∧
    ((¬∃ decision, preAcceptPhase n origSeq origDeps arrivals = .ok decision) →
      preAcceptPhase n origSeq origDeps arrivals = .incomplete (transportFailures arrivals)) := by
  rw [← resolving_preAccept_isSome hn hlen henough, preAcceptPhase, andThen_quorum]
  by_cases hsome : (resolving (preAcceptQuorum n origSeq origDeps) arrivals).isSome
  · rw [if_pos hsome]
    exact ⟨iff_of_true ⟨_, rfl⟩ hsome, fun hnot => absurd ⟨_, rfl⟩ hnot⟩
  · rw [if_neg hsome]
    refine ⟨iff_of_false ?_ hsome, fun _ => rfl⟩
    rintro ⟨decision, h⟩
    exact absurd h (Outcome.incomplete_ne_ok _ _)

/-- What a fresh peer replies to the first proposal of replica 0. -/
def equalReply : PreAcceptReply := ⟨1, 0, .preacceptedEq, 0, 1, [-1, -1, -1], [-1, -1, -1]⟩

/-- What a peer replies that knows of another instance on the key. -/
def differingReply : PreAcceptReply := ⟨1, 0, .preaccepted, 0, 2, [-1, 0, -1], [-1, -1, -1]⟩

/-- The peer that is gone. -/
def unreachable (T : Type) (nodeId : UInt32) : NodeResponse T :=
  ⟨nodeId, .error (.transport ⟨.unavailable, "transport error"⟩)⟩

/-- One of two peers is gone, and the reply of the other one is not equal. -/
theorem preAccept_decides_iff_conflict : ∃ decision,
    preAcceptPhase 3 1 [-1, -1, -1] [unreachable _ 2, ⟨1, .ok differingReply⟩] = .ok decision :=
  ((preAccept_decides_iff (by decide) 1 [-1, -1, -1] rfl (by decide)).1).mpr
    (Or.inr ⟨differingReply, by decide, by decide⟩)

/-- One of two peers is gone, and the reply of the other one is equal. -/
theorem propose_incomplete_equal :
    ((ReplicaInner.new 0 3).startProposal plainRuntime [putX]).map Prod.snd = some (0, 1, [-1, -1, -1]) ∧
    (handlePreAcceptInner plainRuntime (ReplicaInner.new 1 3)
      ⟨0, 0, 0, 0, 1, [-1, -1, -1], [putX]⟩).map Prod.snd = some equalReply ∧
    ¬∀ (n : Nat) (origSeq : Int) (origDeps : List Int) (arrivals : List (NodeResponse PreAcceptReply)),
      2 ≤ n → arrivals.length = n - 1 → n / 2 ≤ (Responses.oks arrivals).length →
      (∀ reply ∈ values arrivals, reply.status = .preacceptedEq ∨ reply.status = .preaccepted) →
      ∃ decision, preAcceptPhase n origSeq origDeps arrivals = .ok decision := by
  refine ⟨rfl, rfl, fun h => ?_⟩
  obtain ⟨decision, hdecision⟩ := h 3 1 [-1, -1, -1] [⟨1, .ok equalReply⟩, unreachable _ 2] (by decide) rfl
    (by decide) (by decide)
  cases hdecision

/-! ### Recovery -/

theorem lastOfAll_isSome {T : Type} {nPeers : Nat} {replies : List T} (hne : replies ≠ []) :
    (lastOfAll nPeers replies).isSome ↔ nPeers ≤ replies.length := by
  rw [lastOfAll, List.getLast?_eq_some_getLast hne]
  split <;> simp_all

/-- The Prepare phase waits for all peers: one failure ends the call. -/
theorem preparePhase_eq (n : Nat) {nPeers : Nat} (hpeers : 1 ≤ nPeers)
    {arrivals : List (NodeResponse PrepareReply)} (hlen : arrivals.length = nPeers) :
    preparePhase n nPeers arrivals =
      if ∀ r ∈ arrivals, r.result.isOk then .ok (analyze n (values arrivals))
      else .incomplete (transportFailures arrivals) := by
  have hle : (values arrivals).length ≤ arrivals.length := List.length_filterMap_le ..
  rw [preparePhase, andThen_quorum,
    Responses.resolving_eq_ite hpeers (fun slice hne => lastOfAll_isSome hne)]
  by_cases hall : ∀ r ∈ arrivals, r.result.isOk
  · have heq := (Responses.length_values_eq_iff arrivals).mpr hall
    rw [if_pos hall, if_neg (show ¬(values arrivals).length < nPeers by omega),
      List.take_of_length_le (by omega)]
    rfl
  · have hne : (values arrivals).length ≠ arrivals.length := fun heq =>
      hall ((Responses.length_values_eq_iff arrivals).mp heq)
    rw [if_neg hall, if_pos (show (values arrivals).length < nPeers by omega)]
    rfl

/-- With a crashed replica among the peers `recover` ends with `Incomplete` after the Prepare phase, whatever
the other peers answer, in this round and in the later ones. -/
theorem recover_incomplete {n : Nat} (hn : 3 ≤ n) (target : UInt32) {rounds : RecoverArrivals}
    (hlen : rounds.prepare.length = n - 1)
    (hcrashed : ∃ r ∈ rounds.prepare, r.nodeId = target ∧ r.result.isOk = false) :
    recover n (n - 1) rounds = .incomplete (transportFailures rounds.prepare) ∧
      ¬∃ committed, recover n (n - 1) rounds = .ok committed := by
  obtain ⟨r, hr, -, hfailed⟩ := hcrashed
  have hnot : ¬∀ r ∈ rounds.prepare, r.result.isOk := by
    intro hall
    rw [hall r hr] at hfailed
    cases hfailed
  have heq : recover n (n - 1) rounds = .incomplete (transportFailures rounds.prepare) := by
    rw [recover, preparePhase_eq n (by omega) hlen, if_neg hnot, Outcome.incomplete_andThen]
  refine ⟨heq, ?_⟩
  rintro ⟨committed, hcommitted⟩
  rw [heq] at hcommitted
  exact absurd hcommitted (Outcome.incomplete_ne_ok _ _)

/-- Replica 1 after the Accept of a leader that then crashed. -/
def heldAccepted : ReplicaInner :=
  { ReplicaInner.new 1 3 with
    instances := [[⟨[putX], 1, [-1, -1, -1], .accepted, 0⟩], [], []]
    executed := [[false], [], []] }

/-- Replica 2 recovers the first instance of replica 0, which is gone. -/
def crashedLeader : RecoverArrivals where
  prepare := [⟨1, .ok (handlePrepareInner heldAccepted ⟨2, 0, 0, 1⟩)⟩, unreachable _ 0]
  tryPreAccept := []
  accept := [⟨1, .ok ⟨1, 0, true, 1⟩⟩, unreachable _ 0]

theorem recover_incomplete_crashedLeader :
    ¬∃ committed, recover 3 2 crashedLeader = .ok committed :=
  (recover_incomplete (by decide) 0 rfl ⟨unreachable _ 0, by simp [crashedLeader], rfl, rfl⟩).2

/-- The surviving peer has accepted the value, and the instance stays open. -/
theorem not_recovered_crashedLeader :
    (handleAcceptInner (ReplicaInner.new 1 3) ⟨0, 0, 0, 0, 1, [-1, -1, -1], [putX]⟩).map Prod.fst =
      some heldAccepted ∧
    ¬∀ (n : Nat) (target : UInt32) (rounds : RecoverArrivals), 3 ≤ n →
      rounds.prepare.length = n - 1 → n / 2 ≤ (Responses.oks rounds.prepare).length →
      (∃ r ∈ rounds.prepare, r.nodeId = target ∧ r.result.isOk = false) →
      rounds.accept.length = n - 1 → n / 2 ≤ (Responses.oks rounds.accept).length →
      ∃ committed, recover n (n - 1) rounds = .ok committed := by
  refine ⟨rfl, fun h => ?_⟩
  obtain ⟨committed, hcommitted⟩ := h 3 0 crashedLeader (by decide) rfl (by decide)
    ⟨unreachable _ 0, by simp [crashedLeader], rfl, rfl⟩ rfl (by decide)
  cases hcommitted

/-! ### The calls of the system

A call of the cluster reads the successes of a round as the loop of its handle does. -/

/-- A call reads replies. -/
def Coordinator.reads (c : Coordinator) (replies : List Reply) : Coordinator :=
  replies.foldl (fun c reply => (c.receive reply).1) c

theorem Coordinator.reads_append (c : Coordinator) (replies : List Reply) (reply : Reply) :
    c.reads (replies ++ [reply]) = ((c.reads replies).receive reply).1 := by
  rw [reads, reads, List.foldl_append]
  rfl

/-- A phase that collects replies until `f` answers, and that what follows does not come back to. -/
theorem reads_round {T : Type} (f : List T → Option T) (wrap : T → Reply)
    (collecting next : List T → Coordinator)
    (hcollect : ∀ replies r, ((collecting replies).receive (wrap r)).1 =
      if (f (replies ++ [r])).isSome then next (replies ++ [r]) else collecting (replies ++ [r]))
    (hover : ∀ replies r, (f replies).isSome → ((next replies).receive (wrap r)).1 = next replies)
    (arrivals : List (NodeResponse T)) :
    (collecting []).reads ((values arrivals).map wrap) =
      match resolving f arrivals with
      | some replies => next replies
      | none => collecting (values arrivals) := by
  induction arrivals using List.reverseRecOn with
  | nil => rfl
  | append_singleton arrivals nr ih =>
      rw [Responses.values_append]
      cases h : nr.result with
      | error e =>
          rw [Responses.resolving_append_error f arrivals h, Responses.values_singleton_error h,
            List.append_nil, ih]
      | ok v =>
          rw [Responses.resolving_append_ok f arrivals h, Responses.values_singleton_ok h, List.map_append,
            List.map_singleton, Coordinator.reads_append, ih]
          cases hres : resolving f arrivals with
          | some replies => exact hover replies v (Responses.resolving_spec hres).2.2
          | none =>
              simp only [hcollect, Option.none_or]
              split <;> rfl

/-- The Prepare round of a call: it concludes from what the Prepare phase of `recover` gives, and waits on if
that is `Incomplete`. -/
theorem reads_preparing {c : Coordinator} (hphase : c.phase = .preparing [])
    (arrivals : List (NodeResponse PrepareReply)) :
    c.reads ((values arrivals).map .prepare) =
      match preparePhase c.size c.peers.length arrivals with
      | .returned (.ok analysis) => c.conclude analysis
      | _ => { c with phase := .preparing (values arrivals) } := by
  have hc : c = { c with phase := .preparing [] } := by rw [← hphase]
  have hreads := reads_round (lastOfAll c.peers.length) .prepare
    (fun replies => { c with phase := .preparing replies })
    (fun replies => c.conclude (analyze c.size replies)) ?_ ?_ arrivals
  · rw [← hc] at hreads
    rw [hreads, preparePhase, andThen_quorum]
    cases resolving (lastOfAll c.peers.length) arrivals <;> rfl
  · intro replies r
    have hne : replies ++ [r] ≠ [] := by simp
    simp only [Coordinator.receive, lastOfAll_isSome hne]
    split
    · cases analyze c.size (replies ++ [r]) <;> rfl
    · rfl
  · rintro replies r -
    cases analyze c.size replies <;> rfl

/-- The next round after the PreAccept round. -/
def Coordinator.proceed (c : Coordinator) (cmds : List Command) : Int × List Int × Bool → Coordinator
  | (finalSeq, finalDeps, fastPath) =>
      if fastPath then c.commit ⟨cmds, finalSeq, finalDeps⟩ true else c.accept ⟨cmds, finalSeq, finalDeps⟩

/-- The PreAccept round of a call: it goes on with the decision of the PreAccept phase of `propose`, and waits
on if that is `Incomplete`. -/
theorem reads_preAccepting {c : Coordinator} {cmds : List Command} {seq : Int} {deps : List Int}
    (hphase : c.phase = .preAccepting cmds seq deps []) (arrivals : List (NodeResponse PreAcceptReply)) :
    c.reads ((values arrivals).map .preAccept) =
      match preAcceptPhase c.size seq deps arrivals with
      | .returned (.ok decision) => c.proceed cmds decision
      | _ => { c with phase := .preAccepting cmds seq deps (values arrivals) } := by
  have hc : c = { c with phase := .preAccepting cmds seq deps [] } := by rw [← hphase]
  have hreads := reads_round (preAcceptQuorum c.size seq deps) .preAccept
    (fun replies => { c with phase := .preAccepting cmds seq deps replies })
    (fun replies => c.proceed cmds
      ((preAcceptDecision (c.size - 1) (c.size / 2) seq deps replies).getD (seq, deps, true))) ?_ ?_ arrivals
  · rw [← hc] at hreads
    rw [hreads, preAcceptPhase, andThen_quorum, decisionCell]
    cases resolving (preAcceptQuorum c.size seq deps) arrivals <;> rfl
  · intro replies r
    simp only [Coordinator.receive, preAcceptQuorum, List.getLast?_concat]
    cases preAcceptDecision (c.size - 1) (c.size / 2) seq deps (replies ++ [r]) with
    | none => rfl
    | some decision =>
        obtain ⟨finalSeq, finalDeps, fastPath⟩ := decision
        cases fastPath <;> rfl
  · rintro replies r -
    obtain ⟨finalSeq, finalDeps, fastPath⟩ :=
      (preAcceptDecision (c.size - 1) (c.size / 2) seq deps replies).getD (seq, deps, true)
    cases fastPath <;> rfl

/-! ### The value that is taken over -/

/-- The records of the instance that are accepted, in the order in which the replies of their replicas
arrive. -/
def acceptedRecords (r : Nat) (slot : Int) (peers : List (UInt32 × ReplicaInner)) : List Instance :=
  peers.filterMap fun peer => (peer.2.record? r slot).filter fun inst => inst.status = .accepted

/-- All peers answer Prepare, in the order of the list. -/
def prepareArrivals (req : PrepareRequest) (peers : List (UInt32 × ReplicaInner)) :
    List (NodeResponse PrepareReply) :=
  peers.map fun peer => ⟨peer.1, .ok (handlePrepareInner peer.2 req)⟩

/-- The value of a record whose ballot is maximal. -/
def OfHighestBallot (records : List Instance) (v : Value) : Prop :=
  ∃ inst ∈ records, inst.value = v ∧ ∀ other ∈ records, other.ballot ≤ inst.ballot

instance (records : List Instance) (v : Value) : Decidable (OfHighestBallot records v) :=
  inferInstanceAs (Decidable
    (∃ inst ∈ records, inst.value = v ∧ ∀ other ∈ records, other.ballot ≤ inst.ballot))

theorem values_prepareArrivals (req : PrepareRequest) (peers : List (UInt32 × ReplicaInner)) :
    values (prepareArrivals req peers) = peers.map fun peer => handlePrepareInner peer.2 req := by
  rw [values, prepareArrivals, List.filterMap_map, ← List.filterMap_eq_map]
  rfl

/-- Among replies of one ballot the last one is taken. -/
theorem maxByBallot_eq_getLast? {replies : List PrepareReply} {ballot : Int}
    (h : ∀ r ∈ replies, r.ballot = ballot) : maxByBallot replies = replies.getLast? := by
  induction replies with
  | nil => rfl
  | cons r rest ih =>
      obtain ⟨hr, hrest⟩ := List.forall_mem_cons.mp h
      rw [maxByBallot, ih hrest]
      cases hlast : rest.getLast? with
      | none =>
          rw [List.getLast?_eq_none_iff] at hlast
          rw [hlast]
          rfl
      | some best =>
          have hbest := hrest best (List.mem_of_getLast? hlast)
          rw [List.getLast?_cons, hlast]
          simp [hr, hbest]

/-- A reply shows the record of the replica, with the ballot of the request. -/
theorem handlePrepareInner_accepted (inner : ReplicaInner) (req : PrepareRequest) :
    (if (handlePrepareInner inner req).status = .accepted then
        some (handlePrepareInner inner req).value else none) =
      ((inner.record? (asUsize req.replica) req.slot).filter
        fun inst => inst.status = .accepted).map Instance.value := by
  rw [handlePrepareInner]
  cases inner.record? (asUsize req.replica) req.slot with
  | none => rfl
  | some inst =>
      rw [Option.filter_some]
      by_cases haccepted : inst.status = .accepted
      · simp only [haccepted, if_pos, decide_true, Option.map_some]
        rfl
      · simp [haccepted]

theorem map_value_accepted (req : PrepareRequest) (peers : List (UInt32 × ReplicaInner)) :
    ((peers.map fun peer => handlePrepareInner peer.2 req).filter
        fun r => r.status = .accepted).map PrepareReply.value =
      (acceptedRecords (asUsize req.replica) req.slot peers).map Instance.value := by
  rw [acceptedRecords, List.map_filterMap]
  induction peers with
  | nil => rfl
  | cons peer peers ih =>
      rw [List.filterMap_cons, ← ih, ← handlePrepareInner_accepted, List.map_cons, List.filter_cons]
      by_cases haccepted : (handlePrepareInner peer.2 req).status = .accepted
      · rw [if_pos haccepted, if_pos (by simpa using haccepted), List.map_cons]
      · rw [if_neg haccepted, if_neg (by simpa using haccepted)]

/-- Without a committed reply the last accepted one is taken over. -/
theorem analyze_prepared (n : Nat) {req : PrepareRequest} {peers : List (UInt32 × ReplicaInner)}
    (hcommitted : ∀ peer ∈ peers, ∀ inst,
      peer.2.record? (asUsize req.replica) req.slot = some inst → inst.status ≠ .committed)
    {last : Instance} (hlast : (acceptedRecords (asUsize req.replica) req.slot peers).getLast? = some last) :
    analyze n (peers.map fun peer => handlePrepareInner peer.2 req) = .accepted last.value := by
  have hnone : (peers.map fun peer => handlePrepareInner peer.2 req).find?
      (fun r => r.status = .committed) = none := by
    rw [List.find?_eq_none]
    intro r hr
    obtain ⟨peer, hpeer, rfl⟩ := List.mem_map.mp hr
    rw [handlePrepareInner]
    cases hinst : peer.2.record? (asUsize req.replica) req.slot with
    | none => simp
    | some inst => simpa using hcommitted peer hpeer inst hinst
  have hballot : ∀ r ∈ (peers.map fun peer => handlePrepareInner peer.2 req).filter
      (fun r => r.status = .accepted), r.ballot = req.ballot := by
    intro r hr
    obtain ⟨peer, -, rfl⟩ := List.mem_map.mp (List.mem_of_mem_filter hr)
    rw [handlePrepareInner]
    split <;> rfl
  have hvalue := congrArg List.getLast? (map_value_accepted req peers)
  rw [List.getLast?_map, List.getLast?_map, hlast, Option.map_some] at hvalue
  obtain ⟨r, hr, hrvalue⟩ := Option.map_eq_some_iff.mp hvalue
  rw [analyze, hnone]
  simp only [maxByBallot_eq_getLast? hballot, hr, hrvalue]

/-- The Prepare phase on peers that all answer. -/
theorem preparePhase_prepareArrivals (n : Nat) (req : PrepareRequest) {peers : List (UInt32 × ReplicaInner)}
    (hpeers : peers ≠ []) :
    preparePhase n peers.length (prepareArrivals req peers) =
      .ok (analyze n (peers.map fun peer => handlePrepareInner peer.2 req)) := by
  have hlen : (prepareArrivals req peers).length = peers.length := by rw [prepareArrivals, List.length_map]
  have hok : ∀ r ∈ prepareArrivals req peers, r.result.isOk := by
    intro r hr
    obtain ⟨peer, -, rfl⟩ := List.mem_map.mp hr
    rfl
  rw [preparePhase_eq n (List.length_pos_iff.mpr hpeers) hlen, if_pos hok, values_prepareArrivals]

/-- On peers none of which has the instance committed `recover` takes the value of the last accepted record to
arrive to the Accept round. -/
theorem recover_adopts_last (home n r : Nat) (slot : Int) (ids : List Nat)
    {peers : List (UInt32 × ReplicaInner)} (hids : ids.length = peers.length)
    (hcommitted : ∀ peer ∈ peers, ∀ inst, peer.2.record? r slot = some inst → inst.status ≠ .committed)
    {last : Instance} (hlast : (acceptedRecords r slot peers).getLast? = some last) :
    preparePhase n peers.length (prepareArrivals ⟨home, r, slot, 1⟩ peers) = .ok (.accepted last.value) ∧
      (Coordinator.recover home n r slot ids).reads
          (peers.map fun peer => .prepare (handlePrepareInner peer.2 ⟨home, r, slot, 1⟩)) =
        (Coordinator.recover home n r slot ids).accept last.value := by
  have hpeers : peers ≠ [] := by
    rintro rfl
    cases hlast
  have hids' : ids ≠ [] := by
    rintro rfl
    exact hpeers (List.length_eq_zero_iff.mp hids.symm)
  rw [← asUsize_natCast r] at hcommitted hlast
  have hphase : preparePhase n peers.length (prepareArrivals ⟨home, r, slot, 1⟩ peers) =
      .ok (.accepted last.value) := by
    rw [preparePhase_prepareArrivals n _ hpeers]
    exact congrArg _ (analyze_prepared n hcommitted hlast)
  refine ⟨hphase, ?_⟩
  have hcall : Coordinator.recover home n r slot ids =
      (⟨home, ids, ids, r, slot, n, 1, .preparing [], []⟩ : Coordinator).fanOut ids
        (.prepare ⟨home, r, slot, 1⟩) := by
    rw [Coordinator.recover, if_neg hids']
  have hreads := reads_preparing (c := Coordinator.recover home n r slot ids) (by rw [hcall]; rfl)
    (prepareArrivals ⟨home, r, slot, 1⟩ peers)
  have hsize : (Coordinator.recover home n r slot ids).size = n := by rw [hcall]; rfl
  have hlen : (Coordinator.recover home n r slot ids).peers.length = peers.length := by
    rw [hcall]
    exact hids
  rw [hsize, hlen, hphase, values_prepareArrivals, List.map_map] at hreads
  exact hreads

/-- The value that `recover` takes to the Accept round is that of an accepted record with the highest ballot
if and only if the value of the last accepted record to arrive is. -/
theorem recover_adopts_iff (home n r : Nat) (slot : Int) (ids : List Nat)
    {peers : List (UInt32 × ReplicaInner)} (hids : ids.length = peers.length)
    (hcommitted : ∀ peer ∈ peers, ∀ inst, peer.2.record? r slot = some inst → inst.status ≠ .committed)
    {last : Instance} (hlast : (acceptedRecords r slot peers).getLast? = some last) :
    (∃ v, preparePhase n peers.length (prepareArrivals ⟨home, r, slot, 1⟩ peers) = .ok (.accepted v) ∧
      (Coordinator.recover home n r slot ids).reads
          (peers.map fun peer => .prepare (handlePrepareInner peer.2 ⟨home, r, slot, 1⟩)) =
        (Coordinator.recover home n r slot ids).accept v ∧
      OfHighestBallot (acceptedRecords r slot peers) v) ↔
    OfHighestBallot (acceptedRecords r slot peers) last.value := by
  obtain ⟨hphase, hreads⟩ := recover_adopts_last home n r slot ids hids hcommitted hlast
  constructor
  · rintro ⟨v, hv, -, hhighest⟩
    rw [hphase] at hv
    cases hv
    exact hhighest
  · intro hhighest
    exact ⟨last.value, hphase, hreads, hhighest⟩

/-- Replica `id` of five after an Accept for the first instance of replica 0. -/
def holding (id : Nat) (ballot : Int) (v : Value) : ReplicaInner :=
  { ReplicaInner.new id 5 with
    instances := [[⟨v.cmds, v.seq, v.deps, .accepted, ballot⟩], [], [], [], []]
    executed := [[false], [], [], [], []] }

/-- The value the leader had proposed, and the one of a recovery that found nothing. -/
def ledValue : Value := ⟨[putX], 2, [-1, 0, -1, -1, -1]⟩

def nopValue : Value := ⟨[], 0, [-1, -1, -1, -1, -1]⟩

/-- The Accept rounds of the leader and of a recoverer have overlapped: each reached one replica. -/
def overlapped : List (UInt32 × ReplicaInner) :=
  [(1, holding 1 1 nopValue), (2, holding 2 0 ledValue), (0, .new 0 5), (3, .new 3 5)]

theorem committed_overlapped : ∀ peer ∈ overlapped, ∀ inst,
    peer.2.record? 0 0 = some inst → inst.status ≠ .committed := by
  simp [overlapped, holding, ReplicaInner.record?, ReplicaInner.instance?, ReplicaInner.new]

/-- The reply with the higher ballot arrives last. -/
theorem recover_adopts_iff_reverse : ∃ v,
    preparePhase 5 4 (prepareArrivals ⟨4, 0, 0, 1⟩ overlapped.reverse) = .ok (.accepted v) ∧
    OfHighestBallot (acceptedRecords 0 0 overlapped.reverse) v := by
  obtain ⟨v, hphase, -, hhighest⟩ := (recover_adopts_iff 4 5 0 0 [0, 1, 2, 3] rfl
    (fun peer hpeer => committed_overlapped peer (List.mem_reverse.mp hpeer)) rfl).mpr (by decide)
  exact ⟨v, hphase, hhighest⟩

/-- The reply with the higher ballot arrives first, and the other value is taken over. -/
theorem not_adopts_overlapped :
    (handleAcceptInner (ReplicaInner.new 1 5) ⟨3, 0, 0, 1, 0, [-1, -1, -1, -1, -1], []⟩).map Prod.fst =
      some (holding 1 1 nopValue) ∧
    (handleAcceptInner (ReplicaInner.new 2 5) ⟨0, 0, 0, 0, 2, [-1, 0, -1, -1, -1], [putX]⟩).map Prod.fst =
      some (holding 2 0 ledValue) ∧
    ¬∀ (home n r : Nat) (slot : Int) (peers : List (UInt32 × ReplicaInner)),
      (∀ peer ∈ peers, ∀ inst, peer.2.record? r slot = some inst → inst.status ≠ .committed) →
      acceptedRecords r slot peers ≠ [] →
      ∃ v, preparePhase n peers.length (prepareArrivals ⟨home, r, slot, 1⟩ peers) = .ok (.accepted v) ∧
        OfHighestBallot (acceptedRecords r slot peers) v := by
  refine ⟨rfl, rfl, fun h => ?_⟩
  obtain ⟨v, hphase, hhighest⟩ := h 4 5 0 0 overlapped committed_overlapped (by decide)
  have hlast := (recover_adopts_last 4 5 0 0 [0, 1, 2, 3] rfl committed_overlapped rfl).1
  rw [hphase] at hlast
  cases hlast
  exact absurd hhighest (by decide)

end Epaxos

end Quorums
