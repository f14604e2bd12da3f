import Mathlib.Data.List.Forall2
import Mathlib.Data.List.Perm.Basic
import Quorums.EpaxosWellFormed

/-! One proposal and its peers. The rounds of a `propose` call are seen as a machine of their own: the phase of
the call, and for every peer the requests on their way, the replies on their way, and the record of the
instance. Its invariant says what backs the value the call goes on with. -/

namespace Quorums.Epaxos

/-! ### What a run shows -/

/-- What can be observed of the PreAccept rounds: the attributes a proposal starts with, the answer of a peer,
and the replies a decision was made from. -/
inductive Event where
  | started (key : Nat × Int) (v : Value)
  | answered (peer : Nat) (req : Proposal) (reply : PreAcceptReply)
  | decided (key : Nat × Int) (replies : List PreAcceptReply) (v : Value) (fastPath : Bool)
  deriving DecidableEq, Repr

/-- The decision that the closure makes when it is given one more reply. -/
def Coordinator.decision (c : Coordinator) (r : PreAcceptReply) : Option Event :=
  match c.phase with
  | .preAccepting cmds seq deps replies =>
      (preAcceptDecision (c.size - 1) (c.size / 2) seq deps (replies ++ [r])).map fun d =>
        .decided c.key (replies ++ [r]) ⟨cmds, d.1, d.2.1⟩ d.2.2
  | _ => none

/-- What an action shows when it is taken in the state `s`. -/
def observe (rt : Runtime) (s : State) : Act → List Event
  | .propose i cmds _ _ =>
      ((s.running? i).bind fun rep =>
        if rep.poisoned then none
        else
          (rep.inner.startProposal rt cmds).map fun (_, slot, seq, deps) =>
            Event.started (rep.inner.id, slot) ⟨cmds, seq, deps⟩).toList
  | .deliver i j =>
      match s.requests (i, j) with
      | (_, .preAccept req) :: _ =>
          ((s.running? j).bind fun rep =>
            if rep.poisoned then none
            else (handlePreAcceptInner rt rep.inner req).map fun (_, reply) => Event.answered j req reply).toList
      | _ => []
  | .receive i j =>
      match s.replies (j, i) with
      | (c, .preAccept r) :: _ => ((s.call? c).bind fun call => call.decision r).toList
      | _ => []
  | _ => []

/-! ### Decisions -/

/-- The PreAccept of the instance `key` with the attributes it starts with. -/
def preAcceptOf (key : Nat × Int) (v : Value) : Proposal := ⟨key.1, key.1, key.2, 0, v.seq, v.deps, v.cmds⟩

/-- A decision for `v`: it is at least the initial attributes and every reply counted, nothing is made up, and
the fast path changes nothing. -/
structure Decides (n : Nat) (orig : Value) (replies : List PreAcceptReply) (v : Value) (fastPath : Bool) :
    Prop where
  cmds_eq : v.cmds = orig.cmds
  distinct : (replies.map PreAcceptReply.replica).Nodup
  quorum : n / 2 ≤ replies.length
  fast : fastPath = true → v = orig
  seq_le : orig.seq ≤ v.seq
  deps_le : List.Forall₂ (· ≤ ·) orig.deps v.deps
  reply_seq_le : ∀ r ∈ replies, r.seq ≤ v.seq
  reply_deps_le : ∀ r ∈ replies, List.Forall₂ (· ≤ ·) r.deps v.deps
  origin : ∀ (i : Nat) (d : Int), v.deps[i]? = some d → orig.deps[i]? = some d ∨ ∃ r ∈ replies, r.deps[i]? = some d

section Merge

variable {n : Nat} {deps deps' : List Int} {replies : List PreAcceptReply}

theorem le_mergedSeq (seq : Int) (replies : List PreAcceptReply) :
    seq ≤ replies.foldl (fun seq r => max seq r.seq) seq ∧
      ∀ r ∈ replies, r.seq ≤ replies.foldl (fun seq r => max seq r.seq) seq := by
  induction replies generalizing seq with
  | nil => exact ⟨le_rfl, nofun⟩
  | cons x replies ih =>
      obtain ⟨hbase, hrest⟩ := ih (max seq x.seq)
      refine ⟨(le_max_left ..).trans hbase, fun r hr => ?_⟩
      rcases List.mem_cons.mp hr with rfl | hr
      · exact (le_max_right ..).trans hbase
      · exact hrest r hr

theorem forall₂_le_zipWith_max (h : deps.length = deps'.length) :
    List.Forall₂ (· ≤ ·) deps (List.zipWith max deps deps') ∧
      List.Forall₂ (· ≤ ·) deps' (List.zipWith max deps deps') := by
  induction deps generalizing deps' with
  | nil =>
      rw [List.length_nil, eq_comm, List.length_eq_zero_iff] at h
      subst h
      exact ⟨.nil, .nil⟩
  | cons d deps ih =>
      cases deps' with
      | nil => cases h
      | cons d' deps' =>
          obtain ⟨hleft, hright⟩ := ih (Nat.succ.inj h)
          exact ⟨.cons (le_max_left ..) hleft, .cons (le_max_right ..) hright⟩

theorem forall₂_le_trans {deps'' : List Int} (h : List.Forall₂ (· ≤ ·) deps deps')
    (h' : List.Forall₂ (· ≤ ·) deps' deps'') : List.Forall₂ (· ≤ ·) deps deps'' := by
  induction h generalizing deps'' with
  | nil => exact h'
  | cons hle _ ih =>
      cases h' with
      | cons hle' h' => exact .cons (hle.trans hle') (ih h')

/-- The merged dependencies: the least upper bound of the initial ones and those of the replies. -/
theorem mergedDeps_spec (hdeps : deps.length = n) (hreplies : ∀ r ∈ replies, r.deps.length = n) :
    List.Forall₂ (· ≤ ·) deps (replies.foldl (fun deps r => mergeDeps deps r.deps) deps) ∧
      (∀ r ∈ replies, List.Forall₂ (· ≤ ·) r.deps (replies.foldl (fun deps r => mergeDeps deps r.deps) deps)) ∧
      ∀ (i : Nat) (d : Int), (replies.foldl (fun deps r => mergeDeps deps r.deps) deps)[i]? = some d →
        deps[i]? = some d ∨ ∃ r ∈ replies, r.deps[i]? = some d := by
  induction replies generalizing deps with
  | nil => exact ⟨List.forall₂_refl _, nofun, fun i d h => Or.inl h⟩
  | cons x replies ih =>
      have hx : x.deps.length = n := hreplies x List.mem_cons_self
      have hlen : deps.length = x.deps.length := hdeps.trans hx.symm
      have hmerge := mergeDeps_eq hlen
      have hmergeLen : (mergeDeps deps x.deps).length = n := by
        rw [hmerge, List.length_zipWith, hdeps, hx, Nat.min_self]
      obtain ⟨hbase, hrest, horigin⟩ := ih hmergeLen fun r hr => hreplies r (List.mem_cons_of_mem x hr)
      rw [List.foldl_cons]
      rw [hmerge] at hbase hrest horigin ⊢
      obtain ⟨hleft, hright⟩ := forall₂_le_zipWith_max hlen
      refine ⟨forall₂_le_trans hleft hbase, fun r hr => ?_, fun i d hd => ?_⟩
      · rcases List.mem_cons.mp hr with rfl | hr
        · exact forall₂_le_trans hright hbase
        · exact hrest r hr
      · rcases horigin i d hd with hmem | ⟨r, hr, hmem⟩
        · obtain ⟨a, b, ha, hb, rfl⟩ := List.getElem?_zipWith_eq_some.mp hmem
          rcases le_total b a with hle | hle
          · exact Or.inl (by rw [ha, max_eq_left hle])
          · exact Or.inr ⟨x, List.mem_cons_self, by rw [hb, max_eq_right hle]⟩
        · exact Or.inr ⟨r, List.mem_cons_of_mem x hr, hmem⟩

end Merge

/-- What the closure of the PreAccept round decides. -/
theorem decides_of_preAcceptDecision {n : Nat} (cmds : List Command) {seq seq' : Int}
    {deps deps' : List Int} {replies : List PreAcceptReply} {fastPath : Bool} (hdeps : deps.length = n)
    (hreplies : ∀ r ∈ replies, r.deps.length = n)
    (hequal : ∀ r ∈ replies, r.status = .preacceptedEq → r.seq = seq ∧ r.deps = deps)
    (hdistinct : (replies.map PreAcceptReply.replica).Nodup)
    (h : preAcceptDecision (n - 1) (n / 2) seq deps replies = some (seq', deps', fastPath)) :
    Decides n ⟨cmds, seq, deps⟩ replies ⟨cmds, seq', deps'⟩ fastPath ∧
      (fastPath = true → n - 1 ≤ replies.length ∧ ∀ r ∈ replies, r.status = .preacceptedEq) := by
  obtain ⟨hseq, hreplyseq⟩ := le_mergedSeq seq replies
  obtain ⟨hbase, hreply, horigin⟩ := mergedDeps_spec hdeps hreplies
  have hslow (hquorum : n / 2 ≤ replies.length) : Decides n ⟨cmds, seq, deps⟩ replies
      ⟨cmds, replies.foldl (fun seq r => max seq r.seq) seq,
        replies.foldl (fun deps r => mergeDeps deps r.deps) deps⟩ false :=
    ⟨rfl, hdistinct, hquorum, nofun, hseq, hbase, hreplyseq, hreply, horigin⟩
  simp only [preAcceptDecision] at h
  split at h
  · rename_i hfast
    cases h
    have hall : ∀ r ∈ replies, r.status = .preacceptedEq := by simpa using hfast.2
    refine ⟨⟨rfl, hdistinct, by omega, fun _ => rfl, le_rfl, List.forall₂_refl _,
      fun r hr => ?_, fun r hr => ?_, fun i d hd => Or.inl hd⟩, fun _ => ⟨hfast.1, hall⟩⟩
    · exact le_of_eq (hequal r hr (hall r hr)).1
    · rw [(hequal r hr (hall r hr)).2]
      exact List.forall₂_refl _
  · split at h
    · rename_i hquorum
      cases h
      exact ⟨hslow (by omega), nofun⟩
    · split at h
      · rename_i hquorum
        cases h
        exact ⟨hslow hquorum.2, nofun⟩
      · cases h

/-- The value `v` of the instance was decided, from initial attributes and replies that the run shows. -/
def Decided (n : Nat) (seen : List Event) (key : Nat × Int) (orig v : Value) (fastPath : Bool) : Prop :=
  Event.started key orig ∈ seen ∧ ∃ replies, Event.decided key replies v fastPath ∈ seen ∧
    Decides n orig replies v fastPath ∧
      ∀ r ∈ replies, ∃ j : Nat, r.replica = j ∧ j < n ∧ j ≠ key.1 ∧ Event.answered j (preAcceptOf key orig) r ∈ seen

theorem Decided.mono {n : Nat} {seen seen' : List Event} {key : Nat × Int} {orig v : Value} {fastPath : Bool}
    (h : Decided n seen key orig v fastPath) (hsub : seen ⊆ seen') : Decided n seen' key orig v fastPath := by
  obtain ⟨hstarted, replies, hdecided, hdecides, hreplies⟩ := h
  refine ⟨hsub hstarted, replies, hsub hdecided, hdecides, fun r hr => ?_⟩
  obtain ⟨j, hreplica, hlt, hne, hanswered⟩ := hreplies r hr
  exact ⟨j, hreplica, hlt, hne, hsub hanswered⟩

/-! ### The machine -/

/-- A `propose` call on a cluster of `n` replicas, with all others as peers. -/
structure Proposing (n : Nat) (c : Coordinator) : Prop where
  replica_eq : c.replica = c.home
  ballot_eq : c.ballot = 0
  size_eq : c.size = n
  nodup : c.peers.Nodup
  mem_peers : ∀ j, j ∈ c.peers ↔ j < n ∧ j ≠ c.home
  length_peers : c.peers.length = n - 1

theorem Proposing.proposal_eq {n : Nat} {c : Coordinator} (h : Proposing n c) (v : Value) :
    c.proposal v = preAcceptOf c.key v := by
  simp only [Coordinator.proposal, preAcceptOf, Coordinator.key, h.replica_eq, h.ballot_eq]

/-- A call with its peers: the requests that are still to reach each of them, in the order in which they will,
the replies that are still to be read, and the records of the instance. -/
structure View where
  phase : Phase
  track : Nat → List Request
  answers : Nat → List Reply
  record : Nat → Option Instance

/-- The rounds of the call are over. -/
def Phase.Over : Phase → Prop
  | .notifying _ _ | .done _ | .failed => True
  | _ => False

/-- A round of `recover`. -/
def Phase.Recovers : Phase → Prop
  | .preparing _ | .tryPreAccepting _ _ => True
  | _ => False

/-- A record that is there stays as it is. -/
def Keeps (old new : Option Instance) : Prop := ∀ inst, old = some inst → new = some inst

theorem Keeps.refl (old : Option Instance) : Keeps old old := fun _ h => h

/-- The peer `j` has answered the PreAccept `p` with `r`, and its record says the same. -/
structure Answers (n : Nat) (seen : List Event) (p : Proposal) (j : Nat) (record : Option Instance)
    (r : PreAcceptReply) : Prop where
  replica_eq : r.replica = j
  answered : Event.answered j p r ∈ seen
  length_eq : r.deps.length = n
  record : ∃ inst, record = some inst ∧ inst.value = ⟨p.cmds, r.seq, r.deps⟩
  equal : r.status = .preacceptedEq → r.seq = p.seq ∧ r.deps = p.deps

/-- The record is accepted with the value `v`. -/
def Accepted (v : Value) (record : Option Instance) : Prop :=
  ∃ inst, record = some inst ∧ inst.status = .accepted ∧ inst.value = v

/-- What becomes of the record of the peer `j` and what it sends when a request reaches it. -/
def Serves (n : Nat) (seen : List Event) (j : Nat) (old new : Option Instance) (out : List Reply) : Request → Prop
  | .preAccept p => (Keeps old new ∧ out = []) ∨ ∃ r, out = [.preAccept r] ∧ Answers n seen p j new r
  | .accept p => (Keeps old new ∧ out = []) ∨ ∃ r, out = [.accept r] ∧ Accepted p.value new
  | _ => True

/-- What a reply makes of the phase, and the requests it has sent. -/
inductive Reads (seen : List Event) (c : Coordinator) : Phase → Reply → Phase → List (Nat × Request) → Prop where
  | ignored {phase : Phase} {reply : Reply} : Reads seen c phase reply phase []
  | counted {cmds : List Command} {seq : Int} {deps : List Int} {replies : List PreAcceptReply} {r : PreAcceptReply} :
      Reads seen c (.preAccepting cmds seq deps replies) (.preAccept r)
        (.preAccepting cmds seq deps (replies ++ [r])) []
  | fast {cmds : List Command} {seq seq' : Int} {deps deps' : List Int} {replies : List PreAcceptReply}
      {r : PreAcceptReply}
      (hdecision : preAcceptDecision (c.size - 1) (c.size / 2) seq deps (replies ++ [r]) = some (seq', deps', true))
      (hseen : Event.decided c.key (replies ++ [r]) ⟨cmds, seq', deps'⟩ true ∈ seen) :
      Reads seen c (.preAccepting cmds seq deps replies) (.preAccept r) (.committing ⟨cmds, seq', deps'⟩ true) []
  | slow {cmds : List Command} {seq seq' : Int} {deps deps' : List Int} {replies : List PreAcceptReply}
      {r : PreAcceptReply}
      (hdecision : preAcceptDecision (c.size - 1) (c.size / 2) seq deps (replies ++ [r]) = some (seq', deps', false))
      (hseen : Event.decided c.key (replies ++ [r]) ⟨cmds, seq', deps'⟩ false ∈ seen) :
      Reads seen c (.preAccepting cmds seq deps replies) (.preAccept r) (.accepting ⟨cmds, seq', deps'⟩ 0)
        (c.peers.map fun p => (p, .accept (c.proposal ⟨cmds, seq', deps'⟩)))
  | more {v : Value} {count : Nat} {r : AcceptReply} :
      Reads seen c (.accepting v count) (.accept r) (.accepting v (count + 1)) []
  | enough {v : Value} {count : Nat} {r : AcceptReply} (hcount : c.size / 2 ≤ count + 1) :
      Reads seen c (.accepting v count) (.accept r) (.committing v false) []

/-- A step of the machine. Requests and replies may get lost at any time. -/
inductive View.Step (n : Nat) (seen : List Event) (c : Coordinator) (w w' : View) : Prop where
  | drift (hphase : w'.phase = w.phase) (htrack : ∀ j, (w'.track j).Sublist (w.track j))
      (hanswers : ∀ j, (w'.answers j).Sublist (w.answers j)) (hrecord : ∀ j, Keeps (w.record j) (w'.record j))
  | served {j : Nat} {req : Request} {rest : List Request} (out : List Reply) (hphase : w'.phase = w.phase)
      (hhead : w.track j = req :: rest) (htrack : w'.track = Function.update w.track j rest)
      (hanswers : w'.answers = Function.update w.answers j (w.answers j ++ out))
      (hrecord : ∀ i, i ≠ j → w'.record i = w.record i)
      (hserves : Serves n seen j (w.record j) (w'.record j) out req)
  | received {j : Nat} {reply : Reply} {rest : List Reply} {new : List (Nat × Request)}
      (hhead : w.answers j = reply :: rest) (hreads : Reads seen c w.phase reply w'.phase new)
      (htrack : ∀ i, w'.track i = w.track i ++ Tagged.select i new)
      (hanswers : w'.answers = Function.update w.answers j rest) (hrecord : w'.record = w.record)
  | ended (hover : w'.phase.Over) (htrack : ∀ j p, Request.preAccept p ∈ w'.track j → Request.preAccept p ∈ w.track j)
  | foreign (hrecovers : w.phase.Recovers)

/-! ### Its invariant -/

/-- The PreAccept round. A peer has its PreAccept to come, or its answer is on the way, or it was counted. -/
structure Collecting (n : Nat) (seen : List Event) (c : Coordinator) (orig : Value) (replies : List PreAcceptReply)
    (w : View) : Prop where
  started : Event.started c.key orig ∈ seen
  length_eq : orig.deps.length = n
  once : ∀ j : Nat, (w.track j).length + (w.answers j).length + replies.countP (fun r => r.replica = (j : Int)) ≤
    if j ∈ c.peers then 1 else 0
  track : ∀ j, ∀ req ∈ w.track j, req = .preAccept (preAcceptOf c.key orig)
  answers : ∀ j, ∀ reply ∈ w.answers j, ∃ r, reply = .preAccept r ∧
    Answers n seen (preAcceptOf c.key orig) j (w.record j) r
  replies : ∀ r ∈ replies, ∃ j ∈ c.peers, Answers n seen (preAcceptOf c.key orig) j (w.record j) r

def Reply.isAccept : Reply → Bool
  | .accept _ => true
  | _ => false

/-- The peer `j` in the Accept round: the Accept is to come, or the record is accepted and no request is left
that could change it. -/
inductive Paced (c : Coordinator) (orig v : Value) (counted : List Nat) (w : View) (j : Nat) : Prop where
  | ahead (hcounted : j ∉ counted) (hanswers : ∀ r, Reply.accept r ∉ w.answers j)
      (htrack : (w.track j).Sublist [.preAccept (preAcceptOf c.key orig), .accept (preAcceptOf c.key v)])
      (hpeer : j ∈ c.peers ∨ w.track j = [])
  | reached (hpeer : j ∈ c.peers) (htrack : w.track j = []) (hrecord : Accepted v (w.record j))
      (honce : (w.answers j).countP Reply.isAccept + (if j ∈ counted then 1 else 0) ≤ 1)

/-- The Accept round, with the peers that were counted. -/
structure Accepting (c : Coordinator) (orig v : Value) (counted : List Nat) (w : View) : Prop where
  nodup : counted.Nodup
  peers : ∀ j ∈ counted, j ∈ c.peers
  paced : ∀ j, Paced c orig v counted w j

/-- What backs a commit. -/
def Backed (n : Nat) (c : Coordinator) (v : Value) (w : View) : Bool → Prop
  | true => ∀ j ∈ c.peers, w.track j = [] ∧ ∃ inst, w.record j = some inst ∧ inst.value = v
  | false => ∃ counted : List Nat, counted.Nodup ∧ n / 2 ≤ counted.length ∧
      ∀ j ∈ counted, j ∈ c.peers ∧ w.track j = [] ∧ Accepted v (w.record j)

def View.Inv (n : Nat) (seen : List Event) (c : Coordinator) (w : View) : Prop :=
  match w.phase with
  | .preAccepting cmds seq deps replies => Collecting n seen c ⟨cmds, seq, deps⟩ replies w
  | .accepting v count => ∃ orig, Decided n seen c.key orig v false ∧
      ∃ counted, counted.length = count ∧ Accepting c orig v counted w
  | .committing v fastPath => (∃ orig, Decided n seen c.key orig v fastPath) ∧ Backed n c v w fastPath
  | .notifying _ _ | .done _ | .failed => True
  | .preparing _ | .tryPreAccepting _ _ => False

variable {n : Nat} {seen seen' : List Event} {c : Coordinator} {w w' : View}

theorem Answers.mono {p : Proposal} {j : Nat} {record : Option Instance} {r : PreAcceptReply}
    (h : Answers n seen p j record r) (hsub : seen ⊆ seen') : Answers n seen' p j record r :=
  ⟨h.replica_eq, hsub h.answered, h.length_eq, h.record, h.equal⟩

theorem Answers.keeps {p : Proposal} {j : Nat} {record record' : Option Instance} {r : PreAcceptReply}
    (h : Answers n seen p j record r) (hkeeps : Keeps record record') : Answers n seen p j record' r := by
  obtain ⟨inst, hinst, hvalue⟩ := h.record
  exact ⟨h.replica_eq, h.answered, h.length_eq, ⟨inst, hkeeps inst hinst, hvalue⟩, h.equal⟩

theorem Accepted.keeps {v : Value} {record record' : Option Instance} (h : Accepted v record)
    (hkeeps : Keeps record record') : Accepted v record' := by
  obtain ⟨inst, hinst, haccepted⟩ := h
  exact ⟨inst, hkeeps inst hinst, haccepted⟩

theorem View.Inv.mono (h : w.Inv n seen c) (hsub : seen ⊆ seen') : w.Inv n seen' c := by
  rw [View.Inv] at h ⊢
  split
  · rename_i hphase
    rw [hphase] at h
    refine ⟨hsub h.started, h.length_eq, h.once, h.track, fun j reply hreply => ?_, fun r hr => ?_⟩
    · obtain ⟨r, heq, hr⟩ := h.answers j reply hreply
      exact ⟨r, heq, hr.mono hsub⟩
    · obtain ⟨j, hj, hanswers⟩ := h.replies r hr
      exact ⟨j, hj, hanswers.mono hsub⟩
  · rename_i hphase
    rw [hphase] at h
    obtain ⟨orig, hdecided, hcounted⟩ := h
    exact ⟨orig, hdecided.mono hsub, hcounted⟩
  · rename_i hphase
    rw [hphase] at h
    obtain ⟨⟨orig, hdecided⟩, hbacked⟩ := h
    exact ⟨⟨orig, hdecided.mono hsub⟩, hbacked⟩
  · trivial
  · trivial
  · trivial
  all_goals
    rename_i hphase
    rw [hphase] at h
    exact h

theorem View.Inv.not_recovers (h : w.Inv n seen c) : ¬w.phase.Recovers := by
  intro hrecovers
  rw [View.Inv] at h
  split at h
  all_goals first
    | exact h
    | rename_i hphase
      rw [hphase] at hrecovers
      exact hrecovers

/-! Messages get lost. -/

theorem Collecting.drift {orig : Value} {replies : List PreAcceptReply} (h : Collecting n seen c orig replies w)
    (htrack : ∀ j, (w'.track j).Sublist (w.track j)) (hanswers : ∀ j, (w'.answers j).Sublist (w.answers j))
    (hrecord : ∀ j, Keeps (w.record j) (w'.record j)) : Collecting n seen c orig replies w' where
  started := h.started
  length_eq := h.length_eq
  once j := by
    have honce := h.once j
    have htrack := (htrack j).length_le
    have hanswers := (hanswers j).length_le
    omega
  track j req hreq := h.track j req ((htrack j).subset hreq)
  answers j reply hreply := by
    obtain ⟨r, heq, hr⟩ := h.answers j reply ((hanswers j).subset hreply)
    exact ⟨r, heq, hr.keeps (hrecord j)⟩
  replies r hr := by
    obtain ⟨j, hj, hanswers⟩ := h.replies r hr
    exact ⟨j, hj, hanswers.keeps (hrecord j)⟩

theorem Paced.drift {orig v : Value} {counted : List Nat} {j : Nat} (h : Paced c orig v counted w j)
    (htrack : (w'.track j).Sublist (w.track j)) (hanswers : (w'.answers j).Sublist (w.answers j))
    (hrecord : Keeps (w.record j) (w'.record j)) : Paced c orig v counted w' j := by
  have hempty (hnil : w.track j = []) : w'.track j = [] := by
    rw [hnil] at htrack
    exact List.sublist_nil.mp htrack
  cases h with
  | ahead hcounted hnone hsub hpeer =>
      refine .ahead hcounted (fun r hr => hnone r (hanswers.subset hr)) (htrack.trans hsub) ?_
      exact hpeer.imp_right hempty
  | reached hpeer hnil haccepted honce =>
      refine .reached hpeer (hempty hnil) (haccepted.keeps hrecord) ?_
      have hle := hanswers.countP_le (p := Reply.isAccept)
      omega

theorem Backed.drift {v : Value} {fastPath : Bool} (h : Backed n c v w fastPath)
    (htrack : ∀ j, (w'.track j).Sublist (w.track j)) (hrecord : ∀ j, Keeps (w.record j) (w'.record j)) :
    Backed n c v w' fastPath := by
  have hempty {j : Nat} (hnil : w.track j = []) : w'.track j = [] := List.sublist_nil.mp (hnil ▸ htrack j)
  cases fastPath with
  | true =>
      intro j hj
      obtain ⟨hnil, inst, hinst, hvalue⟩ := h j hj
      exact ⟨hempty hnil, inst, hrecord j inst hinst, hvalue⟩
  | false =>
      obtain ⟨counted, hnodup, hquorum, hcounted⟩ := h
      refine ⟨counted, hnodup, hquorum, fun j hj => ?_⟩
      obtain ⟨hpeer, hnil, haccepted⟩ := hcounted j hj
      exact ⟨hpeer, hempty hnil, haccepted.keeps (hrecord j)⟩

theorem View.Inv.drift (h : w.Inv n seen c) (hphase : w'.phase = w.phase)
    (htrack : ∀ j, (w'.track j).Sublist (w.track j)) (hanswers : ∀ j, (w'.answers j).Sublist (w.answers j))
    (hrecord : ∀ j, Keeps (w.record j) (w'.record j)) : w'.Inv n seen c := by
  rw [View.Inv, hphase]
  rw [View.Inv] at h
  split at h
  · exact h.drift htrack hanswers hrecord
  · obtain ⟨orig, hdecided, counted, hcount, haccepting⟩ := h
    exact ⟨orig, hdecided, counted, hcount, haccepting.nodup, haccepting.peers,
      fun j => (haccepting.paced j).drift (htrack j) (hanswers j) (hrecord j)⟩
  · exact ⟨h.1, h.2.drift htrack hrecord⟩
  all_goals exact h

/-! A request reaches a peer. -/

section Served

variable {orig v : Value} {j : Nat} {req : Request} {rest : List Request} {out : List Reply}

theorem Collecting.served {replies : List PreAcceptReply} (h : Collecting n seen c orig replies w)
    (hhead : w.track j = req :: rest) (htrack : w'.track = Function.update w.track j rest)
    (hanswers : w'.answers = Function.update w.answers j (w.answers j ++ out))
    (hrecord : ∀ i, i ≠ j → w'.record i = w.record i)
    (hserves : Serves n seen j (w.record j) (w'.record j) out req) : Collecting n seen c orig replies w' := by
  have honce := h.once j
  have hreq := h.track j req (by rw [hhead]; exact List.mem_cons_self)
  subst hreq
  rw [hhead, List.length_cons] at honce
  have hpeer : j ∈ c.peers := by
    by_contra hnot
    rw [if_neg hnot] at honce
    omega
  rw [if_pos hpeer] at honce
  have hrest : rest = [] := List.eq_nil_of_length_eq_zero (by omega)
  have hnone : w.answers j = [] := List.eq_nil_of_length_eq_zero (by omega)
  have huncounted : replies.countP (fun r => r.replica = (j : Int)) = 0 := by omega
  have hout : out.length ≤ 1 ∧ ∀ reply ∈ out, ∃ r, reply = .preAccept r ∧
      Answers n seen (preAcceptOf c.key orig) j (w'.record j) r := by
    rcases hserves with ⟨-, rfl⟩ | ⟨r, rfl, hr⟩
    · exact ⟨Nat.zero_le 1, nofun⟩
    · refine ⟨le_rfl, fun reply hreply => ?_⟩
      rw [List.mem_singleton.mp hreply]
      exact ⟨r, rfl, hr⟩
  rw [hnone, List.nil_append] at hanswers
  refine ⟨h.started, h.length_eq, fun i => ?_, fun i x hx => ?_, fun i reply hreply => ?_, fun r hr => ?_⟩
  · by_cases hi : i = j
    · subst hi
      rw [htrack, hanswers, Function.update_self, Function.update_self, huncounted, hrest, if_pos hpeer]
      simpa using hout.1
    · rw [htrack, hanswers, Function.update_of_ne hi, Function.update_of_ne hi]
      exact h.once i
  · by_cases hi : i = j
    · subst hi
      rw [htrack, Function.update_self, hrest] at hx
      cases hx
    · rw [htrack, Function.update_of_ne hi] at hx
      exact h.track i x hx
  · by_cases hi : i = j
    · subst hi
      rw [hanswers, Function.update_self] at hreply
      exact hout.2 reply hreply
    · rw [hanswers, Function.update_of_ne hi] at hreply
      rw [hrecord i hi]
      exact h.answers i reply hreply
  · obtain ⟨i, hi, hr'⟩ := h.replies r hr
    have hne : i ≠ j := by
      rintro rfl
      exact List.countP_eq_zero.mp huncounted r hr (by simpa using hr'.replica_eq)
    refine ⟨i, hi, ?_⟩
    rw [hrecord i hne]
    exact hr'

/-- A PreAccept or an Accept reaches the peer; nothing is left behind the Accept. -/
theorem Paced.served {counted : List Nat} (h : Paced c orig v counted w j) (hhead : w.track j = req :: rest)
    (htrack : w'.track j = rest) (hanswers : w'.answers j = w.answers j ++ out)
    (hserves : Serves n seen j (w.record j) (w'.record j) out req) : Paced c orig v counted w' j := by
  cases h with
  | reached _ hnil =>
      rw [hhead] at hnil
      cases hnil
  | ahead hcounted hnone hsub hleft =>
      rw [hhead] at hsub hleft
      have hpeer : j ∈ c.peers := hleft.resolve_right (List.cons_ne_nil req rest)
      have hahead (hrest : rest.Sublist [.accept (preAcceptOf c.key v)]) (hout : ∀ r, Reply.accept r ∉ out) :
          Paced c orig v counted w' j := by
        refine .ahead hcounted (fun r hr => ?_) (htrack ▸ hrest.cons _) (Or.inl hpeer)
        rw [hanswers] at hr
        exact (List.mem_append.mp hr).elim (hnone r) (hout r)
      rcases List.sublist_cons_iff.mp hsub with hsub | ⟨tail, heq, hrest⟩
      · rcases List.sublist_cons_iff.mp hsub with hsub | ⟨tail, heq, hrest⟩
        · cases hsub
        · cases heq
          rcases hserves with ⟨-, rfl⟩ | ⟨r, rfl, haccepted⟩
          · exact hahead (hrest.trans (List.nil_sublist _)) nofun
          · refine .reached hpeer (htrack.trans (List.sublist_nil.mp hrest)) haccepted ?_
            have hzero : (w.answers j).countP Reply.isAccept = 0 := by
              refine List.countP_eq_zero.mpr fun reply hreply => ?_
              cases reply with
              | accept x => exact absurd hreply (hnone x)
              | _ => exact Bool.false_ne_true
            rw [hanswers, List.countP_append, hzero, if_neg hcounted]
            exact le_rfl
      · cases heq
        refine hahead hrest fun r hr => ?_
        rcases hserves with ⟨-, rfl⟩ | ⟨x, rfl, -⟩
        · cases hr
        · simp at hr

theorem Backed.served {fastPath : Bool} (h : Backed n c v w fastPath) (hhead : w.track j = req :: rest)
    (htrack : w'.track = Function.update w.track j rest) (hrecord : ∀ i, i ≠ j → w'.record i = w.record i) :
    Backed n c v w' fastPath := by
  have hother {i : Nat} (hnil : w.track i = []) : w'.track i = [] ∧ w'.record i = w.record i := by
    have hne : i ≠ j := by
      rintro rfl
      rw [hhead] at hnil
      cases hnil
    exact ⟨by rw [htrack, Function.update_of_ne hne, hnil], hrecord i hne⟩
  cases fastPath with
  | true =>
      intro i hi
      obtain ⟨hnil, hvalue⟩ := h i hi
      obtain ⟨hnil', hsame⟩ := hother hnil
      exact ⟨hnil', hsame ▸ hvalue⟩
  | false =>
      obtain ⟨counted, hnodup, hquorum, hcounted⟩ := h
      refine ⟨counted, hnodup, hquorum, fun i hi => ?_⟩
      obtain ⟨hpeer, hnil, haccepted⟩ := hcounted i hi
      obtain ⟨hnil', hsame⟩ := hother hnil
      exact ⟨hpeer, hnil', hsame ▸ haccepted⟩

theorem View.Inv.served (h : w.Inv n seen c) (hphase : w'.phase = w.phase) (hhead : w.track j = req :: rest)
    (htrack : w'.track = Function.update w.track j rest)
    (hanswers : w'.answers = Function.update w.answers j (w.answers j ++ out))
    (hrecord : ∀ i, i ≠ j → w'.record i = w.record i)
    (hserves : Serves n seen j (w.record j) (w'.record j) out req) : w'.Inv n seen c := by
  rw [View.Inv, hphase]
  rw [View.Inv] at h
  split at h
  · exact h.served hhead htrack hanswers hrecord hserves
  · obtain ⟨orig, hdecided, counted, hcount, haccepting⟩ := h
    refine ⟨orig, hdecided, counted, hcount, haccepting.nodup, haccepting.peers, fun i => ?_⟩
    by_cases hi : i = j
    · subst hi
      exact (haccepting.paced i).served hhead (by rw [htrack, Function.update_self])
        (by rw [hanswers, Function.update_self]) hserves
    · refine (haccepting.paced i).drift ?_ ?_ ?_
      · rw [htrack, Function.update_of_ne hi]
      · rw [hanswers, Function.update_of_ne hi]
      · rw [hrecord i hi]
        exact Keeps.refl _
  · exact ⟨h.1, h.2.served hhead htrack hrecord⟩
  all_goals exact h

end Served

/-! A reply is read. -/

section Received

variable {orig v : Value} {j : Nat}

/-- One more reply of the PreAccept round. -/
theorem Collecting.count {replies : List PreAcceptReply} {r : PreAcceptReply} {rest : List Reply}
    (h : Collecting n seen c orig replies w) (hhead : w.answers j = .preAccept r :: rest)
    (htrack : w'.track = w.track) (hanswers : w'.answers = Function.update w.answers j rest)
    (hrecord : w'.record = w.record) : Collecting n seen c orig (replies ++ [r]) w' := by
  have hr : Answers n seen (preAcceptOf c.key orig) j (w.record j) r := by
    obtain ⟨r', heq, hr⟩ := h.answers j (.preAccept r) (by rw [hhead]; exact List.mem_cons_self)
    cases heq
    exact hr
  have hlen : (w.answers j).length = rest.length + 1 := by rw [hhead, List.length_cons]
  have hpeer : j ∈ c.peers := by
    by_contra hnot
    have honce := h.once j
    rw [if_neg hnot] at honce
    omega
  refine ⟨h.started, h.length_eq, fun i => ?_, fun i x hx => ?_, fun i reply hreply => ?_, fun x hx => ?_⟩
  · have honce := h.once i
    rw [htrack, hanswers, List.countP_append]
    by_cases hi : i = j
    · subst hi
      have hone : [r].countP (fun r => r.replica = (i : Int)) = 1 := by simp [hr.replica_eq]
      rw [Function.update_self, hone]
      omega
    · have hzero : [r].countP (fun r => r.replica = (i : Int)) = 0 := by
        have hne : (j : Int) ≠ i := fun heq => hi (Int.ofNat.inj heq).symm
        simp [hr.replica_eq, hne]
      rw [Function.update_of_ne hi, hzero]
      omega
  · rw [htrack] at hx
    exact h.track i x hx
  · rw [hrecord]
    refine h.answers i reply ?_
    by_cases hi : i = j
    · subst hi
      rw [hanswers, Function.update_self] at hreply
      rw [hhead]
      exact List.mem_cons_of_mem _ hreply
    · rwa [hanswers, Function.update_of_ne hi] at hreply
  · rw [hrecord]
    rcases List.mem_append.mp hx with hx | hx
    · exact h.replies x hx
    · rw [List.mem_singleton.mp hx]
      exact ⟨j, hpeer, hr⟩

theorem Collecting.distinct {replies : List PreAcceptReply} (h : Collecting n seen c orig replies w) :
    (replies.map PreAcceptReply.replica).Nodup := by
  refine List.nodup_iff_count_le_one.mpr fun a => ?_
  by_cases ha : a ∈ replies.map PreAcceptReply.replica
  · obtain ⟨r, hr, rfl⟩ := List.mem_map.mp ha
    obtain ⟨i, hi, hanswers⟩ := h.replies r hr
    have honce := h.once i
    rw [if_pos hi] at honce
    rw [hanswers.replica_eq, List.count, List.countP_map]
    have hsame : replies.countP ((fun x => x == (i : Int)) ∘ PreAcceptReply.replica) =
        replies.countP (fun r => r.replica = (i : Int)) := List.countP_congr fun r _ => by simp
    omega
  · rw [List.count_eq_zero_of_not_mem ha]
    exact Nat.zero_le 1

/-- The PreAccept round ends. -/
theorem Collecting.decide (hc : Proposing n c) {cmds : List Command} {seq seq' : Int}
    {deps deps' : List Int} {replies : List PreAcceptReply} {fastPath : Bool}
    (h : Collecting n seen c ⟨cmds, seq, deps⟩ replies w)
    (hdecision : preAcceptDecision (n - 1) (n / 2) seq deps replies = some (seq', deps', fastPath))
    (hseen : Event.decided c.key replies ⟨cmds, seq', deps'⟩ fastPath ∈ seen) :
    Decided n seen c.key ⟨cmds, seq, deps⟩ ⟨cmds, seq', deps'⟩ fastPath ∧
      (fastPath = true → Backed n c ⟨cmds, seq', deps'⟩ w true) := by
  have hlength : ∀ r ∈ replies, r.deps.length = n := by
    intro r hr
    obtain ⟨i, -, hanswers⟩ := h.replies r hr
    exact hanswers.length_eq
  have hequal : ∀ r ∈ replies, r.status = .preacceptedEq → r.seq = seq ∧ r.deps = deps := by
    intro r hr
    obtain ⟨i, -, hanswers⟩ := h.replies r hr
    exact hanswers.equal
  obtain ⟨hdecides, hfast⟩ :=
    decides_of_preAcceptDecision cmds h.length_eq hlength hequal h.distinct hdecision
  have hhome : c.key.1 = c.home := hc.replica_eq
  refine ⟨⟨h.started, replies, hseen, hdecides, fun r hr => ?_⟩, fun htrue j hj => ?_⟩
  · obtain ⟨i, hi, hanswers⟩ := h.replies r hr
    obtain ⟨hlt, hne⟩ := (hc.mem_peers i).mp hi
    exact ⟨i, hanswers.replica_eq, hlt, by rw [hhome]; exact hne, hanswers.answered⟩
  · obtain ⟨hall, heq⟩ := hfast htrue
    -- as many distinct peers as there are: every one of them was counted
    have hsub : replies.map PreAcceptReply.replica ⊆ c.peers.map (fun i : Nat => (i : Int)) := by
      intro a ha
      obtain ⟨r, hr, rfl⟩ := List.mem_map.mp ha
      obtain ⟨i, hi, hanswers⟩ := h.replies r hr
      exact List.mem_map.mpr ⟨i, hi, hanswers.replica_eq.symm⟩
    have hperm := (List.subperm_of_subset h.distinct hsub).perm_of_length_le
      (by rw [List.length_map, List.length_map, hc.length_peers]; exact hall)
    obtain ⟨r, hr, hreplica⟩ := List.mem_map.mp (hperm.mem_iff.mpr (List.mem_map_of_mem hj))
    obtain ⟨i, hi, hanswers⟩ := h.replies r hr
    have hij : i = j := Int.ofNat.inj (hanswers.replica_eq.symm.trans hreplica)
    subst hij
    have hcounted : 0 < replies.countP (fun r => r.replica = (i : Int)) :=
      List.countP_pos_iff.mpr ⟨r, hr, by simpa using hreplica⟩
    have honce := h.once i
    rw [if_pos hi] at honce
    refine ⟨List.eq_nil_of_length_eq_zero (by omega), ?_⟩
    obtain ⟨inst, hinst, hvalue⟩ := hanswers.record
    obtain ⟨hseq, hdeps⟩ := hanswers.equal (heq r hr)
    refine ⟨inst, hinst, hvalue.trans ?_⟩
    rw [hdecides.fast htrue, hseq, hdeps]
    rfl

/-- The Accept round begins. -/
theorem Collecting.accepting (hc : Proposing n c) {replies : List PreAcceptReply}
    (h : Collecting n seen c orig replies w)
    (htrack : ∀ i, w'.track i = w.track i ++
      Tagged.select i (c.peers.map fun p => (p, Request.accept (c.proposal v))))
    (hanswers : w'.answers = w.answers) : Accepting c orig v [] w' := by
  refine ⟨List.nodup_nil, nofun, fun j => ?_⟩
  have honce := h.once j
  have hpre : (w.track j).Sublist [.preAccept (preAcceptOf c.key orig)] := by
    cases hreqs : w.track j with
    | nil => exact List.nil_sublist _
    | cons req rest =>
        have hreq := h.track j req (by rw [hreqs]; exact List.mem_cons_self)
        rw [hreqs, List.length_cons] at honce
        have hrest : rest = [] := by
          refine List.eq_nil_of_length_eq_zero ?_
          split at honce <;> omega
        rw [hreq, hrest]
  have hnone : ∀ r, Reply.accept r ∉ w'.answers j := by
    intro r hr
    rw [hanswers] at hr
    obtain ⟨x, heq, -⟩ := h.answers j _ hr
    cases heq
  have hlast := htrack j
  rw [Tagged.select_map hc.nodup, hc.proposal_eq] at hlast
  by_cases hj : j ∈ c.peers
  · rw [if_pos hj] at hlast
    refine .ahead List.not_mem_nil hnone ?_ (Or.inl hj)
    rw [hlast]
    exact hpre.append (List.Sublist.refl [_])
  · rw [if_neg hj] at honce hlast
    have hnil : w.track j = [] := List.eq_nil_of_length_eq_zero (by omega)
    rw [hnil] at hlast
    refine .ahead List.not_mem_nil hnone ?_ (Or.inr hlast)
    rw [hlast]
    exact List.nil_sublist _

/-- One more Accept reply. -/
theorem Accepting.count {counted : List Nat} {r : AcceptReply} {rest : List Reply}
    (h : Accepting c orig v counted w) (hhead : w.answers j = .accept r :: rest) (htrack : w'.track = w.track)
    (hanswers : w'.answers = Function.update w.answers j rest) (hrecord : w'.record = w.record) :
    Accepting c orig v (j :: counted) w' := by
  have hreached : j ∈ c.peers ∧ w.track j = [] ∧ Accepted v (w.record j) ∧ rest.countP Reply.isAccept = 0 ∧
      j ∉ counted := by
    cases h.paced j with
    | ahead _ hnone => exact absurd (by rw [hhead]; exact List.mem_cons_self) (hnone r)
    | reached hpeer hnil haccepted honce =>
        rw [hhead, List.countP_cons_of_pos rfl] at honce
        split at honce
        · omega
        · rename_i hnot
          exact ⟨hpeer, hnil, haccepted, by omega, hnot⟩
  obtain ⟨hpeer, hnil, haccepted, hnone, hnot⟩ := hreached
  refine ⟨List.nodup_cons.mpr ⟨hnot, h.nodup⟩, fun i hi => ?_, fun i => ?_⟩
  · rcases List.mem_cons.mp hi with rfl | hi
    · exact hpeer
    · exact h.peers i hi
  · by_cases hi : i = j
    · subst hi
      refine .reached hpeer (by rw [htrack, hnil]) (by rw [hrecord]; exact haccepted) ?_
      rw [hanswers, Function.update_self, hnone, if_pos List.mem_cons_self]
    · have hsame : i ∈ j :: counted ↔ i ∈ counted := by simp [hi]
      cases h.paced i with
      | ahead hcounted hnone' hsub hleft =>
          refine .ahead (mt hsame.mp hcounted) ?_ (by rw [htrack]; exact hsub) (by rw [htrack]; exact hleft)
          rw [hanswers, Function.update_of_ne hi]
          exact hnone'
      | reached hpeer' hnil' haccepted' honce =>
          refine .reached hpeer' (by rw [htrack, hnil']) (by rw [hrecord]; exact haccepted') ?_
          rw [hanswers, Function.update_of_ne hi]
          simpa only [hsame] using honce

/-- The Accept round ends. -/
theorem Accepting.backed {counted : List Nat} (h : Accepting c orig v counted w) (hquorum : n / 2 ≤ counted.length) :
    Backed n c v w false := by
  refine ⟨counted, h.nodup, hquorum, fun j hj => ?_⟩
  cases h.paced j with
  | ahead hcounted => exact absurd hj hcounted
  | reached hpeer hnil haccepted => exact ⟨hpeer, hnil, haccepted⟩

theorem View.Inv.received (hc : Proposing n c) (h : w.Inv n seen c) {reply : Reply}
    {rest : List Reply} {new : List (Nat × Request)} (hhead : w.answers j = reply :: rest)
    (hreads : Reads seen c w.phase reply w'.phase new)
    (htrack : ∀ i, w'.track i = w.track i ++ Tagged.select i new)
    (hanswers : w'.answers = Function.update w.answers j rest) (hrecord : w'.record = w.record) :
    w'.Inv n seen c := by
  have hsame (hnew : new = []) : w'.track = w.track := by
    funext i
    rw [htrack, hnew, Tagged.select_nil, List.append_nil]
  generalize hbefore : w.phase = before at hreads
  generalize hafter : w'.phase = after at hreads
  rw [View.Inv, hbefore] at h
  cases hreads with
  | ignored =>
      have hinv : w.Inv n seen c := by
        rw [View.Inv, hbefore]
        exact h
      refine hinv.drift (hafter.trans hbefore.symm) (fun i => ?_) (fun i => ?_) fun i => ?_
      · rw [hsame rfl]
      · rw [hanswers]
        by_cases hi : i = j
        · subst hi
          rw [Function.update_self, hhead]
          exact List.sublist_cons_self _ _
        · rw [Function.update_of_ne hi]
      · rw [hrecord]
        exact Keeps.refl _
  | counted =>
      rw [View.Inv, hafter]
      exact h.count hhead (hsame rfl) hanswers hrecord
  | fast hdecision hseen =>
      rw [View.Inv, hafter]
      rw [hc.size_eq] at hdecision
      have hcollected := h.count hhead (hsame rfl) hanswers hrecord
      obtain ⟨hdecided, hbacked⟩ := hcollected.decide hc hdecision hseen
      exact ⟨⟨_, hdecided⟩, hbacked rfl⟩
  | @slow cmds seq seq' deps deps' replies r hdecision hseen =>
      rw [View.Inv, hafter]
      rw [hc.size_eq] at hdecision
      have hcollected : Collecting n seen c ⟨cmds, seq, deps⟩ (replies ++ [r]) { w' with track := w.track } :=
        h.count hhead rfl hanswers hrecord
      obtain ⟨hdecided, -⟩ := hcollected.decide hc hdecision hseen
      exact ⟨_, hdecided, [], rfl, hcollected.accepting hc htrack rfl⟩
  | more =>
      rw [View.Inv, hafter]
      obtain ⟨orig, hdecided, counted, hcount, haccepting⟩ := h
      exact ⟨orig, hdecided, j :: counted, by rw [List.length_cons, hcount],
        haccepting.count hhead (hsame rfl) hanswers hrecord⟩
  | enough hquorum =>
      rw [View.Inv, hafter]
      rw [hc.size_eq] at hquorum
      obtain ⟨orig, hdecided, counted, hcount, haccepting⟩ := h
      refine ⟨⟨orig, hdecided⟩, (haccepting.count hhead (hsame rfl) hanswers hrecord).backed ?_⟩
      rw [List.length_cons, hcount]
      exact hquorum

end Received

/-- No PreAccept is sent once the call has begun. -/
theorem View.Step.mem_track (hstep : View.Step n seen c w w') (hnot : ¬w.phase.Recovers) {j : Nat} {p : Proposal}
    (hmem : Request.preAccept p ∈ w'.track j) : Request.preAccept p ∈ w.track j := by
  cases hstep with
  | drift _ htrack => exact (htrack j).subset hmem
  | @served i req rest _ _ hhead htrack =>
      rw [htrack] at hmem
      by_cases hi : j = i
      · subst hi
        rw [Function.update_self] at hmem
        rw [hhead]
        exact List.mem_cons_of_mem req hmem
      · rwa [Function.update_of_ne hi] at hmem
  | received _ hreads htrack =>
      rw [htrack, List.mem_append] at hmem
      refine hmem.resolve_right fun hnew => ?_
      have hnew' := Tagged.mem_select.mp hnew
      generalize w.phase = before at hreads
      generalize w'.phase = after at hreads
      cases hreads with
      | slow =>
          obtain ⟨x, -, heq⟩ := List.mem_map.mp hnew'
          cases heq
      | _ => cases hnew'
  | ended _ htrack => exact htrack j p hmem
  | foreign hrecovers => exact absurd hrecovers hnot

/-- Every step of the machine keeps its invariant. -/
theorem View.Inv.step (hc : Proposing n c) (h : w.Inv n seen c) (hstep : View.Step n seen c w w') :
    w'.Inv n seen c := by
  cases hstep with
  | drift hphase htrack hanswers hrecord => exact h.drift hphase htrack hanswers hrecord
  | served out hphase hhead htrack hanswers hrecord hserves =>
      exact h.served hphase hhead htrack hanswers hrecord hserves
  | received hhead hreads htrack hanswers hrecord => exact h.received hc hhead hreads htrack hanswers hrecord
  | ended hover _ =>
      rw [View.Inv]
      split
      · rename_i hphase
        rw [hphase] at hover
        exact hover.elim
      · rename_i hphase
        rw [hphase] at hover
        exact hover.elim
      · rename_i hphase
        rw [hphase] at hover
        exact hover.elim
      · trivial
      · trivial
      · trivial
      all_goals
        rename_i hphase
        rw [hphase] at hover
        exact hover
  | foreign hrecovers => exact absurd hrecovers h.not_recovers

end Quorums.Epaxos
