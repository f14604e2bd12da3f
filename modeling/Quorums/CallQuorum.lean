import Quorums.CallInvariant
import Quorums.ConfigViews

/-! Quorum intersection: the nodes counted by two successful `threshold` calls on one configuration
overlap as soon as the two thresholds add up to more than its size. -/

namespace Quorums.Client

open Config

variable {T : Type} {env : Env T}

namespace Call

/-- The nodes whose successful replies the loop of the call has counted. -/
def counted (call : Call T) : Finset UInt32 :=
  ((OrderedResponses.oks call.taken).map OrderedNodeResponse.nodeId).toFinset

variable {call : Call T}

theorem oks_map_nodeResponse (taken : List (OrderedNodeResponse T)) :
    Responses.oks (taken.map fun r => ⟨r.nodeId, r.result⟩) =
      (OrderedResponses.oks taken).map fun r => ⟨r.nodeId, r.result⟩ := by
  rw [Responses.oks, OrderedResponses.oks, List.filter_map]
  rfl

theorem senders_map_nodeResponse (taken : List (OrderedNodeResponse T)) :
    Correctable.senders (taken.map fun r => ⟨r.nodeId, r.result⟩) =
      (taken.map OrderedNodeResponse.nodeId).toFinset := by
  rw [Correctable.senders, List.map_map]
  rfl

theorem closed_threshold_ne_ok (kind : CallKind) (size k : Nat) (v : T)
    (s : (env.loop kind size (.threshold k)).1) :
    (env.loop kind size (.threshold k)).2.closed s ≠ .ok v := by
  cases kind <;> exact Outcome.incomplete_ne_ok _ v

/-- The loops of `Responses` and `OrderedResponses` count successes. -/
theorem le_length_of_exit? {kind : CallKind} {size k : Nat} {taken : List (OrderedNodeResponse T)}
    {r : Except Error T} (hkind : kind ≠ .correctableCall)
    (h : (env.loop kind size (.threshold k)).2.exit? taken = some (.returned r)) :
    k ≤ (OrderedResponses.oks taken).length := by
  have hplain (h : ((Responses.threshold k).comap fun r : OrderedNodeResponse T =>
      ⟨r.nodeId, r.result⟩).exit? taken = some (.returned r)) :
      k ≤ (OrderedResponses.oks taken).length := by
    rw [ReceiveLoop.exit?_comap] at h
    have hle := Responses.le_length_oks h
    rwa [oks_map_nodeResponse, List.length_map] at hle
  cases kind with
  | orderedQuorumCall => exact OrderedResponses.le_length_oks h
  | correctableCall => exact absurd rfl hkind
  | _ => exact hplain h

/-- The loop of `Correctable` counts the nodes with a success. -/
theorem le_card_of_exit?_ok {size k : Nat} {taken : List (OrderedNodeResponse T)} {v : T}
    (h : (env.loop .correctableCall size (.threshold k)).2.exit? taken = some (.ok v)) :
    k ≤ ((OrderedResponses.oks taken).map OrderedNodeResponse.nodeId).toFinset.card := by
  simp only [Env.loop, ReceiveLoop.exit?_comap] at h
  rcases Correctable.threshold_exit h with ⟨-, hle⟩ | ⟨herr, -⟩
  · rwa [oks_map_nodeResponse, senders_map_nodeResponse] at hle
  · cases herr

/-- An `Ok` of `threshold` comes from a pass of the loop: closing and cancellation give errors. -/
theorem Settled.exit?_of_ok {k : Nat} {v : T} (h : Settled env call (.threshold k) (.ok v)) :
    (env.loop call.kind call.size (.threshold k)).2.exit? call.taken = some (.ok v) := by
  generalize hout : Outcome.ok v = out at h
  cases h with
  | left hexit => exact hexit
  | closed hended =>
      rcases (env.loop call.kind call.size (.threshold k)).2.result_cases call.taken with hexit | ⟨s, hs⟩
      · exact hexit
      · exact absurd (hs.symm.trans hout.symm) (closed_threshold_ne_ok _ _ _ v s)
  | cancelled => cases hout

/-- Two results of one task carry the position of the task; so do, when the IDs of the nodes differ,
two results with one ID. -/
theorem Inv.position_eq (h : Inv env call) (hids : (call.nodes.map NodeHandle.id).Nodup)
    {x y : OrderedNodeResponse T} (hx : x ∈ call.taken) (hy : y ∈ call.taken)
    (hid : x.nodeId = y.nodeId) : x.position = y.position := by
  obtain ⟨m, hm, hmx⟩ := (h.fromTask x (List.mem_append_left _ hx)).node
  obtain ⟨n, hn, hny⟩ := (h.fromTask y (List.mem_append_left _ hy)).node
  have hmap (p : Nat) (node : NodeHandle) (hp : call.nodes[p]? = some node) :
      (call.nodes.map NodeHandle.id)[p]? = some node.id := by
    rw [List.getElem?_map, hp, Option.map_some]
  have hlt := (List.getElem?_eq_some_iff.mp (hmap _ _ hm)).1
  refine (List.getElem?_inj hlt hids).mp ?_
  rw [hmap _ _ hm, hmap _ _ hn, hmx, hny, hid]

theorem Inv.nodup_positions (h : Inv env call) (hkind : call.kind ≠ .correctableCall) :
    ((OrderedResponses.oks call.taken).map OrderedNodeResponse.position).Nodup := by
  refine List.Nodup.sublist ?_ (h.nodup hkind)
  rw [List.map_append]
  exact (List.filter_sublist.map _).trans (List.sublist_append_left ..)

/-- One result per node: the nodes counted are as many as the successes read. -/
theorem Inv.card_counted (h : Inv env call) (hids : (call.nodes.map NodeHandle.id).Nodup)
    (hkind : call.kind ≠ .correctableCall) :
    call.counted.card = (OrderedResponses.oks call.taken).length := by
  have hpositions := h.nodup_positions hkind
  have hnodup : ((OrderedResponses.oks call.taken).map OrderedNodeResponse.nodeId).Nodup := by
    refine List.Nodup.map_on (fun x hx y hy hid => ?_) hpositions.of_map
    exact List.inj_on_of_nodup_map hpositions hx hy
      (h.position_eq hids (List.mem_of_mem_filter hx) (List.mem_of_mem_filter hy) hid)
  rw [counted, List.toFinset_card_of_nodup hnodup, List.length_map]

theorem Inv.le_card_counted (h : Inv env call) (hids : (call.nodes.map NodeHandle.id).Nodup) {k : Nat}
    {v : T} (hret : call.phase = .returned (.threshold k) (.ok v)) : k ≤ call.counted.card := by
  have hexit := (h.settled _ _ hret).exit?_of_ok
  by_cases hkind : call.kind = .correctableCall
  · rw [hkind] at hexit
    exact le_card_of_exit?_ok hexit
  · rw [h.card_counted hids hkind]
    exact le_length_of_exit? hkind hexit

theorem Inv.counted_subset (h : Inv env call) :
    call.counted ⊆ (call.nodes.map NodeHandle.id).toFinset := by
  intro id hid
  obtain ⟨r, hr, rfl⟩ := List.mem_map.mp (List.mem_toFinset.mp hid)
  obtain ⟨node, hnode, hnid⟩ :=
    (h.fromTask r (List.mem_append_left _ (List.mem_of_mem_filter hr))).node
  rw [List.mem_toFinset, ← hnid]
  exact List.mem_map_of_mem (List.mem_of_getElem? hnode)

end Call

/-- Two quorums of a configuration share a node. -/
theorem quorums_intersect {acts : List (Act T)} {s : State T}
    (hrun : Transition.run (step env) init acts = some s) {cfg : Configuration} (hset : cfg.IsSet)
    {i j : Nat} {a b : Call T} (ha : s.calls[i]? = some a) (hb : s.calls[j]? = some b)
    (haids : a.nodes.map NodeHandle.id = cfg.nodeIds) (hbids : b.nodes.map NodeHandle.id = cfg.nodeIds)
    {t u : Terminal T} {v w : T} (hra : a.phase = .returned t (.ok v))
    (hrb : b.phase = .returned u (.ok w)) :
    (∀ k₁ k₂, t = .threshold k₁ → u = .threshold k₂ → cfg.size < k₁ + k₂ →
      (a.counted ∩ b.counted).Nonempty) ∧
    (t = .majority a.size → u = .majority b.size → (a.counted ∩ b.counted).Nonempty) := by
  have hainv := inv_run hrun a (List.mem_of_getElem? ha)
  have hbinv := inv_run hrun b (List.mem_of_getElem? hb)
  have hquorum (k₁ k₂ : Nat) (ht : t = .threshold k₁) (hu : u = .threshold k₂)
      (hk : cfg.size < k₁ + k₂) : (a.counted ∩ b.counted).Nonempty := by
    subst ht hu
    have hacard := hainv.le_card_counted (by rw [haids]; exact hset) hra
    have hbcard := hbinv.le_card_counted (by rw [hbids]; exact hset) hrb
    have hasub := hainv.counted_subset
    have hbsub := hbinv.counted_subset
    rw [haids] at hasub
    rw [hbids] at hbsub
    refine Finset.inter_nonempty_of_card_lt_card_add_card hasub hbsub ?_
    calc cfg.nodeIds.toFinset.card ≤ cfg.nodeIds.length := List.toFinset_card_le _
      _ = cfg.size := List.length_map _
      _ < k₁ + k₂ := hk
      _ ≤ a.counted.card + b.counted.card := Nat.add_le_add hacard hbcard
  refine ⟨hquorum, fun ht hu => hquorum _ _ ht hu ?_⟩
  have hasize : a.size = cfg.size := by
    rw [Call.size, ← List.length_map NodeHandle.id, haids]
    exact List.length_map _
  have hbsize : b.size = cfg.size := by
    rw [Call.size, ← List.length_map NodeHandle.id, hbids]
    exact List.length_map _
  rw [hasize, hbsize]
  omega

/-- Responses with one `bool` field. -/
def boolEnv : Env Bool := ⟨fun _ => boolCodec.decode, false, true⟩

/-- The task of the node at position `p` gets the answer `true`, and the caller reads it. -/
def answered (c p : Nat) : List (Act Bool) :=
  [.on c (.nextSeq p), .on c (.enqueue p),
    .on c (.reply p (some (.ok (Node.buildWireMessage 1 "/s/M" [8, 1] [])))), .on c .take]

/-- A quorum call and a correctable call on three nodes; the first hears from the nodes 1 and 2, the
second from 2 and 3. -/
def twoMajorities : List (Act Bool) :=
  [.call .quorumCall "/s/M" [] [] [⟨1, 0⟩, ⟨2, 1⟩, ⟨3, 2⟩] [], .on 0 (.terminal (.majority 3)),
    .call .correctableCall "/s/M" [] [] [⟨1, 0⟩, ⟨2, 1⟩, ⟨3, 2⟩] [], .on 1 (.terminal (.majority 3))] ++
  answered 0 0 ++ answered 1 2 ++ answered 1 1 ++ answered 0 1

theorem quorums_intersect_twoMajorities : ∃ s a b, Transition.run (step boolEnv) init twoMajorities = some s ∧
    s.calls[0]? = some a ∧ s.calls[1]? = some b ∧ (a.counted ∩ b.counted).Nonempty := by
  obtain ⟨s, hrun⟩ : ∃ s, Transition.run (step boolEnv) init twoMajorities = some s := ⟨_, rfl⟩
  obtain ⟨a, ha, haeq⟩ := Transition.exists_of_run_map (f := fun s : State Bool => s.calls[0]?)
    (g := fun a => (a.nodes, a.phase)) rfl hrun
  obtain ⟨b, hb, hbeq⟩ := Transition.exists_of_run_map (f := fun s : State Bool => s.calls[1]?)
    (g := fun a => (a.nodes, a.phase)) rfl hrun
  obtain ⟨hanodes, haphase⟩ := Prod.mk.inj haeq
  obtain ⟨hbnodes, hbphase⟩ := Prod.mk.inj hbeq
  have hset : Configuration.IsSet ⟨[⟨1, "a"⟩, ⟨2, "b"⟩, ⟨3, "c"⟩]⟩ := by decide
  refine ⟨s, a, b, hrun, ha, hb, ?_⟩
  refine (quorums_intersect hrun hset ha hb (by rw [hanodes]; rfl) (by rw [hbnodes]; rfl)
    haphase hbphase).2 ?_ ?_
  · rw [Call.size, hanodes]
    rfl
  · rw [Call.size, hbnodes]
    rfl

end Quorums.Client
