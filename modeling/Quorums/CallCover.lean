import Quorums.CallQuorum

/-! When a terminal method hears from every node before it returns. A `threshold` of the size of the
configuration or more does, and a `quorum` whose function answers only when nobody is missing; a
correctable call may also leave early on a transport error. -/

namespace Quorums.Client

variable {T : Type} {env : Env T}

/-- The method has read a result of every node when it returns, unless it is cancelled or, on a
correctable call, a transport error arrives. A correctable call hands its function the values of one
node several times, so no number of values is enough. -/
def Terminal.WaitsForAll (kind : CallKind) (size : Nat) : Terminal T → Prop
  | .reply | .acks => True
  | .threshold k => size ≤ k
  | .quorum f =>
      if kind = .correctableCall then ∀ oks, f oks = none else ∀ oks, oks.length < size → f oks = none
  | .orderedQuorum f => ∀ calls slots, none ∈ slots → f (calls ++ [slots]) = none

/-- As many positions below `n` as there are, are all of them. -/
theorem mem_of_le_card {n : Nat} {xs : List Nat} (hlt : ∀ p ∈ xs, p < n) (hcard : n ≤ xs.toFinset.card)
    {p : Nat} (hp : p < n) : p ∈ xs := by
  have hsub : xs.toFinset ⊆ Finset.range n := by
    intro q hq
    exact Finset.mem_range.mpr (hlt q (List.mem_toFinset.mp hq))
  have heq := Finset.eq_of_subset_of_card_le hsub (by rwa [Finset.card_range])
  rw [← List.mem_toFinset, heq]
  exact Finset.mem_range.mpr hp

namespace Call

variable {call : Call T}

theorem Inv.position_lt (h : Inv env call) {r : OrderedNodeResponse T} (hr : r ∈ call.taken) :
    r.position < call.size := by
  obtain ⟨node, hnode, -⟩ := (h.fromTask r (List.mem_append_left _ hr)).node
  exact (List.getElem?_eq_some_iff.mp hnode).1

/-- The ID in a result is that of the node at its position, so results that differ in their IDs differ
in their positions. -/
theorem Inv.card_nodeIds_le (h : Inv env call) {l : List (OrderedNodeResponse T)}
    (hl : ∀ r ∈ l, r ∈ call.taken) :
    (l.map OrderedNodeResponse.nodeId).toFinset.card ≤
      (l.map OrderedNodeResponse.position).toFinset.card := by
  have hids : l.map OrderedNodeResponse.nodeId =
      (l.map OrderedNodeResponse.position).map fun p => (call.nodes[p]?.map NodeHandle.id).getD 0 := by
    rw [List.map_map]
    refine List.map_congr_left fun r hr => ?_
    obtain ⟨node, hnode, hid⟩ := (h.fromTask r (List.mem_append_left _ (hl r hr))).node
    simp [hnode, hid]
  have himage {f : Nat → UInt32} (ps : List Nat) : (ps.map f).toFinset = ps.toFinset.image f := by
    ext id
    simp
  rw [hids, himage]
  exact Finset.card_image_le

/-- Successes from as many positions as the call has nodes come from all of them. -/
theorem Inv.covers_of_positions (h : Inv env call)
    (hle : call.size ≤
      ((OrderedResponses.oks call.taken).map OrderedNodeResponse.position).toFinset.card)
    {p : Nat} (hp : p < call.size) : ∃ r ∈ call.taken, r.position = p := by
  have hlt : ∀ q ∈ (OrderedResponses.oks call.taken).map OrderedNodeResponse.position, q < call.size := by
    intro q hq
    obtain ⟨r, hr, rfl⟩ := List.mem_map.mp hq
    exact h.position_lt (List.mem_of_mem_filter hr)
  obtain ⟨r, hr, hrp⟩ := List.mem_map.mp (mem_of_le_card hlt hle hp)
  exact ⟨r, List.mem_of_mem_filter hr, hrp⟩

theorem Inv.covers_of_le_length (h : Inv env call) (hkind : call.kind ≠ .correctableCall)
    (hle : call.size ≤ (OrderedResponses.oks call.taken).length) {p : Nat} (hp : p < call.size) :
    ∃ r ∈ call.taken, r.position = p := by
  refine h.covers_of_positions ?_ hp
  rwa [List.toFinset_card_of_nodup (h.nodup_positions hkind), List.length_map]

theorem Inv.covers_of_le_card (h : Inv env call)
    (hle : call.size ≤ ((OrderedResponses.oks call.taken).map OrderedNodeResponse.nodeId).toFinset.card)
    {p : Nat} (hp : p < call.size) : ∃ r ∈ call.taken, r.position = p :=
  h.covers_of_positions (hle.trans (h.card_nodeIds_le fun _ hr => List.mem_of_mem_filter hr)) hp

/-- The nodes that have sent are no more than the nodes of the call. -/
theorem Inv.card_senders_le (h : Inv env call) :
    (call.taken.map OrderedNodeResponse.nodeId).toFinset.card ≤ call.size := by
  refine (h.card_nodeIds_le fun r hr => hr).trans ?_
  rw [← Finset.card_range call.size]
  refine Finset.card_le_card fun q hq => ?_
  obtain ⟨r, hr, rfl⟩ := List.mem_map.mp (List.mem_toFinset.mp hq)
  exact Finset.mem_range.mpr (h.position_lt hr)

/-- The loop left although there is no one left to wait for, or only one to hear from. -/
theorem Inv.covers_of_size_le_one (h : Inv env call) {t : Terminal T} {out : Outcome T}
    (hexit : (env.loop call.kind call.size t).2.exit? call.taken = some out) (hsize : call.size ≤ 1)
    {p : Nat} (hp : p < call.size) : ∃ r ∈ call.taken, r.position = p := by
  cases htaken : call.taken with
  | nil =>
      rw [htaken, ReceiveLoop.exit?_nil] at hexit
      cases hexit
  | cons r rest =>
      have hr : r ∈ call.taken := by simp [htaken]
      have hlt := h.position_lt hr
      exact ⟨r, List.mem_cons_self, by omega⟩

theorem Inv.covers_threshold (h : Inv env call) {k : Nat} {r : Except Error T}
    (hexit : (env.loop call.kind call.size (.threshold k)).2.exit? call.taken = some (.returned r))
    (hfits : (Terminal.threshold k : Terminal T).fits call.kind = true) (hwait : call.size ≤ k)
    (hquiet : call.kind = .correctableCall → k = call.size →
      ∀ x ∈ call.taken, ∀ status, x.result ≠ .error (.transport status))
    {p : Nat} (hp : p < call.size) : ∃ r ∈ call.taken, r.position = p := by
  by_cases hkind : call.kind = .correctableCall
  · have hexit' := hexit
    rw [hkind] at hexit'
    simp only [Env.loop, ReceiveLoop.exit?_comap] at hexit'
    rcases Correctable.threshold_exit hexit' with ⟨-, hle⟩ | ⟨-, ⟨x, hx, status, hstatus⟩, hk⟩
    · rw [oks_map_nodeResponse, senders_map_nodeResponse] at hle
      exact h.covers_of_le_card (hwait.trans hle) hp
    · obtain ⟨y, hy, rfl⟩ := List.mem_map.mp hx
      rcases hk with hk | hk
      · exact absurd hstatus (hquiet hkind (Nat.le_antisymm hk hwait) y hy status)
      · -- the wrapped difference is far above the number of nodes
        rw [senders_map_nodeResponse] at hk
        have hcard := h.card_senders_le
        have hbound : k < 2 ^ 64 := by
          simp only [Terminal.fits, decide_eq_true_eq] at hfits
          exact hfits.2
        omega
  · exact h.covers_of_le_length hkind (hwait.trans (le_length_of_exit? hkind hexit)) hp

theorem Inv.covers_quorum (h : Inv env call) {f : List T → Option T} {r : Except Error T}
    (hexit : (env.loop call.kind call.size (.quorum f)).2.exit? call.taken = some (.returned r))
    (hwait : (Terminal.quorum f).WaitsForAll call.kind call.size)
    {p : Nat} (hp : p < call.size) : ∃ r ∈ call.taken, r.position = p := by
  have hslice : ∃ slice v, f slice = some v ∧
      slice.length ≤ (OrderedResponses.oks call.taken).length := by
    have hplain (hexit : ((Responses.quorum f).comap fun r : OrderedNodeResponse T =>
        ⟨r.nodeId, r.result⟩).exit? call.taken = some (.returned r)) : ∃ slice v, f slice = some v ∧
          slice.length ≤ (OrderedResponses.oks call.taken).length := by
      rw [ReceiveLoop.exit?_comap] at hexit
      obtain ⟨slice, v, hv, hle⟩ := Responses.exists_slice hexit
      rw [oks_map_nodeResponse, List.length_map] at hle
      exact ⟨slice, v, hv, hle⟩
    generalize call.kind = kind at hexit
    cases kind <;> exact hplain hexit
  obtain ⟨slice, v, hv, hle⟩ := hslice
  rw [Terminal.WaitsForAll] at hwait
  split at hwait
  · rw [hwait slice] at hv
    cases hv
  · rename_i hkind
    refine h.covers_of_le_length hkind (Nat.le_trans ?_ hle) hp
    by_contra hlt
    rw [hwait slice (by omega)] at hv
    cases hv

theorem covers_orderedQuorum {f : List (List (Option T)) → Option T} {r : Except Error T}
    (hexit : (env.loop call.kind call.size (.orderedQuorum f)).2.exit? call.taken = some (.returned r))
    (hwait : (Terminal.orderedQuorum f).WaitsForAll call.kind call.size)
    {p : Nat} (hp : p < call.size) : ∃ r ∈ call.taken, r.position = p := by
  obtain ⟨calls, slots, v, hv, hlen, hfrom⟩ := OrderedResponses.exists_slots hexit
  have hsome : none ∉ slots := by
    intro hnone
    rw [hwait calls slots hnone] at hv
    cases hv
  have hlt : p < slots.length := by rwa [hlen]
  cases hslot : slots[p] with
  | none => exact absurd (hslot ▸ List.getElem_mem hlt) hsome
  | some w => exact hfrom p w (by rw [List.getElem?_eq_getElem hlt, hslot])

/-- A terminal method that waits for all nodes has read a result of each when its loop leaves. -/
theorem Inv.covers (h : Inv env call) {t : Terminal T} {r : Except Error T}
    (hexit : (env.loop call.kind call.size t).2.exit? call.taken = some (.returned r))
    (hfits : t.fits call.kind = true) (hwait : call.size ≤ 1 ∨ t.WaitsForAll call.kind call.size)
    (hquiet : call.kind = .correctableCall → t = .threshold call.size → 1 < call.size →
      ∀ x ∈ call.taken, ∀ status, x.result ≠ .error (.transport status))
    {p : Nat} (hp : p < call.size) : ∃ r ∈ call.taken, r.position = p := by
  rcases Nat.lt_or_ge 1 call.size with hsize | hsize
  · have hwait := hwait.resolve_left (by omega)
    cases t with
    | reply => cases hfits
    | acks => cases hfits
    | threshold k =>
        refine h.covers_threshold hexit hfits hwait (fun hkind hk => ?_) hp
        exact hquiet hkind (by rw [hk]) hsize
    | quorum f => exact h.covers_quorum hexit hwait hp
    | orderedQuorum f => exact covers_orderedQuorum hexit hwait hp
  · exact h.covers_of_size_le_one hexit hsize hp

end Call

end Quorums.Client
