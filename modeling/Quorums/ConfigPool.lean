import Quorums.ConfigFresh

/-! The pool under any sequence of additions and removals. Two rules of uniqueness hold together: IDs by
the keys of the map, addresses by the scan of `add_node` over the normal forms that are in the pool. A
removal frees both; an addition checks both. -/

namespace Quorums.Config.Manager

/-- The calls that change the pool. -/
inductive Call where
  | addNode (id : UInt32) (addr : String)
  | addNodeList (addrs : List String)
  | withNewNodes (base : Configuration) (addrs : List String)
  | removeNode (id : UInt32)

/-- What a call leaves behind, whether it succeeds, fails or panics. -/
def Call.apply (parse : String → Option String) (checks : Bool) (m : Manager) : Call → Manager
  | .addNode id addr => (m.addNode parse checks id addr).1
  | .addNodeList addrs => (m.addNodeList parse checks addrs).1
  | .withNewNodes base addrs => (m.withNewNodes parse checks base addrs).1
  | .removeNode id => (m.removeNode id).1

/-- The pool after a sequence of calls. -/
def after (parse : String → Option String) (checks : Bool) (calls : List Call) : Manager :=
  calls.foldl (Call.apply parse checks) new

/-- What holds of a pool beyond its keys: ID 0 is not in it, its addresses are in normal form, and no two
nodes have one address. -/
structure Pooled (parse : String → Option String) (m : Manager) : Prop where
  id_ne : ∀ id n, m.nodes.lookup id = some n → id ≠ 0
  normal : ∀ id n, m.nodes.lookup id = some n → parse n.address = some n.address
  address_inj : ∀ i j x y, m.nodes.lookup i = some x → m.nodes.lookup j = some y →
    x.address = y.address → i = j

variable {parse : String → Option String} {checks : Bool} {m m' : Manager}

theorem pooled_new : Pooled parse new := by
  have hnone (id : UInt32) (n : Node) : ¬new.nodes.lookup id = some n := by
    intro h
    rw [new, AList.lookup_empty] at h
    cases h
  exact ⟨fun id n h => absurd h (hnone id n), fun id n h => absurd h (hnone id n),
    fun i j x y h => absurd h (hnone i x)⟩

/-- Only the map counts, and a pool with fewer nodes keeps what it is. -/
theorem Pooled.mono (h : Pooled parse m)
    (hsub : ∀ id n, m'.nodes.lookup id = some n → m.nodes.lookup id = some n) : Pooled parse m' where
  id_ne id n hn := h.id_ne id n (hsub id n hn)
  normal id n hn := h.normal id n (hsub id n hn)
  address_inj i j x y hx hy := h.address_inj i j x y (hsub i x hx) (hsub j y hy)

/-- What `add_node` admits can be added. -/
theorem Pooled.insert (h : Pooled parse m) (hcanon : ∀ addr a, parse addr = some a → parse a = some a)
    {id : UInt32} {addr norm : String} (hadmits : Admits parse m id addr norm)
    (hlookup : ∀ x, m'.nodes.lookup x = if x = id then some ⟨id, norm⟩ else m.nodes.lookup x) :
    Pooled parse m' := by
  -- a node of the new pool is the new one, or one of the old ones
  have hcases (x : UInt32) (n : Node) (hx : m'.nodes.lookup x = some n) :
      (x = id ∧ n = ⟨id, norm⟩) ∨ m.nodes.lookup x = some n := by
    rw [hlookup] at hx
    split at hx
    · rename_i hid
      exact Or.inl ⟨hid, (Option.some.inj hx).symm⟩
    · exact Or.inr hx
  refine ⟨fun x n hx => ?_, fun x n hx => ?_, fun i j x y hi hj haddr => ?_⟩
  · rcases hcases x n hx with ⟨rfl, -⟩ | hold
    · exact hadmits.id_ne
    · exact h.id_ne x n hold
  · rcases hcases x n hx with ⟨-, rfl⟩ | hold
    · exact hcanon addr norm hadmits.parsed
    · exact h.normal x n hold
  · rcases hcases i x hi with ⟨rfl, rfl⟩ | holdx
    · rcases hcases j y hj with ⟨rfl, -⟩ | holdy
      · rfl
      · exact absurd haddr.symm (hadmits.unknown j y holdy)
    · rcases hcases j y hj with ⟨-, rfl⟩ | holdy
      · exact absurd haddr (hadmits.unknown i x holdx)
      · exact h.address_inj i j x y holdx holdy haddr

theorem Pooled.addNode (h : Pooled parse m) (hcanon : ∀ addr a, parse addr = some a → parse a = some a)
    (id : UInt32) (addr : String) : Pooled parse (m.addNode parse checks id addr).1 := by
  by_cases hadmits : ∃ norm, Admits parse m id addr norm
  · obtain ⟨norm, hadmits⟩ := hadmits
    have hlookup := lookup_insertNode (m := m) ⟨id, norm⟩
    rw [addNode_of_admits hadmits]
    -- the counter plays no part, and the node is in the pool before an overflow can happen
    split
    · split
      · exact h.insert hcanon hadmits hlookup
      · exact h.insert hcanon hadmits hlookup
    · exact h.insert hcanon hadmits hlookup
  · obtain ⟨text, heq⟩ := addNode_of_not_admits checks (not_exists.mp hadmits)
    rw [heq]
    exact h

theorem Pooled.addAll (h : Pooled parse m) (hcanon : ∀ addr a, parse addr = some a → parse a = some a)
    (addrs : List String) : Pooled parse (m.addAll parse checks addrs).1 := by
  induction addrs generalizing m with
  | nil => exact h
  | cons addr addrs ih =>
      rcases addAll_cons_cases m parse checks addr addrs with
        ⟨text, heq⟩ | ⟨norm, hadmits, ⟨-, heq⟩ | ⟨-, heq⟩⟩
      · rw [heq]
        exact h
      · rw [heq]
        exact h.insert hcanon hadmits (lookup_insertNode ⟨m.nextId, norm⟩)
      · rw [heq]
        exact ih (h.insert hcanon hadmits (lookup_push m norm))

theorem Pooled.removeNode (h : Pooled parse m) (id : UInt32) : Pooled parse (m.removeNode id).1 := by
  refine h.mono fun x n hx => ?_
  by_cases hid : x = id
  · subst hid
    rw [Manager.removeNode, AList.lookup_erase] at hx
    cases hx
  · rwa [Manager.removeNode, AList.lookup_erase_ne hid] at hx

theorem Pooled.apply (h : Pooled parse m) (hcanon : ∀ addr a, parse addr = some a → parse a = some a)
    (call : Call) : Pooled parse (call.apply parse checks m) := by
  cases call with
  | addNode id addr => exact h.addNode hcanon id addr
  | addNodeList addrs => exact h.addAll hcanon addrs
  | withNewNodes base addrs => exact h.addAll hcanon addrs
  | removeNode id => exact h.removeNode id

theorem pooled_after (hcanon : ∀ addr a, parse addr = some a → parse a = some a) (calls : List Call) :
    Pooled parse (after parse checks calls) := by
  have hrun (m : Manager) (h : Pooled parse m) : Pooled parse (calls.foldl (Call.apply parse checks) m) := by
    induction calls generalizing m with
    | nil => exact h
    | cons call calls ih => exact ih _ (h.apply hcanon call)
  exact hrun new pooled_new

/-! ### The listing -/

theorem mem_allNodes {n : Node} : n ∈ m.allNodes.nodes ↔ m.nodes.lookup n.id = some n := by
  refine ⟨lookup_of_mem_allNodes, fun h => ?_⟩
  rw [allNodes]
  exact (List.mem_insertionSort _).mpr (List.mem_map.mpr ⟨⟨n.id, n⟩, AList.mem_lookup_iff.mp h, rfl⟩)

/-- No ID occurs twice in the listing, so that the order of the sort is strict. -/
theorem strictlyIncreasing_allNodes (m : Manager) : m.allNodes.nodeIds.Pairwise (· < ·) := by
  have hsorted : m.allNodes.nodes.Pairwise fun a b => a.id ≤ b.id := by
    rw [allNodes]
    exact List.pairwise_insertionSort _ _
  have hle : m.allNodes.nodeIds.Pairwise (· ≤ ·) := List.pairwise_map.mpr hsorted
  refine (hle.and m.isSet_allNodes).imp fun hab => ?_
  exact UInt32.lt_of_le_of_ne hab.1 hab.2

/-! ### Refusals -/

/-- What `add_node` refuses: the reserved ID, an ID in use, no address, an address in use. -/
def Refuses (parse : String → Option String) (m : Manager) (id : UInt32) (addr : String) : Prop :=
  id = 0 ∨ (m.nodes.lookup id).isSome = true ∨ parse addr = none ∨
    ∃ x n, m.nodes.lookup x = some n ∧ parse addr = some n.address

theorem refuses_iff {id : UInt32} {addr : String} :
    Refuses parse m id addr ↔ ∀ norm, ¬Admits parse m id addr norm := by
  constructor
  · rintro (hid | hused | hinvalid | ⟨x, n, hx, haddr⟩) norm hadmits
    · exact hadmits.id_ne hid
    · rw [hadmits.free] at hused
      cases hused
    · rw [hadmits.parsed] at hinvalid
      cases hinvalid
    · exact hadmits.unknown x n hx (Option.some.inj (haddr.symm.trans hadmits.parsed))
  · intro h
    by_contra hnot
    simp only [Refuses, not_or, not_exists, not_and] at hnot
    obtain ⟨hid, hfree, hvalid, hunknown⟩ := hnot
    obtain ⟨norm, hnorm⟩ := Option.ne_none_iff_exists'.mp hvalid
    refine h norm ⟨hid, hnorm, by simpa using hfree, fun x n hx heq => ?_⟩
    exact hunknown x n hx (heq ▸ hnorm)

/-- The errors of `add_node` are its refusals; an overflow of the counter is a panic, not an error. -/
theorem addNode_error_iff (m : Manager) (id : UInt32) (addr : String) :
    (∃ text, (m.addNode parse checks id addr).2 = .error (.error text)) ↔ Refuses parse m id addr := by
  rw [refuses_iff]
  constructor
  · rintro ⟨text, herror⟩ norm hadmits
    rw [addNode_of_admits hadmits] at herror
    split at herror
    · split at herror <;> cases herror
    · cases herror
  · intro hrefused
    obtain ⟨text, heq⟩ := addNode_of_not_admits checks hrefused
    exact ⟨text, by rw [heq]⟩

/-- After any sequence of calls every key of the pool is the ID of its node and not 0, no two nodes have
one normalized address, the listing has every node once, by strictly increasing ID, and a further
`add_node` returns an error exactly for what it is to refuse, and then leaves everything as it was. -/
theorem pool_after (parse : String → Option String) (checks : Bool)
    (hcanon : ∀ addr a, parse addr = some a → parse a = some a) (calls : List Call) :
    (∀ id n, (after parse checks calls).nodes.lookup id = some n → n.id = id ∧ id ≠ 0) ∧
    (∀ i j x y, (after parse checks calls).nodes.lookup i = some x →
      (after parse checks calls).nodes.lookup j = some y → i ≠ j →
        normalizeAddr parse x.address ≠ normalizeAddr parse y.address) ∧
    (after parse checks calls).allNodes.nodeIds.Pairwise (· < ·) ∧
    (∀ n, n ∈ (after parse checks calls).allNodes.nodes ↔
      ∃ id, (after parse checks calls).nodes.lookup id = some n) ∧
    ∀ id addr,
      ((∃ text, ((after parse checks calls).addNode parse checks id addr).2 = .error (.error text)) ↔
        Refuses parse (after parse checks calls) id addr) ∧
      (Refuses parse (after parse checks calls) id addr →
        ((after parse checks calls).addNode parse checks id addr).1 = after parse checks calls) := by
  have hpooled : Pooled parse (after parse checks calls) := pooled_after hcanon calls
  generalize after parse checks calls = m at hpooled
  refine ⟨fun id n hn => ⟨m.keyed id n hn, hpooled.id_ne id n hn⟩, fun i j x y hx hy hne heq => ?_,
    strictlyIncreasing_allNodes m, fun n => ?_, fun id addr => ⟨addNode_error_iff m id addr, fun hrefused => ?_⟩⟩
  · rw [normalizeAddr, hpooled.normal i x hx, normalizeAddr, hpooled.normal j y hy] at heq
    exact hne (hpooled.address_inj i j x y hx hy (Except.ok.inj heq))
  · rw [mem_allNodes]
    constructor
    · exact fun hn => ⟨n.id, hn⟩
    · rintro ⟨id, hid⟩
      rwa [m.keyed id n hid]
  · obtain ⟨text, heq⟩ := addNode_of_not_admits checks (refuses_iff.mp hrefused)
    rw [heq]

/-- An address is given up and taken again under a smaller ID. -/
theorem pool_after_removal :
    (after World.parseLoopback true [.addNode 7 "127.0.0.1:5001", .removeNode 7,
        .addNode 3 "127.0.0.1:5001", .addNodeList ["127.0.0.1:5002"]]).allNodes.nodeIds = [3, 8] ∧
      (after World.parseLoopback true [.addNode 7 "127.0.0.1:5001", .removeNode 7,
        .addNode 3 "127.0.0.1:5001", .addNodeList ["127.0.0.1:5002"]]).allNodes.nodeIds.Pairwise (· < ·) := by
  refine ⟨by decide, (pool_after World.parseLoopback true (fun addr a h => ?_) _).2.2.1⟩
  rw [World.parseLoopback] at h
  split at h
  · rename_i hmem
    cases h
    rw [World.parseLoopback, if_pos hmem]
  · cases h

end Quorums.Config.Manager
