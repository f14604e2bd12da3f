import Quorums.ConfigAlgebra
import Quorums.ConfigManager

/-! The IDs that the pool gives out by itself. The counter is ahead of every ID that was ever in the pool, as
long as `u32::MAX` was not among them; a batch then gets new IDs if there are enough left. A batch that fails
keeps the nodes that were added before the address at fault. -/

namespace Quorums.Config

namespace Manager

variable {parse : String → Option String} {checks : Bool} {m m' : Manager}

/-- The checks of `add_node`. -/
structure Admits (parse : String → Option String) (m : Manager) (id : UInt32) (addr norm : String) : Prop where
  id_ne : id ≠ 0
  parsed : parse addr = some norm
  free : m.nodes.lookup id = none
  unknown : ∀ x n, m.nodes.lookup x = some n → n.address ≠ norm

theorem addNode_of_admits {id : UInt32} {addr norm : String} (h : Admits parse m id addr norm) :
    m.addNode parse checks id addr =
      if m.nextId ≤ id then
        if id = 4294967295 ∧ checks then (m.insertNode ⟨id, norm⟩, .error .panic)
        else ({ m.insertNode ⟨id, norm⟩ with nextId := id + 1 }, .ok ())
      else (m.insertNode ⟨id, norm⟩, .ok ()) := by
  have hunknown : (m.nodes.entries.any fun e => e.2.address = norm) = false := by
    refine List.any_eq_false.mpr fun e he heq => ?_
    exact h.unknown e.1 e.2 (AList.mem_lookup_iff.mpr he) (of_decide_eq_true heq)
  rw [addNode, if_neg h.id_ne, normalizeAddr, h.parsed]
  dsimp only
  rw [h.free, Option.isSome_none, if_neg Bool.false_ne_true, hunknown, if_neg Bool.false_ne_true]

theorem addNode_of_not_admits (checks : Bool) {id : UInt32} {addr : String} (h : ∀ norm, ¬Admits parse m id addr norm) :
    ∃ text, m.addNode parse checks id addr = (m, .error (.error text)) := by
  rw [addNode]
  split
  · exact ⟨_, rfl⟩
  · rename_i hid
    rw [normalizeAddr]
    cases hparse : parse addr with
    | none => exact ⟨_, rfl⟩
    | some norm =>
        dsimp only
        split
        · exact ⟨_, rfl⟩
        · rename_i hfree
          split
          · exact ⟨_, rfl⟩
          · rename_i hunknown
            refine absurd ⟨hid, hparse, by simpa using hfree, fun x n hx heq => ?_⟩ (h norm)
            exact hunknown (List.any_eq_true.mpr ⟨⟨x, n⟩, AList.mem_lookup_iff.mp hx, decide_eq_true heq⟩)

/-- A node is added under the next ID. -/
def push (m : Manager) (norm : String) : Manager :=
  { m.insertNode ⟨m.nextId, norm⟩ with nextId := m.nextId + 1 }

theorem lookup_push (m : Manager) (norm : String) (id : UInt32) :
    (m.push norm).nodes.lookup id = if id = m.nextId then some ⟨m.nextId, norm⟩ else m.nodes.lookup id :=
  lookup_insertNode ⟨m.nextId, norm⟩ id

section Loop

variable {addr norm : String} {addrs : List String}

theorem addAll_cons_of_not_admits (checks : Bool) (addrs : List String)
    (h : ∀ norm, ¬Admits parse m m.nextId addr norm) :
    ∃ text, m.addAll parse checks (addr :: addrs) = (m, .error (.error text)) := by
  obtain ⟨text, heq⟩ := addNode_of_not_admits checks h
  refine ⟨text, ?_⟩
  rw [addAll, heq]

theorem addAll_cons_panics (h : Admits parse m m.nextId addr norm) (hlast : m.nextId = 4294967295)
    (hchecks : checks = true) :
    m.addAll parse checks (addr :: addrs) = (m.insertNode ⟨m.nextId, norm⟩, .error .panic) := by
  rw [addAll, addNode_of_admits h, if_pos (UInt32.le_refl _), if_pos ⟨hlast, hchecks⟩]

theorem addAll_cons_of_admits (h : Admits parse m m.nextId addr norm)
    (hroom : ¬(m.nextId = 4294967295 ∧ checks = true)) :
    m.addAll parse checks (addr :: addrs) =
      (((m.push norm).addAll parse checks addrs).1,
        ((m.push norm).addAll parse checks addrs).2.map (⟨m.nextId, norm⟩ :: ·)) := by
  rw [addAll, addNode_of_admits h, if_pos (UInt32.le_refl _), if_neg hroom]
  dsimp only
  rw [lookup_insertNode, if_pos rfl, ← push]
  dsimp only
  obtain ⟨m'', result⟩ := (m.push norm).addAll parse checks addrs
  cases result with
  | error e => rfl
  | ok nodes => rfl

/-- What the loop does with its first address: it gives up, it panics, or it adds a node and goes on. -/
theorem addAll_cons_cases (m : Manager) (parse : String → Option String) (checks : Bool) (addr : String)
    (addrs : List String) :
    (∃ text, m.addAll parse checks (addr :: addrs) = (m, .error (.error text))) ∨
    ∃ norm, Admits parse m m.nextId addr norm ∧
      ((m.nextId = 4294967295 ∧ checks = true) ∧
          m.addAll parse checks (addr :: addrs) = (m.insertNode ⟨m.nextId, norm⟩, .error .panic) ∨
        ¬(m.nextId = 4294967295 ∧ checks = true) ∧
          m.addAll parse checks (addr :: addrs) =
            (((m.push norm).addAll parse checks addrs).1,
              ((m.push norm).addAll parse checks addrs).2.map (⟨m.nextId, norm⟩ :: ·))) := by
  by_cases hadmits : ∃ norm, Admits parse m m.nextId addr norm
  · obtain ⟨norm, hadmits⟩ := hadmits
    refine Or.inr ⟨norm, hadmits, ?_⟩
    by_cases hlast : m.nextId = 4294967295 ∧ checks = true
    · exact Or.inl ⟨hlast, addAll_cons_panics hadmits hlast.1 hlast.2⟩
    · exact Or.inr ⟨hlast, addAll_cons_of_admits hadmits hlast⟩
  · exact Or.inl (addAll_cons_of_not_admits checks addrs (not_exists.mp hadmits))

/-- What is in the pool stays there. -/
theorem lookup_addAll (parse : String → Option String) (checks : Bool) {id : UInt32} {n : Node}
    (h : m.nodes.lookup id = some n) (addrs : List String) :
    (m.addAll parse checks addrs).1.nodes.lookup id = some n := by
  induction addrs generalizing m with
  | nil => exact h
  | cons addr addrs ih =>
      rcases addAll_cons_cases m parse checks addr addrs with ⟨text, heq⟩ | ⟨norm, hadmits, hcases⟩
      · rw [heq]
        exact h
      · have hne : id ≠ m.nextId := by
          rintro rfl
          rw [hadmits.free] at h
          cases h
        rcases hcases with ⟨-, heq⟩ | ⟨-, heq⟩
        · rw [heq, lookup_insertNode, if_neg hne]
          exact h
        · rw [heq]
          refine ih ?_
          rw [lookup_push, if_neg hne]
          exact h

end Loop

/-! ### Where nodes come from -/

theorem lookup_of_mem_addAll {addrs : List String} {nodes : List Node}
    (h : (m.addAll parse checks addrs).2 = .ok nodes) {n : Node} (hn : n ∈ nodes) :
    (m.addAll parse checks addrs).1.nodes.lookup n.id = some n := by
  induction addrs generalizing m nodes with
  | nil =>
      cases h
      cases hn
  | cons addr addrs ih =>
      rcases addAll_cons_cases m parse checks addr addrs with
        ⟨text, heq⟩ | ⟨norm, hadmits, ⟨-, heq⟩ | ⟨-, heq⟩⟩
      · rw [heq] at h
        cases h
      · rw [heq] at h
        cases h
      · rw [heq] at h ⊢
        dsimp only at h ⊢
        cases hrest : ((m.push norm).addAll parse checks addrs).2 with
        | error e =>
            rw [hrest] at h
            cases h
        | ok rest =>
            rw [hrest] at h
            cases h
            rcases List.mem_cons.mp hn with rfl | hn
            · refine lookup_addAll parse checks ?_ addrs
              rw [lookup_push, if_pos rfl]
            · exact ih hrest hn

theorem lookup_of_mem_find {ids : List UInt32} {nodes : List Node} (h : m.find ids = .ok nodes) {n : Node}
    (hn : n ∈ nodes) : m.nodes.lookup n.id = some n := by
  induction ids generalizing nodes with
  | nil =>
      cases h
      cases hn
  | cons id ids ih =>
      rw [find] at h
      split at h
      · cases h
      · rename_i node hnode
        cases hrest : m.find ids with
        | error e =>
            rw [hrest] at h
            cases h
        | ok rest =>
            rw [hrest] at h
            cases h
            rcases List.mem_cons.mp hn with rfl | hn
            · rw [m.keyed id n hnode]
              exact hnode
            · exact ih hrest hn

theorem lookup_of_mem_allNodes {n : Node} (hn : n ∈ m.allNodes.nodes) : m.nodes.lookup n.id = some n := by
  obtain ⟨e, he, rfl⟩ := List.mem_map.mp ((List.perm_insertionSort _ _).mem_iff.mp hn)
  have hlookup : m.nodes.lookup e.1 = some e.2 := AList.mem_lookup_iff.mpr he
  rw [m.keyed e.1 e.2 hlookup]
  exact hlookup

/-! ### Batches that fail -/

/-- The pool is as it was before, and so is what can be added to it. -/
structure Restored (parse : String → Option String) (checks : Bool) (m m' : Manager) : Prop where
  nodes : m'.nodes = m.nodes
  nextId : m'.nextId = m.nextId
  retry : ∀ addrs cfg, (m.addNodeList parse checks addrs).2 = .ok cfg → (m'.addNodeList parse checks addrs).2 = .ok cfg

/-- The first address is refused. -/
def FirstRefused (parse : String → Option String) (m : Manager) : List String → Prop
  | [] => False
  | addr :: _ => ∀ norm, ¬Admits parse m m.nextId addr norm

theorem restored_addAll_iff {addrs : List String} {text : String}
    (h : (m.addAll parse checks addrs).2 = .error (.error text)) :
    Restored parse checks m (m.addAll parse checks addrs).1 ↔ FirstRefused parse m addrs := by
  cases addrs with
  | nil => cases h
  | cons addr addrs =>
      constructor
      · intro hrestored norm hadmits
        have hroom : ¬(m.nextId = 4294967295 ∧ checks = true) := by
          rintro ⟨hlast, hchecks⟩
          rw [addAll_cons_panics hadmits hlast hchecks] at h
          cases h
        -- the first node is in the pool now, and was not before
        have hlookup := lookup_push m norm m.nextId
        rw [if_pos rfl] at hlookup
        have hstays := lookup_addAll parse checks hlookup addrs
        have hnodes := hrestored.nodes
        rw [addAll_cons_of_admits hadmits hroom] at hnodes
        dsimp only at hnodes
        rw [hnodes, hadmits.free] at hstays
        cases hstays
      · intro hrefused
        obtain ⟨text', heq⟩ := addAll_cons_of_not_admits checks addrs hrefused
        rw [heq]
        exact ⟨rfl, rfl, fun _ _ hok => hok⟩

/-- A batch that returns an error leaves the pool as it was if and only if the first address is refused. -/
theorem restored_iff (parse : String → Option String) (checks : Bool) (m : Manager) (addrs : List String)
    (text : String) :
    ((m.addNodeList parse checks addrs).2 = .error (.error text) →
      (Restored parse checks m (m.addNodeList parse checks addrs).1 ↔ FirstRefused parse m addrs)) ∧
    ∀ base, (m.withNewNodes parse checks base addrs).2 = .error (.error text) →
      (Restored parse checks m (m.withNewNodes parse checks base addrs).1 ↔ FirstRefused parse m addrs) := by
  have herror {β : Type} {f : List Node → β} {r : Except Failure (List Node)}
      (h : r.map f = .error (.error text)) : r = .error (.error text) := by
    cases r with
    | error e =>
        cases h
        rfl
    | ok nodes => cases h
  exact ⟨fun h => restored_addAll_iff (herror h), fun base h => restored_addAll_iff (herror h)⟩

/-- The one address of the list is not one. -/
theorem restored_iff_invalid : Restored World.parseLoopback true new
    (new.addNodeList World.parseLoopback true ["localhost"]).1 := by
  refine ((restored_iff World.parseLoopback true new ["localhost"] "invalid address: localhost").1 rfl).mpr ?_
  intro norm hadmits
  cases hadmits.parsed

/-- The second address is not one: the first node is in the pool, and its address is refused from then on. -/
theorem not_restored_second :
    (new.addNodeList World.parseLoopback true ["127.0.0.1:5001", "localhost"]).2 =
        .error (.error "invalid address: localhost") ∧
      ¬Restored World.parseLoopback true new
        (new.addNodeList World.parseLoopback true ["127.0.0.1:5001", "localhost"]).1 ∧
      ((new.addNodeList World.parseLoopback true ["127.0.0.1:5001", "localhost"]).1.addNodeList
          World.parseLoopback true World.loopback).2 =
        .error (.error "address 127.0.0.1:5001 already in use") := by
  refine ⟨rfl, fun h => ?_, rfl⟩
  cases h.nextId

/-! ### The counter -/

/-- The counter is ahead of the pool. -/
def Ahead (m : Manager) : Prop := m.nextId ≠ 0 ∧ ∀ id n, m.nodes.lookup id = some n → id < m.nextId

theorem ahead_new : Ahead new := ⟨by decide, fun id n h => by rw [new, AList.lookup_empty] at h; cases h⟩

theorem toNat_add_one {id : UInt32} (h : id ≠ 4294967295) : (id + 1).toNat = id.toNat + 1 := by
  have hne : id.toNat ≠ 4294967295 := fun heq => h (UInt32.toNat_inj.mp heq)
  have hlt := id.toNat_lt
  rw [UInt32.toNat_add]
  exact Nat.mod_eq_of_lt (by simpa using by omega)

/-- One node is added, and the counter moves beyond it. -/
theorem Ahead.insert (h : m.Ahead) {id : UInt32} {n : Node}
    (hlookup : ∀ x, m'.nodes.lookup x = if x = id then some n else m.nodes.lookup x) (hle : m.nextId ≤ m'.nextId)
    (hid : id < m'.nextId) : m'.Ahead := by
  refine ⟨fun hzero => ?_, fun x y hx => ?_⟩
  · rw [hzero] at hid
    exact absurd hid UInt32.not_lt_zero
  · rw [hlookup] at hx
    split at hx
    · rename_i heq
      rw [heq]
      exact hid
    · exact UInt32.lt_of_lt_of_le (h.2 x y hx) hle

theorem lt_add_one {id : UInt32} (h : id ≠ 4294967295) : id < id + 1 := by
  rw [UInt32.lt_iff_toNat_lt, toNat_add_one h]
  exact Nat.lt_succ_self _

theorem Ahead.addNode (h : m.Ahead) (id : UInt32) (addr : String)
    (hmax : (m.addNode parse checks id addr).1.nodes.lookup 4294967295 = none) :
    (m.addNode parse checks id addr).1.Ahead ∧ m.nextId ≤ (m.addNode parse checks id addr).1.nextId := by
  by_cases hadmits : ∃ norm, Admits parse m id addr norm
  · obtain ⟨norm, hadmits⟩ := hadmits
    have hlookup := lookup_insertNode (m := m) ⟨id, norm⟩
    have hid : id ≠ 4294967295 := by
      rintro rfl
      have hthere := hlookup 4294967295
      rw [if_pos rfl] at hthere
      rw [addNode_of_admits hadmits] at hmax
      split at hmax
      · split at hmax <;> cases hmax.symm.trans hthere
      · cases hmax.symm.trans hthere
    rw [addNode_of_admits hadmits]
    split
    · rename_i hle
      rw [if_neg fun hlast => hid hlast.1]
      have hnext := UInt32.le_trans hle (UInt32.le_of_lt (lt_add_one hid))
      exact ⟨h.insert hlookup hnext (lt_add_one hid), hnext⟩
    · rename_i hle
      exact ⟨h.insert hlookup (UInt32.le_refl _) (UInt32.not_le.mp hle), UInt32.le_refl _⟩
  · obtain ⟨text, heq⟩ := addNode_of_not_admits checks (not_exists.mp hadmits)
    rw [heq]
    exact ⟨h, UInt32.le_refl _⟩

theorem Ahead.push (h : m.Ahead) (hlast : m.nextId ≠ 4294967295) (norm : String) : (m.push norm).Ahead :=
  h.insert (lookup_push m norm) (UInt32.le_of_lt (lt_add_one hlast)) (lt_add_one hlast)

theorem Ahead.addAll (h : m.Ahead) (addrs : List String)
    (hmax : (m.addAll parse checks addrs).1.nodes.lookup 4294967295 = none) :
    (m.addAll parse checks addrs).1.Ahead ∧ m.nextId ≤ (m.addAll parse checks addrs).1.nextId := by
  induction addrs generalizing m with
  | nil => exact ⟨h, UInt32.le_refl _⟩
  | cons addr addrs ih =>
      rcases addAll_cons_cases m parse checks addr addrs with ⟨text, heq⟩ | ⟨norm, hadmits, hcases⟩
      · rw [heq]
        exact ⟨h, UInt32.le_refl _⟩
      · have hlookup := lookup_insertNode (m := m) ⟨m.nextId, norm⟩ 4294967295
        rcases hcases with ⟨⟨hlast, -⟩, heq⟩ | ⟨-, heq⟩
        · rw [heq] at hmax
          rw [if_pos hlast.symm] at hlookup
          cases hmax.symm.trans hlookup
        · rw [heq] at hmax ⊢
          have hlast : m.nextId ≠ 4294967295 := by
            intro hlast
            rw [if_pos hlast.symm] at hlookup
            cases hmax.symm.trans (lookup_addAll parse checks (m := m.push norm) hlookup addrs)
          obtain ⟨hahead, hle⟩ := ih (h.push hlast norm) hmax
          exact ⟨hahead, UInt32.le_trans (UInt32.le_of_lt (lt_add_one hlast)) hle⟩

/-! ### Batches that succeed -/

/-- The addresses are valid, pairwise different and not in the pool; `norms` are their normal forms. -/
structure Usable (parse : String → Option String) (m : Manager) (addrs norms : List String) : Prop where
  parsed : addrs.map parse = norms.map some
  distinct : norms.Nodup
  unknown : ∀ id n, m.nodes.lookup id = some n → n.address ∉ norms

/-- There are IDs left for `k` more nodes. -/
def Room (checks : Bool) (m : Manager) (k : Nat) : Prop :=
  m.nextId.toNat + k ≤ if checks then 4294967295 else 4294967296

/-- The nodes of a batch: one ID after the other. -/
def assigned (start : UInt32) : List String → List Node
  | [] => []
  | norm :: norms => ⟨start, norm⟩ :: assigned (start + 1) norms

section Batch

variable {addrs norms : List String} {addr norm : String}

theorem Usable.admits (h : Usable parse m (addr :: addrs) (norm :: norms)) (hahead : m.Ahead) :
    Admits parse m m.nextId addr norm where
  id_ne := hahead.1
  parsed := (List.cons.inj h.parsed).1
  free := by
    cases hlookup : m.nodes.lookup m.nextId with
    | none => rfl
    | some n => exact absurd (hahead.2 _ n hlookup) (UInt32.lt_irrefl _)
  unknown id n hn heq := h.unknown id n hn (heq ▸ List.mem_cons_self)

theorem Usable.push (h : Usable parse m (addr :: addrs) (norm :: norms)) : Usable parse (m.push norm) addrs norms where
  parsed := (List.cons.inj h.parsed).2
  distinct := (List.nodup_cons.mp h.distinct).2
  unknown id n hn := by
    rw [lookup_push] at hn
    split at hn
    · cases hn
      exact (List.nodup_cons.mp h.distinct).1
    · exact fun hmem => h.unknown id n hn (List.mem_cons_of_mem _ hmem)

theorem Usable.exists_cons (h : Usable parse m (addr :: addrs) norms) : ∃ norm rest, norms = norm :: rest := by
  cases norms with
  | nil => cases h.parsed
  | cons norm rest => exact ⟨norm, rest, rfl⟩

theorem Usable.length_eq (h : Usable parse m addrs norms) : addrs.length = norms.length := by
  rw [← List.length_map parse, h.parsed, List.length_map]

theorem addAll_of_room (hahead : m.Ahead) (h : Usable parse m addrs norms) (hroom : Room checks m addrs.length) :
    (m.addAll parse checks addrs).2 = .ok (assigned m.nextId norms) := by
  induction addrs generalizing m norms with
  | nil =>
      cases List.length_eq_zero_iff.mp h.length_eq.symm
      rfl
  | cons addr addrs ih =>
      obtain ⟨norm, norms, rfl⟩ := h.exists_cons
      rw [Room, List.length_cons] at hroom
      have hlast : ¬(m.nextId = 4294967295 ∧ checks = true) := by
        rintro ⟨hlast, rfl⟩
        rw [hlast, if_pos rfl] at hroom
        have hvalue : (4294967295 : UInt32).toNat = 4294967295 := rfl
        omega
      rw [addAll_cons_of_admits (h.admits hahead) hlast]
      by_cases hnext : m.nextId = 4294967295
      · -- the last ID of all goes to the last address
        have hnil : addrs = [] := by
          refine List.length_eq_zero_iff.mp ?_
          rw [hnext] at hroom
          have hvalue : (4294967295 : UInt32).toNat = 4294967295 := rfl
          split at hroom <;> omega
        subst hnil
        cases List.length_eq_zero_iff.mp h.push.length_eq.symm
        rfl
      · have hstep : Room checks (m.push norm) addrs.length := by
          show (m.nextId + 1).toNat + addrs.length ≤ _
          rw [toNat_add_one hnext]
          omega
        rw [ih (hahead.push hnext norm) h.push hstep]
        rfl

theorem addAll_of_zero (hzero : m.nextId = 0) (addr : String) (addrs : List String) {nodes : List Node} :
    (m.addAll parse checks (addr :: addrs)).2 ≠ .ok nodes := by
  obtain ⟨text, heq⟩ := addAll_cons_of_not_admits checks addrs
    fun (norm : String) (hadmits : Admits parse m m.nextId addr norm) => hadmits.id_ne hzero
  rw [heq]
  rintro ⟨⟩

theorem room_of_addAll (hahead : m.Ahead) (h : Usable parse m addrs norms) {nodes : List Node}
    (hok : (m.addAll parse checks addrs).2 = .ok nodes) : Room checks m addrs.length := by
  induction addrs generalizing m norms nodes with
  | nil =>
      have := m.nextId.toNat_lt
      rw [Room]
      split
      · simp only [List.length_nil]
        omega
      · simp only [List.length_nil]
        omega
  | cons addr addrs ih =>
      obtain ⟨norm, norms, rfl⟩ := h.exists_cons
      have hadmits := h.admits hahead
      by_cases hchecks : m.nextId = 4294967295 ∧ checks = true
      · rw [addAll_cons_panics hadmits hchecks.1 hchecks.2] at hok
        cases hok
      · rw [addAll_cons_of_admits hadmits hchecks] at hok
        obtain ⟨rest, hrest⟩ : ∃ rest, ((m.push norm).addAll parse checks addrs).2 = .ok rest := by
          cases hcase : ((m.push norm).addAll parse checks addrs).2 with
          | error e =>
              dsimp only at hok
              rw [hcase] at hok
              cases hok
          | ok rest => exact ⟨rest, rfl⟩
        by_cases hlast : m.nextId = 4294967295
        · have hunchecked : checks = false := by
            cases checks with
            | false => rfl
            | true => exact absurd ⟨hlast, rfl⟩ hchecks
          cases addrs with
          | nil =>
              rw [Room, hlast, hunchecked]
              exact le_rfl
          | cons addr' addrs =>
              have hzero : (m.push norm).nextId = 0 := by
                show m.nextId + 1 = 0
                rw [hlast]
                rfl
              exact absurd hrest (addAll_of_zero hzero addr' addrs)
        · have hroom := ih (hahead.push hlast norm) h.push hrest
          have hnext : (m.push norm).nextId.toNat = m.nextId.toNat + 1 := toNat_add_one hlast
          rw [Room, hnext] at hroom
          rw [Room, List.length_cons]
          omega

theorem map_address_assigned (start : UInt32) (norms : List String) :
    (assigned start norms).map Node.address = norms := by
  induction norms generalizing start with
  | nil => rfl
  | cons norm norms ih => rw [assigned, List.map_cons, ih]

theorem le_of_mem_assigned {start : UInt32} {norms : List String} (hroom : start.toNat + norms.length ≤ 4294967296)
    {n : Node} (hn : n ∈ assigned start norms) : start ≤ n.id := by
  induction norms generalizing start with
  | nil => cases hn
  | cons norm norms ih =>
      rw [List.length_cons] at hroom
      rcases List.mem_cons.mp hn with rfl | hn
      · exact UInt32.le_refl _
      · have hlast : start ≠ 4294967295 := by
          rintro rfl
          cases norms with
          | nil => cases hn
          | cons norm' norms =>
              simp only [List.length_cons] at hroom
              exact absurd hroom (by show ¬4294967295 + (norms.length + 1 + 1) ≤ 4294967296; omega)
        have hle := ih (by rw [toNat_add_one hlast]; omega) hn
        exact UInt32.le_trans (UInt32.le_of_lt (lt_add_one hlast)) hle

end Batch

end Manager

/-! ### Runs -/

namespace World

variable {parse : String → Option String} {checks : Bool} {w w' : World} {op : Op} {seen : List UInt32}

/-- The IDs in the pool after an operation. -/
def pooled (parse : String → Option String) (checks : Bool) (w : World) (op : Op) : List UInt32 :=
  ((w.step parse checks op).map fun u => u.manager.nodes.keys).getD []

/-- The handles a client has are those of the manager. -/
def Own (w : World) : Op → Prop
  | .withAdditionalNodes _ extra =>
      ∀ n ∈ extra, (∃ cfg ∈ w.configs, n ∈ cfg.nodes) ∨ ∃ id, w.manager.nodes.lookup id = some n
  | _ => True

/-- The counter is ahead of all IDs that were ever in the pool, and every configuration is made of such. -/
structure Counted (seen : List UInt32) (w : World) : Prop where
  ahead : w.manager.Ahead
  seen_lt : ∀ id ∈ seen, id < w.manager.nextId
  pool : ∀ id n, w.manager.nodes.lookup id = some n → id ∈ seen
  configs : ∀ cfg ∈ w.configs, ∀ n ∈ cfg.nodes, n.id ∈ seen

/-- The pool after an operation that has not put `u32::MAX` into it. -/
theorem ahead_perform (h : w.manager.Ahead) {m : Manager} {built : Option Configuration}
    (hperform : w.perform parse checks op = some (m, built)) (hmax : m.nodes.lookup 4294967295 = none) :
    m.Ahead ∧ w.manager.nextId ≤ m.nextId := by
  cases performs_of_perform hperform with
  | addNode id addr => exact h.addNode id addr hmax
  | addNodeList addrs => exact h.addAll addrs hmax
  | withNewNodes addrs => exact h.addAll addrs hmax
  | removeNode id =>
      refine ⟨⟨h.1, fun x n hx => ?_⟩, UInt32.le_refl _⟩
      by_cases hid : x = id
      · subst hid
        rw [Manager.removeNode, AList.lookup_erase] at hx
        cases hx
      · rw [Manager.removeNode, AList.lookup_erase_ne hid] at hx
        exact h.2 x n hx
  | _ => exact ⟨h, UInt32.le_refl _⟩

/-- A node of a new configuration is in the pool, or comes from an older configuration. -/
theorem mem_built (hown : w.Own op) {m : Manager} {cfg : Configuration}
    (hperform : w.perform parse checks op = some (m, some cfg)) {n : Node} (hn : n ∈ cfg.nodes) :
    m.nodes.lookup n.id = some n ∨ ∃ old ∈ w.configs, n ∈ old.nodes := by
  have hold {c : Nat} {old : Configuration} (hc : w.configs[c]? = some old) (hn : n ∈ old.nodes) :
      m.nodes.lookup n.id = some n ∨ ∃ old ∈ w.configs, n ∈ old.nodes :=
    Or.inr ⟨old, List.mem_of_getElem? hc, hn⟩
  have hadded {base : Configuration} {extra : List Node} (hn : n ∈ (base.withAdditionalNodes extra).nodes) :
      n ∈ base.nodes ∨ n ∈ extra := by
    refine (List.mem_append.mp hn).imp_right fun hn => ?_
    exact Configuration.mem_of_mem_unseen hn
  generalize hbuilt : some cfg = built at hperform
  cases performs_of_perform hperform with
  | addNode | removeNode => cases hbuilt
  | addNodeList addrs =>
      obtain ⟨nodes, hall, rfl⟩ := toOption_map_eq_some hbuilt.symm
      exact Or.inl (Manager.lookup_of_mem_addAll hall hn)
  | withNewNodes addrs hbase =>
      obtain ⟨nodes, hall, rfl⟩ := toOption_map_eq_some hbuilt.symm
      rcases hadded hn with hn | hn
      · exact hold hbase hn
      · exact Or.inl (Manager.lookup_of_mem_addAll hall hn)
  | configuration ids =>
      obtain ⟨nodes, hfind, rfl⟩ := toOption_map_eq_some hbuilt.symm
      exact Or.inl (Manager.lookup_of_mem_find hfind hn)
  | allNodes =>
      cases hbuilt
      exact Or.inl (Manager.lookup_of_mem_allNodes hn)
  | withoutNodes ids hc =>
      cases hbuilt
      exact hold hc (List.mem_of_mem_filter hn)
  | subConfig ids hc =>
      cases hbuilt
      obtain ⟨id, -, hid⟩ := List.mem_filterMap.mp hn
      rw [Configuration.lookup_byId] at hid
      exact hold hc (List.mem_reverse.mp (List.mem_of_find?_eq_some hid))
  | withAdditionalNodes extra hc =>
      cases hbuilt
      rcases hadded hn with hn | hn
      · exact hold hc hn
      · rcases hown n hn with hthere | ⟨id, hid⟩
        · exact Or.inr hthere
        · refine Or.inl ?_
          rw [w.manager.keyed id n hid]
          exact hid
  | merge hc ho =>
      cases hbuilt
      rcases hadded hn with hn | hn
      · exact hold hc hn
      · exact hold ho hn
  | intersect hc | except hc =>
      cases hbuilt
      exact hold hc (List.mem_of_mem_filter hn)

theorem mem_keys {m : Manager} {id : UInt32} {n : Node} (h : m.nodes.lookup id = some n) : id ∈ m.nodes.keys := by
  rw [← AList.mem_keys, ← AList.lookup_isSome, h]
  rfl

theorem Counted.step (h : Counted seen w) (hown : w.Own op) (hstep : w.step parse checks op = some w')
    (hmax : (4294967295 : UInt32) ∉ pooled parse checks w op) : Counted (seen ++ pooled parse checks w op) w' := by
  have hpooled : pooled parse checks w op = w'.manager.nodes.keys := by
    rw [pooled, hstep]
    rfl
  obtain ⟨m, built, hperform, rfl⟩ := step_eq_some hstep
  rw [hpooled] at hmax ⊢
  have hnone : m.nodes.lookup 4294967295 = none := by
    cases hlookup : m.nodes.lookup 4294967295 with
    | none => rfl
    | some n => exact absurd (mem_keys hlookup) hmax
  obtain ⟨hahead, hle⟩ := ahead_perform h.ahead hperform hnone
  refine ⟨hahead, fun id hid => ?_, fun id n hn => List.mem_append_right _ (mem_keys hn), fun cfg hcfg n hn => ?_⟩
  · rcases List.mem_append.mp hid with hid | hid
    · exact UInt32.lt_of_lt_of_le (h.seen_lt id hid) hle
    · rw [← AList.mem_keys, ← AList.lookup_isSome] at hid
      obtain ⟨n, hn⟩ := Option.isSome_iff_exists.mp hid
      exact hahead.2 id n hn
  · rcases List.mem_append.mp hcfg with hcfg | hcfg
    · exact List.mem_append_left _ (h.configs cfg hcfg n hn)
    · rw [Option.mem_toList.mp hcfg] at hperform
      rcases mem_built hown hperform hn with hlookup | ⟨old, hold, hn⟩
      · exact List.mem_append_right _ (mem_keys hlookup)
      · exact List.mem_append_left _ (h.configs old hold n hn)

theorem counted_init : Counted [] init where
  ahead := Manager.ahead_new
  seen_lt id hid := absurd hid List.not_mem_nil
  pool id n hn := by
    rw [init, Manager.new, AList.lookup_empty] at hn
    cases hn
  configs cfg hcfg := absurd hcfg List.not_mem_nil

theorem counted_run {ops : List Op} (hown : Transition.Within (step parse checks) Own init ops)
    (hrun : Transition.run (step parse checks) init ops = some w)
    (hmax : (4294967295 : UInt32) ∉ Transition.trace (step parse checks) (pooled parse checks) init ops) :
    Counted (Transition.trace (step parse checks) (pooled parse checks) init ops) w := by
  have hcounted := Transition.run_invariant_trace
    (P := fun seen w => (4294967295 : UInt32) ∉ seen → Counted seen w)
    (fun seen w op w' h hown hstep hmax => Counted.step (h fun hmem => hmax (List.mem_append_left _ hmem)) hown hstep
      fun hmem => hmax (List.mem_append_right _ hmem))
    (fun _ => counted_init) hown hrun
  rw [List.nil_append] at hcounted
  exact hcounted hmax

/-- A batch gets nodes with new IDs, and a configuration that it extends keeps its own. -/
def AssignsFresh (parse : String → Option String) (checks : Bool) (used : List UInt32) (w : World)
    (addrs norms : List String) : Prop :=
  ∃ nodes, (w.manager.addNodeList parse checks addrs).2 = .ok ⟨nodes⟩ ∧ nodes.map Node.address = norms ∧
    (nodes.map Node.id).Nodup ∧ (∀ n ∈ nodes, n.id ≠ 0 ∧ n.id ∉ used) ∧
      ∀ base ∈ w.configs, (w.manager.withNewNodes parse checks base addrs).2 = .ok ⟨base.nodes ++ nodes⟩

/-- In every run in which `u32::MAX` was never in the pool, a batch of usable addresses gets new IDs if and
only if there are enough left. -/
theorem assignsFresh_iff (parse : String → Option String) (checks : Bool) (ops : List Op) (w : World)
    (hown : Transition.Within (step parse checks) Own init ops)
    (hrun : Transition.run (step parse checks) init ops = some w)
    (hmax : (4294967295 : UInt32) ∉ Transition.trace (step parse checks) (pooled parse checks) init ops)
    {addrs norms : List String} (husable : w.manager.Usable parse addrs norms) :
    AssignsFresh parse checks (Transition.trace (step parse checks) (pooled parse checks) init ops) w addrs norms ↔
      w.manager.Room checks addrs.length := by
  have h := counted_run hown hrun hmax
  constructor
  · rintro ⟨nodes, hok, -⟩
    cases hall : (w.manager.addAll parse checks addrs).2 with
    | error e =>
        rw [Manager.addNodeList, hall] at hok
        cases hok
    | ok nodes' => exact Manager.room_of_addAll h.ahead husable hall
  · intro hroom
    have hall := Manager.addAll_of_room h.ahead husable hroom
    have hnodup : ((Manager.assigned w.manager.nextId norms).map Node.id).Nodup := isSet_addAll hall
    have hle {n : Node} (hn : n ∈ Manager.assigned w.manager.nextId norms) : w.manager.nextId ≤ n.id := by
      refine Manager.le_of_mem_assigned ?_ hn
      rw [Manager.Room, husable.length_eq] at hroom
      split at hroom <;> omega
    have hfresh {n : Node} (hn : n ∈ Manager.assigned w.manager.nextId norms) {id : UInt32}
        (hid : id ∈ Transition.trace (step parse checks) (pooled parse checks) init ops) : n.id ≠ id := by
      rintro rfl
      exact UInt32.lt_irrefl _ (UInt32.lt_of_lt_of_le (h.seen_lt _ hid) (hle hn))
    refine ⟨Manager.assigned w.manager.nextId norms, ?_, Manager.map_address_assigned _ norms, hnodup,
      fun n hn => ⟨fun hzero => ?_, fun hused => hfresh hn hused rfl⟩, fun base hbase => ?_⟩
    · rw [Manager.addNodeList, hall]
      rfl
    · have hpos := hle hn
      rw [hzero, UInt32.le_zero_iff] at hpos
      exact h.ahead.1 hpos
    · have hkept : base.withAdditionalNodes (Manager.assigned w.manager.nextId norms) =
          ⟨base.nodes ++ Manager.assigned w.manager.nextId norms⟩ := by
        rw [Configuration.withAdditionalNodes, Configuration.unseen_of_nodup _ hnodup]
        congr 2
        refine List.filter_eq_self.mpr fun n hn => decide_eq_true fun hid => ?_
        obtain ⟨n', hn', heq⟩ := List.mem_map.mp hid
        exact hfresh hn (h.configs base hbase n' hn') heq.symm
      rw [Manager.withNewNodes, hall]
      exact congrArg Except.ok hkept

/-- Node 7 is added and removed again; the next node gets the ID 8. -/
theorem assignsFresh_iff_removed : ∃ w, Transition.run (step parseLoopback true) init
      [.addNode 7 "127.0.0.1:5001", .allNodes, .removeNode 7] = some w ∧
    AssignsFresh parseLoopback true [7, 7] w ["127.0.0.1:5002"] ["127.0.0.1:5002"] := by
  obtain ⟨w, hrun⟩ : ∃ w, Transition.run (step parseLoopback true) init
      [.addNode 7 "127.0.0.1:5001", .allNodes, .removeNode 7] = some w := ⟨_, rfl⟩
  have hown : Transition.Within (step parseLoopback true) Own init
      [.addNode 7 "127.0.0.1:5001", .allNodes, .removeNode 7] :=
    Transition.within_cons rfl trivial (Transition.within_cons rfl trivial (Transition.within_cons rfl trivial trivial))
  have hpool : w.manager.nodes.entries = [] ∧ w.manager.nextId = 8 :=
    Transition.eq_of_run_map (f := fun w : World => (w.manager.nodes.entries, w.manager.nextId)) (v := ([], 8)) rfl hrun
      |> Prod.mk.inj
  have husable : w.manager.Usable parseLoopback ["127.0.0.1:5002"] ["127.0.0.1:5002"] := by
    refine ⟨rfl, by decide, fun id n hn => ?_⟩
    have hmem := AList.mem_lookup_iff.mp hn
    rw [hpool.1] at hmem
    exact absurd hmem List.not_mem_nil
  refine ⟨w, hrun, (assignsFresh_iff parseLoopback true _ w hown hrun (by decide) husable).mpr ?_⟩
  rw [Manager.Room, hpool.2]
  decide

/-- A node with the ID `u32::MAX`: without overflow checks the counter is 0 from then on, and no batch gets an
ID. -/
theorem not_assignsFresh_max : ∃ w, Transition.run (step parseLoopback false) init
      [.addNode 4294967295 "127.0.0.1:5001"] = some w ∧
    w.manager.Usable parseLoopback ["127.0.0.1:5002"] ["127.0.0.1:5002"] ∧
    ¬AssignsFresh parseLoopback false [4294967295] w ["127.0.0.1:5002"] ["127.0.0.1:5002"] := by
  obtain ⟨w, hrun⟩ : ∃ w, Transition.run (step parseLoopback false) init
      [.addNode 4294967295 "127.0.0.1:5001"] = some w := ⟨_, rfl⟩
  have hentries : w.manager.nodes.entries = [⟨4294967295, 4294967295, "127.0.0.1:5001"⟩] :=
    Transition.eq_of_run_map (f := fun w : World => w.manager.nodes.entries) rfl hrun
  have hfails : (w.manager.addNodeList parseLoopback false ["127.0.0.1:5002"]).2 =
      .error (.error "node ID 0 is reserved") :=
    Transition.eq_of_run_map (f := fun w : World => (w.manager.addNodeList parseLoopback false ["127.0.0.1:5002"]).2)
      rfl hrun
  refine ⟨w, hrun, ⟨rfl, by decide, fun id n hn => ?_⟩, ?_⟩
  · have hmem := AList.mem_lookup_iff.mp hn
    rw [hentries, List.mem_singleton] at hmem
    cases hmem
    decide
  · rintro ⟨nodes, hok, -⟩
    rw [hfails] at hok
    cases hok

end World

end Quorums.Config
