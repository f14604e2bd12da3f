import Mathlib.Data.List.Sort
import Quorums.BaseRun
import Quorums.ConfigViews

/-! The connection pool (`manager.rs`) and everything a client can build from it: runs of pool operations
and of configuration constructors and views in any order. Two constructors take the IDs from the caller
and keep repetitions; a run builds nothing but sets exactly when these two were never given any. -/

namespace Quorums.Config

/-- Why an operation returned no value: an error with its text, or a panic. -/
inductive Failure where
  | error (text : String)
  | panic
  deriving DecidableEq, Repr

/-- The pool, by node ID. -/
structure Manager where
  nodes : AList fun _ : UInt32 => Node
  nextId : UInt32
  keyed : ∀ id n, nodes.lookup id = some n → n.id = id

namespace Manager

def new : Manager := ⟨∅, 1, fun id n h => by rw [AList.lookup_empty] at h; cases h⟩

/-- `self.nodes.insert(id, node)`. -/
def insertNode (m : Manager) (n : Node) : Manager where
  nodes := m.nodes.insert n.id n
  nextId := m.nextId
  keyed id x h := by
    by_cases hid : id = n.id
    · subst hid
      rw [AList.lookup_insert, Option.some.injEq] at h
      rw [← h]
    · rw [AList.lookup_insert_ne hid] at h
      exact m.keyed id x h

section

-- `parse` is the parser of `std::net::SocketAddr` followed by its printer; `checks` says whether the
-- build checks arithmetic for overflow.
variable (parse : String → Option String) (checks : Bool)

def normalizeAddr (addr : String) : Except Failure String :=
  match parse addr with
  | some a => .ok a
  | none => .error (.error s!"invalid address: {addr}")

def addNode (m : Manager) (id : UInt32) (addr : String) : Manager × Except Failure Unit :=
  if id = 0 then (m, .error (.error "node ID 0 is reserved"))
  else
    match normalizeAddr parse addr with
    | .error e => (m, .error e)
    | .ok norm =>
        if (m.nodes.lookup id).isSome then (m, .error (.error s!"node ID {id} already in use"))
        else if m.nodes.entries.any fun e => e.2.address = norm then
          (m, .error (.error s!"address {norm} already in use"))
        else if m.nextId ≤ id then
          -- the node is in the pool before `id + 1` is computed
          if id = 4294967295 ∧ checks then (m.insertNode ⟨id, norm⟩, .error .panic)
          else ({ m.insertNode ⟨id, norm⟩ with nextId := id + 1 }, .ok ())
        else (m.insertNode ⟨id, norm⟩, .ok ())

/-- The loop of `add_node_list` and `with_new_nodes`: what was added before a failure stays. -/
def addAll (m : Manager) : List String → Manager × Except Failure (List Node)
  | [] => (m, .ok [])
  | addr :: addrs =>
      match m.addNode parse checks m.nextId addr with
      | (m', .error e) => (m', .error e)
      | (m', .ok ()) =>
          match m'.nodes.lookup m.nextId with
          | none => (m', .error .panic)
          | some node =>
              match m'.addAll addrs with
              | (m'', .error e) => (m'', .error e)
              | (m'', .ok nodes) => (m'', .ok (node :: nodes))

def addNodeList (m : Manager) (addrs : List String) : Manager × Except Failure Configuration :=
  let r := m.addAll parse checks addrs
  (r.1, r.2.map Configuration.mk)

def withNewNodes (m : Manager) (base : Configuration) (addrs : List String) :
    Manager × Except Failure Configuration :=
  let r := m.addAll parse checks addrs
  (r.1, r.2.map base.withAdditionalNodes)

end

/-- The loop of `configuration`. -/
def find (m : Manager) : List UInt32 → Except Failure (List Node)
  | [] => .ok []
  | id :: ids =>
      match m.nodes.lookup id with
      | none => .error (.error s!"node ID {id} not found")
      | some node => (m.find ids).map (node :: ·)

def configuration (m : Manager) (ids : List UInt32) : Except Failure Configuration :=
  (m.find ids).map Configuration.mk

def allNodes (m : Manager) : Configuration :=
  ⟨(m.nodes.entries.map fun e => e.2).insertionSort fun a b => a.id ≤ b.id⟩

def removeNode (m : Manager) (id : UInt32) : Manager × Bool :=
  ({ m with
      nodes := m.nodes.erase id
      keyed := fun x n h => by
        by_cases hx : x = id
        · subst hx
          rw [AList.lookup_erase] at h
          cases h
        · rw [AList.lookup_erase_ne hx] at h
          exact m.keyed x n h },
    (m.nodes.lookup id).isSome)

/-! ### What the constructors build -/

variable {parse : String → Option String} {checks : Bool} {m m' : Manager}

theorem lookup_insertNode (n : Node) (id : UInt32) :
    (m.insertNode n).nodes.lookup id = if id = n.id then some n else m.nodes.lookup id := by
  split
  · rename_i h
    subst h
    exact AList.lookup_insert _
  · rename_i h
    exact AList.lookup_insert_ne h

/-- A node is added under an ID that was free, and under no other. -/
theorem addNode_ok {id : UInt32} {addr : String} (h : m.addNode parse checks id addr = (m', .ok ())) :
    m.nodes.lookup id = none ∧ (m'.nodes.lookup id).isSome = true ∧
      ∀ x, x ≠ id → m'.nodes.lookup x = m.nodes.lookup x := by
  rw [addNode] at h
  split at h
  · cases h
  · split at h
    · cases h
    · rename_i norm hnorm
      split at h
      · cases h
      · rename_i hfree
        have hnone : m.nodes.lookup id = none := by simpa using hfree
        have hother : ∀ x, x ≠ id →
            (m.insertNode ⟨id, norm⟩).nodes.lookup x = m.nodes.lookup x := by
          intro x hx
          rw [lookup_insertNode, if_neg hx]
        have hself : ((m.insertNode ⟨id, norm⟩).nodes.lookup id).isSome = true := by
          rw [lookup_insertNode, if_pos rfl]
          rfl
        split at h
        · cases h
        · split at h
          · split at h
            · cases h
            · cases h
              exact ⟨hnone, hself, hother⟩
          · cases h
            exact ⟨hnone, hself, hother⟩

/-- The nodes of a successful `addAll` are new to the pool, and no two have one ID. -/
theorem addAll_ok {addrs : List String} {nodes : List Node}
    (h : m.addAll parse checks addrs = (m', .ok nodes)) :
    (nodes.map Node.id).Nodup ∧ ∀ n ∈ nodes, m.nodes.lookup n.id = none := by
  induction addrs generalizing m nodes with
  | nil =>
      cases h
      exact ⟨List.nodup_nil, fun n hn => by cases hn⟩
  | cons addr addrs ih =>
      rw [addAll] at h
      split at h
      · cases h
      · rename_i m₁ hadd
        obtain ⟨hnone, -, hother⟩ := addNode_ok hadd
        split at h
        · cases h
        · rename_i node hnode
          split at h
          · cases h
          · rename_i m₂ rest hrest
            cases h
            obtain ⟨hnodup, hfree⟩ := ih hrest
            have hid : node.id = m.nextId := m₁.keyed _ _ hnode
            have hne : ∀ n ∈ rest, n.id ≠ m.nextId := by
              intro n hn heq
              have hlookup := hfree n hn
              rw [heq, hnode] at hlookup
              cases hlookup
            refine ⟨?_, fun n hn => ?_⟩
            · rw [List.map_cons, List.nodup_cons, hid]
              refine ⟨fun hmem => ?_, hnodup⟩
              obtain ⟨n, hn, heq⟩ := List.mem_map.mp hmem
              exact hne n hn heq
            · rcases List.mem_cons.mp hn with rfl | hmem
              · rw [hid]
                exact hnone
              · rw [← hother n.id (hne n hmem)]
                exact hfree n hmem

/-- `find` answers with the nodes asked for, in the order and as often as they were asked for. -/
theorem find_ok {ids : List UInt32} {nodes : List Node} (h : m.find ids = .ok nodes) :
    nodes.map Node.id = ids := by
  induction ids generalizing nodes with
  | nil =>
      cases h
      rfl
  | cons id ids ih =>
      rw [find] at h
      split at h
      · cases h
      · rename_i node hnode
        cases hrest : m.find ids with
        | error e =>
            rw [hrest] at h
            cases h
        | ok rest =>
            rw [hrest] at h
            cases h
            rw [List.map_cons, m.keyed id node hnode, ih hrest]

theorem find_isOk_of_forall {ids : List UInt32} (h : ∀ id ∈ ids, (m.nodes.lookup id).isSome = true) :
    ∃ nodes, m.find ids = .ok nodes := by
  induction ids with
  | nil => exact ⟨[], rfl⟩
  | cons id ids ih =>
      obtain ⟨node, hnode⟩ := Option.isSome_iff_exists.mp (h id List.mem_cons_self)
      obtain ⟨nodes, hnodes⟩ := ih fun x hx => h x (List.mem_cons_of_mem _ hx)
      refine ⟨node :: nodes, ?_⟩
      rw [find, hnode]
      dsimp only
      rw [hnodes]
      rfl

theorem isSome_of_find_ok {ids : List UInt32} {nodes : List Node} (h : m.find ids = .ok nodes) :
    ∀ id ∈ ids, (m.nodes.lookup id).isSome = true := by
  induction ids generalizing nodes with
  | nil => exact fun id hid => by cases hid
  | cons x ids ih =>
      rw [find] at h
      split at h
      · cases h
      · rename_i node hnode
        cases hrest : m.find ids with
        | error e =>
            rw [hrest] at h
            cases h
        | ok rest =>
            intro id hid
            rcases List.mem_cons.mp hid with rfl | hmem
            · rw [hnode]
              rfl
            · exact ih hrest id hmem

theorem isSet_allNodes (m : Manager) : m.allNodes.IsSet := by
  have hkeys : m.nodes.entries.map (fun e => e.2.id) = m.nodes.keys := by
    rw [AList.keys, List.keys]
    refine List.map_congr_left fun e he => ?_
    exact m.keyed e.1 e.2 (AList.mem_lookup_iff.mpr he)
  have hnodup : ((m.nodes.entries.map fun e => e.2).map Node.id).Nodup := by
    rw [List.map_map]
    exact hkeys ▸ m.nodes.nodupKeys
  exact (((List.perm_insertionSort _ _).map Node.id).nodup_iff).mpr hnodup

end Manager

/-! ### Runs -/

/-- A manager and the configurations built so far, in the order in which they were built. -/
structure World where
  manager : Manager
  configs : List Configuration

def World.init : World := ⟨Manager.new, []⟩

/-- The operations of a client. Configurations are named by their place among those built. -/
inductive Op where
  | addNode (id : UInt32) (addr : String)
  | addNodeList (addrs : List String)
  | withNewNodes (base : Nat) (addrs : List String)
  | removeNode (id : UInt32)
  | configuration (ids : List UInt32)
  | allNodes
  | withoutNodes (c : Nat) (ids : List UInt32)
  | subConfig (c : Nat) (ids : List UInt32)
  | withAdditionalNodes (c : Nat) (extra : List Node)
  | merge (c other : Nat)
  | intersect (c other : Nat)
  | except (c other : Nat)
  deriving DecidableEq, Repr

namespace World

/-- What an operation does to the manager, and the configuration it builds, if it builds one. -/
def perform (parse : String → Option String) (checks : Bool) (w : World) :
    Op → Option (Manager × Option Configuration)
  | .addNode id addr => some ((w.manager.addNode parse checks id addr).1, none)
  | .addNodeList addrs =>
      let r := w.manager.addNodeList parse checks addrs
      some (r.1, r.2.toOption)
  | .withNewNodes base addrs =>
      w.configs[base]?.map fun cfg =>
        let r := w.manager.withNewNodes parse checks cfg addrs
        (r.1, r.2.toOption)
  | .removeNode id => some ((w.manager.removeNode id).1, none)
  | .configuration ids => some (w.manager, (w.manager.configuration ids).toOption)
  | .allNodes => some (w.manager, some w.manager.allNodes)
  | .withoutNodes c ids => w.configs[c]?.map fun cfg => (w.manager, some (cfg.withoutNodes ids))
  | .subConfig c ids => w.configs[c]?.map fun cfg => (w.manager, some (cfg.subConfig ids))
  | .withAdditionalNodes c extra =>
      w.configs[c]?.map fun cfg => (w.manager, some (cfg.withAdditionalNodes extra))
  | .merge c other =>
      w.configs[c]?.bind fun cfg => w.configs[other]?.map fun o => (w.manager, some (cfg.merge o))
  | .intersect c other =>
      w.configs[c]?.bind fun cfg => w.configs[other]?.map fun o => (w.manager, some (cfg.intersect o))
  | .except c other =>
      w.configs[c]?.bind fun cfg => w.configs[other]?.map fun o => (w.manager, some (cfg.except o))

def step (parse : String → Option String) (checks : Bool) (w : World) (op : Op) : Option World :=
  (w.perform parse checks op).map fun r => ⟨r.1, w.configs ++ r.2.toList⟩

/-- Every configuration built is a set. -/
def AllSets (w : World) : Prop := ∀ cfg ∈ w.configs, cfg.IsSet

/-- The caller repeats no ID: not among IDs that are all in the pool, when it asks the pool for them, and
not among those that are in the configuration, when it asks a configuration. -/
def Distinctly (w : World) : Op → Prop
  | .configuration ids => (∀ id ∈ ids, (w.manager.nodes.lookup id).isSome = true) → ids.Nodup
  | .subConfig c ids =>
      ∀ cfg, w.configs[c]? = some cfg → (ids.filter fun id => id ∈ cfg.nodeIds).Nodup
  | _ => True

variable {parse : String → Option String} {checks : Bool} {w w' : World} {op : Op}

theorem step_eq_some (h : w.step parse checks op = some w') :
    ∃ m built, w.perform parse checks op = some (m, built) ∧ w' = ⟨m, w.configs ++ built.toList⟩ := by
  obtain ⟨⟨m, built⟩, hperform, heq⟩ := Option.map_eq_some_iff.mp h
  exact ⟨m, built, hperform, heq.symm⟩

/-- What an operation can do to the manager, and what it can build. -/
inductive Performs (parse : String → Option String) (checks : Bool) (w : World) :
    Op → Manager → Option Configuration → Prop where
  | addNode (id : UInt32) (addr : String) :
      Performs parse checks w (.addNode id addr) (w.manager.addNode parse checks id addr).1 none
  | addNodeList (addrs : List String) :
      Performs parse checks w (.addNodeList addrs) (w.manager.addNodeList parse checks addrs).1
        (w.manager.addNodeList parse checks addrs).2.toOption
  | withNewNodes {base : Nat} {cfg : Configuration} (addrs : List String) (hbase : w.configs[base]? = some cfg) :
      Performs parse checks w (.withNewNodes base addrs) (w.manager.withNewNodes parse checks cfg addrs).1
        (w.manager.withNewNodes parse checks cfg addrs).2.toOption
  | removeNode (id : UInt32) : Performs parse checks w (.removeNode id) (w.manager.removeNode id).1 none
  | configuration (ids : List UInt32) :
      Performs parse checks w (.configuration ids) w.manager (w.manager.configuration ids).toOption
  | allNodes : Performs parse checks w .allNodes w.manager (some w.manager.allNodes)
  | withoutNodes {c : Nat} {cfg : Configuration} (ids : List UInt32) (hc : w.configs[c]? = some cfg) :
      Performs parse checks w (.withoutNodes c ids) w.manager (some (cfg.withoutNodes ids))
  | subConfig {c : Nat} {cfg : Configuration} (ids : List UInt32) (hc : w.configs[c]? = some cfg) :
      Performs parse checks w (.subConfig c ids) w.manager (some (cfg.subConfig ids))
  | withAdditionalNodes {c : Nat} {cfg : Configuration} (extra : List Node) (hc : w.configs[c]? = some cfg) :
      Performs parse checks w (.withAdditionalNodes c extra) w.manager (some (cfg.withAdditionalNodes extra))
  | merge {c other : Nat} {cfg o : Configuration} (hc : w.configs[c]? = some cfg)
      (ho : w.configs[other]? = some o) :
      Performs parse checks w (.merge c other) w.manager (some (cfg.merge o))
  | intersect {c other : Nat} {cfg o : Configuration} (hc : w.configs[c]? = some cfg)
      (ho : w.configs[other]? = some o) :
      Performs parse checks w (.intersect c other) w.manager (some (cfg.intersect o))
  | except {c other : Nat} {cfg o : Configuration} (hc : w.configs[c]? = some cfg)
      (ho : w.configs[other]? = some o) :
      Performs parse checks w (.except c other) w.manager (some (cfg.except o))

theorem performs_of_perform {m : Manager} {built : Option Configuration}
    (h : w.perform parse checks op = some (m, built)) : Performs parse checks w op m built := by
  cases op with
  | addNode id addr =>
      cases h
      exact .addNode id addr
  | addNodeList addrs =>
      cases h
      exact .addNodeList addrs
  | withNewNodes base addrs =>
      obtain ⟨cfg, hbase, heq⟩ := Option.map_eq_some_iff.mp h
      cases heq
      exact .withNewNodes addrs hbase
  | removeNode id =>
      cases h
      exact .removeNode id
  | configuration ids =>
      cases h
      exact .configuration ids
  | allNodes =>
      cases h
      exact .allNodes
  | withoutNodes c ids =>
      obtain ⟨cfg, hc, heq⟩ := Option.map_eq_some_iff.mp h
      cases heq
      exact .withoutNodes ids hc
  | subConfig c ids =>
      obtain ⟨cfg, hc, heq⟩ := Option.map_eq_some_iff.mp h
      cases heq
      exact .subConfig ids hc
  | withAdditionalNodes c extra =>
      obtain ⟨cfg, hc, heq⟩ := Option.map_eq_some_iff.mp h
      cases heq
      exact .withAdditionalNodes extra hc
  | merge c other =>
      obtain ⟨cfg, hc, hother⟩ := Option.bind_eq_some_iff.mp h
      obtain ⟨o, ho, heq⟩ := Option.map_eq_some_iff.mp hother
      cases heq
      exact .merge hc ho
  | intersect c other =>
      obtain ⟨cfg, hc, hother⟩ := Option.bind_eq_some_iff.mp h
      obtain ⟨o, ho, heq⟩ := Option.map_eq_some_iff.mp hother
      cases heq
      exact .intersect hc ho
  | except c other =>
      obtain ⟨cfg, hc, hother⟩ := Option.bind_eq_some_iff.mp h
      obtain ⟨o, ho, heq⟩ := Option.map_eq_some_iff.mp hother
      cases heq
      exact .except hc ho

theorem toOption_map_eq_some {α β ε : Type} {e : Except ε α} {f : α → β} {y : β}
    (h : (e.map f).toOption = some y) : ∃ x, e = .ok x ∧ f x = y := by
  cases e with
  | error err => cases h
  | ok x => exact ⟨x, rfl, Option.some.inj h⟩

/-- The pool never gives two of the new nodes one ID. -/
theorem isSet_addAll {m : Manager} {addrs : List String} {nodes : List Node}
    (h : (m.addAll parse checks addrs).2 = .ok nodes) : (Configuration.mk nodes).IsSet := by
  cases hall : m.addAll parse checks addrs with
  | mk m' result =>
      rw [hall] at h
      dsimp only at h
      rw [h] at hall
      exact (Manager.addAll_ok hall).1

theorem isSet_configuration_iff (m : Manager) (ids : List UInt32) :
    (∀ cfg, (m.configuration ids).toOption = some cfg → cfg.IsSet) ↔
      ((∀ id ∈ ids, (m.nodes.lookup id).isSome = true) → ids.Nodup) := by
  rw [Manager.configuration]
  constructor
  · intro hset hids
    obtain ⟨nodes, hnodes⟩ := Manager.find_isOk_of_forall hids
    have hcfg := hset ⟨nodes⟩ (by rw [hnodes]; rfl)
    rw [Configuration.IsSet, Configuration.nodeIds, Manager.find_ok hnodes] at hcfg
    exact hcfg
  · intro hids cfg hcfg
    obtain ⟨nodes, hfind, rfl⟩ := toOption_map_eq_some hcfg
    rw [Configuration.IsSet, Configuration.nodeIds, Manager.find_ok hfind]
    exact hids (Manager.isSome_of_find_ok hfind)

/-- **An operation on sets builds a set exactly when the caller repeats no ID.** -/
theorem isSet_built_iff (hw : w.AllSets) {m : Manager} {built : Option Configuration}
    (h : w.perform parse checks op = some (m, built)) :
    (∀ cfg, built = some cfg → cfg.IsSet) ↔ w.Distinctly op := by
  have hmem : ∀ {c : Nat} {cfg : Configuration}, w.configs[c]? = some cfg → cfg.IsSet :=
    fun hc => hw _ (List.mem_of_getElem? hc)
  -- all but two of the operations build a set whatever they are given
  have hview {cfg : Configuration} (hcfg : cfg.IsSet) :
      (∀ cfg', some cfg = some cfg' → cfg'.IsSet) ↔ True :=
    iff_true_intro fun cfg' heq => Option.some.inj heq ▸ hcfg
  cases performs_of_perform h with
  | addNode | removeNode => exact iff_true_intro fun cfg hcfg => by cases hcfg
  | addNodeList addrs =>
      refine iff_true_intro fun cfg hcfg => ?_
      obtain ⟨nodes, hall, rfl⟩ := toOption_map_eq_some hcfg
      exact isSet_addAll hall
  | withNewNodes addrs hbase =>
      refine iff_true_intro fun cfg hcfg => ?_
      obtain ⟨nodes, -, rfl⟩ := toOption_map_eq_some hcfg
      exact (hmem hbase).withAdditionalNodes nodes
  | configuration ids => exact isSet_configuration_iff w.manager ids
  | allNodes => exact hview w.manager.isSet_allNodes
  | withoutNodes ids hc => exact hview ((hmem hc).withoutNodes ids)
  | @subConfig c cfg₀ ids hc =>
      rw [Distinctly]
      constructor
      · intro hset cfg hcfg
        rw [Option.some.inj (hcfg.symm.trans hc), ← Configuration.isSet_subConfig_iff]
        exact hset _ rfl
      · intro hids cfg hcfg
        cases hcfg
        rw [Configuration.isSet_subConfig_iff]
        exact hids cfg₀ hc
  | withAdditionalNodes extra hc => exact hview ((hmem hc).withAdditionalNodes extra)
  | merge hc => exact hview ((hmem hc).merge _)
  | intersect hc => exact hview ((hmem hc).intersect _)
  | except hc => exact hview ((hmem hc).except _)

/-- One step: everything built so far and the new configuration are sets exactly when everything built
so far is and the caller repeats no ID. -/
theorem allSets_step_iff (h : w.step parse checks op = some w') :
    w'.AllSets ↔ w.AllSets ∧ w.Distinctly op := by
  obtain ⟨m, built, hperform, rfl⟩ := step_eq_some h
  constructor
  · intro hsets
    have hw : w.AllSets := fun cfg hcfg => hsets cfg (List.mem_append_left _ hcfg)
    refine ⟨hw, (isSet_built_iff hw hperform).mp fun cfg hcfg => ?_⟩
    refine hsets cfg (List.mem_append_right _ ?_)
    rw [hcfg]
    exact List.mem_singleton_self cfg
  · rintro ⟨hw, hids⟩ cfg hcfg
    rcases List.mem_append.mp hcfg with hold | hnew
    · exact hw cfg hold
    · exact (isSet_built_iff hw hperform).mpr hids cfg (Option.mem_toList.mp hnew)

/-- Configurations are never taken back. -/
theorem configs_run {ops : List Op} (hrun : Transition.run (step parse checks) w ops = some w')
    {cfg : Configuration} (hcfg : cfg ∈ w.configs) : cfg ∈ w'.configs := by
  refine Transition.run_invariant (P := fun u => cfg ∈ u.configs) (fun s a t hs hstep => ?_) hcfg hrun
  obtain ⟨m, built, -, rfl⟩ := step_eq_some hstep
  exact List.mem_append_left _ hs

theorem allSets_run_iff (ops : List Op) (w u : World) (hw : w.AllSets)
    (hrun : Transition.run (step parse checks) w ops = some u) :
    u.AllSets ↔ Transition.Within (step parse checks) Distinctly w ops := by
  induction ops generalizing w with
  | nil =>
      cases hrun
      exact ⟨fun _ => trivial, fun _ => hw⟩
  | cons op ops ih =>
      obtain ⟨t, hstep, hrest⟩ := Transition.run_cons_eq_some.mp hrun
      constructor
      · intro hu
        have hkeep : t.AllSets := fun cfg hcfg => hu cfg (configs_run hrest hcfg)
        exact Transition.within_cons hstep ((allSets_step_iff hstep).mp hkeep).2
          ((ih t hkeep hrest).mp hu)
      · rintro ⟨hop, hwithin⟩
        have ht := (allSets_step_iff hstep).mpr ⟨hw, hop⟩
        exact (ih t ht hrest).mpr (hwithin t hstep)

/-- **Every configuration is a set** in exactly those runs in which no ID is repeated in a successful
`configuration`, and none that the configuration has in a `sub_config`. -/
theorem configurations_sets_iff (parse : String → Option String) (checks : Bool) (ops : List Op)
    (u : World) (hrun : Transition.run (step parse checks) init ops = some u) :
    u.AllSets ↔ Transition.Within (step parse checks) Distinctly init ops :=
  allSets_run_iff ops init u (fun cfg hcfg => by cases hcfg) hrun

/-- Two loopback addresses, which are their own normal form. -/
def loopback : List String := ["127.0.0.1:5001", "127.0.0.1:5002"]

def parseLoopback (addr : String) : Option String := if addr ∈ loopback then some addr else none

theorem configurations_sets_iff_merge :
    ∃ u, Transition.run (step parseLoopback true) init
        [.addNodeList loopback, .configuration [2], .merge 1 0] = some u ∧
      u.configs.map Configuration.nodeIds = [[1, 2], [2], [2, 1]] ∧ u.AllSets := by
  obtain ⟨u, hrun⟩ : ∃ u, Transition.run (step parseLoopback true) init
      [.addNodeList loopback, .configuration [2], .merge 1 0] = some u := ⟨_, rfl⟩
  have hids : u.configs.map Configuration.nodeIds = [[1, 2], [2], [2, 1]] :=
    Transition.eq_of_run_map (f := fun u => u.configs.map Configuration.nodeIds) (by decide) hrun
  refine ⟨u, hrun, hids, (configurations_sets_iff parseLoopback true _ u hrun).mpr ?_⟩
  refine Transition.within_cons rfl trivial (Transition.within_cons rfl (fun _ => ?_) ?_)
  · decide
  · exact Transition.within_cons rfl trivial trivial

/-- `configuration(&[1, 1, 2])`: node 1 alone makes up a majority of the three. -/
theorem configuration_repeated_not_set :
    ∃ u, Transition.run (step parseLoopback true) init
        [.addNodeList loopback, .configuration [1, 1, 2]] = some u ∧
      u.configs.map Configuration.nodeIds = [[1, 2], [1, 1, 2]] ∧ ¬u.AllSets := by
  obtain ⟨u, hrun⟩ : ∃ u, Transition.run (step parseLoopback true) init
      [.addNodeList loopback, .configuration [1, 1, 2]] = some u := ⟨_, rfl⟩
  have hids : u.configs.map Configuration.nodeIds = [[1, 2], [1, 1, 2]] :=
    Transition.eq_of_run_map (f := fun u => u.configs.map Configuration.nodeIds) (by decide) hrun
  refine ⟨u, hrun, hids, fun hsets => ?_⟩
  have hmem : [1, 1, 2] ∈ u.configs.map Configuration.nodeIds := by
    rw [hids]
    decide
  obtain ⟨cfg, hcfg, hcfgIds⟩ := List.mem_map.mp hmem
  have hset := hsets cfg hcfg
  rw [Configuration.IsSet, hcfgIds] at hset
  exact absurd hset (by decide)

end World

end Quorums.Config
