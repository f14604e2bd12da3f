import Mathlib.Data.List.Nodup
import Quorums.BaseMap

/-! Configurations and their views (`config.rs`). A configuration is an ordered list of node handles; a
view is built from other configurations without new connections. A configuration is a set when no node
ID occurs in it twice. -/

namespace Quorums.Config

/-- A handle of a node, as far as the views look at it. -/
structure Node where
  id : UInt32
  address : String
  deriving DecidableEq, Repr

structure Configuration where
  nodes : List Node
  deriving DecidableEq, Repr

namespace Configuration

def size (c : Configuration) : Nat := c.nodes.length

def nodeIds (c : Configuration) : List UInt32 := c.nodes.map Node.id

def withoutNodes (c : Configuration) (ids : List UInt32) : Configuration :=
  ⟨c.nodes.filter fun n => n.id ∉ ids⟩

/-- `by_id`: when an ID occurs more than once, its last node is kept. -/
def byId (c : Configuration) : AList fun _ : UInt32 => Node :=
  c.nodes.foldl (fun m n => m.insert n.id n) ∅

def subConfig (c : Configuration) (ids : List UInt32) : Configuration :=
  ⟨ids.filterMap fun id => c.byId.lookup id⟩

/-- The nodes the loop of `with_additional_nodes` pushes, given the IDs seen so far. -/
def unseen (seen : List UInt32) : List Node → List Node
  | [] => []
  | n :: extra => if n.id ∈ seen then unseen seen extra else n :: unseen (n.id :: seen) extra

def withAdditionalNodes (c : Configuration) (extra : List Node) : Configuration :=
  ⟨c.nodes ++ unseen c.nodeIds extra⟩

def merge (c other : Configuration) : Configuration := c.withAdditionalNodes other.nodes

def intersect (c other : Configuration) : Configuration :=
  ⟨c.nodes.filter fun n => n.id ∈ other.nodeIds⟩

def except (c other : Configuration) : Configuration :=
  ⟨c.nodes.filter fun n => n.id ∉ other.nodeIds⟩

/-- No node ID occurs twice. -/
def IsSet (c : Configuration) : Prop := c.nodeIds.Nodup

instance (c : Configuration) : Decidable c.IsSet := inferInstanceAs (Decidable c.nodeIds.Nodup)

variable {c other : Configuration}

/-- Three of the views only filter. -/
theorem IsSet.filter (h : c.IsSet) (p : Node → Bool) : IsSet ⟨c.nodes.filter p⟩ :=
  List.Nodup.sublist (List.filter_sublist.map Node.id) h

theorem IsSet.withoutNodes (h : c.IsSet) (ids : List UInt32) : (c.withoutNodes ids).IsSet := h.filter _

theorem IsSet.intersect (h : c.IsSet) (other : Configuration) : (c.intersect other).IsSet := h.filter _

theorem IsSet.except (h : c.IsSet) (other : Configuration) : (c.except other).IsSet := h.filter _

theorem not_mem_seen_of_mem_unseen {seen : List UInt32} {extra : List Node} {n : Node}
    (hn : n ∈ unseen seen extra) : n.id ∉ seen := by
  induction extra generalizing seen with
  | nil => cases hn
  | cons x extra ih =>
      rw [unseen] at hn
      split at hn
      · exact ih hn
      · rename_i hx
        rcases List.mem_cons.mp hn with rfl | hmem
        · exact hx
        · exact fun h => ih hmem (List.mem_cons_of_mem _ h)

theorem nodup_unseen (seen : List UInt32) (extra : List Node) :
    ((unseen seen extra).map Node.id).Nodup := by
  induction extra generalizing seen with
  | nil => exact List.nodup_nil
  | cons x extra ih =>
      rw [unseen]
      split
      · exact ih seen
      · rw [List.map_cons, List.nodup_cons]
        refine ⟨fun hmem => ?_, ih _⟩
        obtain ⟨n, hn, hid⟩ := List.mem_map.mp hmem
        exact not_mem_seen_of_mem_unseen hn (by rw [hid]; exact List.mem_cons_self)

theorem IsSet.withAdditionalNodes (h : c.IsSet) (extra : List Node) :
    (c.withAdditionalNodes extra).IsSet := by
  rw [IsSet, nodeIds, Configuration.withAdditionalNodes, List.map_append, List.nodup_append]
  refine ⟨h, nodup_unseen _ extra, ?_⟩
  rintro a ha b hb rfl
  obtain ⟨n, hn, rfl⟩ := List.mem_map.mp hb
  exact not_mem_seen_of_mem_unseen hn ha

theorem IsSet.merge (h : c.IsSet) (other : Configuration) : (c.merge other).IsSet :=
  h.withAdditionalNodes other.nodes

/-! ### `sub_config` -/

theorem lookup_byId (c : Configuration) (id : UInt32) :
    c.byId.lookup id = c.nodes.reverse.find? fun n => n.id = id := by
  rw [byId, HashMap.lookup_foldl_insert Node.id fun n => n, AList.lookup_empty, Option.or_none]
  exact Option.map_id_apply

theorem id_of_lookup_byId {id : UInt32} {n : Node} (h : c.byId.lookup id = some n) : n.id = id := by
  rw [lookup_byId] at h
  simpa using List.find?_some h

theorem lookup_byId_isSome {id : UInt32} : (c.byId.lookup id).isSome = true ↔ id ∈ c.nodeIds := by
  rw [lookup_byId, List.find?_isSome, nodeIds, List.mem_map]
  simp

/-- The IDs of a sub-configuration: the IDs asked for that are there, as often as they were asked for. -/
theorem nodeIds_subConfig (c : Configuration) (ids : List UInt32) :
    (c.subConfig ids).nodeIds = ids.filter fun id => id ∈ c.nodeIds := by
  rw [subConfig, nodeIds]
  induction ids with
  | nil => rfl
  | cons id ids ih =>
      rw [List.filterMap_cons, List.filter_cons]
      cases hlookup : c.byId.lookup id with
      | none =>
          have hmem : id ∉ c.nodeIds := by
            rw [← lookup_byId_isSome, hlookup]
            exact Bool.false_ne_true
          rw [if_neg (by simpa using hmem)]
          exact ih
      | some n =>
          have hmem : id ∈ c.nodeIds := by
            rw [← lookup_byId_isSome, hlookup]
            rfl
          rw [if_pos (by simpa using hmem)]
          dsimp only
          rw [List.map_cons, id_of_lookup_byId hlookup, ih]

theorem isSet_subConfig_iff (c : Configuration) (ids : List UInt32) :
    (c.subConfig ids).IsSet ↔ (ids.filter fun id => id ∈ c.nodeIds).Nodup := by
  rw [IsSet, nodeIds_subConfig]

end Configuration

end Quorums.Config
