import Mathlib.Data.Finset.Card
import Quorums.ConfigViews

/-! The laws of the configuration views on sets: `merge` is a union that keeps the order and the objects of
its left side, `intersect` and `except` split a configuration. The views look at the IDs only, so the address
of a node may stand for the object behind its handle. -/

namespace Quorums.Config.Configuration

variable {c other : Configuration}

theorem eq_of_nodes (h : c.nodes = other.nodes) : c = other := by
  cases c
  cases other
  exact congrArg mk h

theorem mem_nodeIds {n : Node} (h : n ∈ c.nodes) : n.id ∈ c.nodeIds := List.mem_map_of_mem h

theorem mem_of_mem_unseen {seen : List UInt32} {extra : List Node} {n : Node} (h : n ∈ unseen seen extra) :
    n ∈ extra := by
  induction extra generalizing seen with
  | nil => cases h
  | cons x extra ih =>
      rw [unseen] at h
      split at h
      · exact List.mem_cons_of_mem x (ih h)
      · exact (List.mem_cons.mp h).elim (fun heq => heq ▸ List.mem_cons_self) fun h => List.mem_cons_of_mem x (ih h)

/-- What a set contributes to a configuration: its nodes with a new ID. -/
theorem unseen_of_nodup (seen : List UInt32) {extra : List Node} (h : (extra.map Node.id).Nodup) :
    unseen seen extra = extra.filter fun n => n.id ∉ seen := by
  induction extra generalizing seen with
  | nil => rfl
  | cons x extra ih =>
      rw [List.map_cons, List.nodup_cons] at h
      rw [unseen, List.filter_cons]
      by_cases hx : x.id ∈ seen
      · rw [if_pos hx, if_neg (by simpa using hx)]
        exact ih seen h.2
      · rw [if_neg hx, if_pos (by simpa using hx), ih (x.id :: seen) h.2]
        congr 1
        refine List.filter_congr fun n hn => ?_
        -- no other node has the ID of `x`
        have hne : n.id ≠ x.id := fun heq => h.1 (heq ▸ List.mem_map_of_mem hn)
        simp [hne]

theorem nodes_merge (c : Configuration) (h : other.IsSet) :
    (c.merge other).nodes = c.nodes ++ other.nodes.filter fun n => n.id ∉ c.nodeIds := by
  rw [merge, withAdditionalNodes, unseen_of_nodup _ h]

theorem mem_nodeIds_merge (c : Configuration) (h : other.IsSet) (id : UInt32) :
    id ∈ (c.merge other).nodeIds ↔ id ∈ c.nodeIds ∨ id ∈ other.nodeIds := by
  rw [nodeIds, nodes_merge c h, List.map_append, List.mem_append]
  refine or_congr_right' fun hnot => ⟨fun hid => ?_, fun hid => ?_⟩
  · obtain ⟨n, hn, rfl⟩ := List.mem_map.mp hid
    exact mem_nodeIds (List.mem_of_mem_filter hn)
  · obtain ⟨n, hn, rfl⟩ := List.mem_map.mp hid
    exact List.mem_map_of_mem (List.mem_filter.mpr ⟨hn, decide_eq_true hnot⟩)

theorem merge_assoc {a b c : Configuration} (hb : b.IsSet) (hc : c.IsSet) :
    (a.merge b).merge c = a.merge (b.merge c) := by
  refine eq_of_nodes ?_
  rw [nodes_merge _ hc, nodes_merge a hb, nodes_merge a (hb.merge c), nodes_merge b hc, List.filter_append,
    List.append_assoc, List.filter_filter]
  congr 2
  refine List.filter_congr fun n _ => ?_
  simp only [mem_nodeIds_merge a hb, not_or, Bool.decide_and]

theorem merge_of_subset (h : ∀ n ∈ other.nodes, n.id ∈ c.nodeIds) (hset : other.IsSet) : c.merge other = c := by
  have hnone : (other.nodes.filter fun n => n.id ∉ c.nodeIds) = [] :=
    List.filter_eq_nil_iff.mpr fun n hn hnew => of_decide_eq_true hnew (h n hn)
  refine eq_of_nodes ?_
  rw [nodes_merge c hset, hnone, List.append_nil]

theorem empty_merge (h : c.IsSet) : merge ⟨[]⟩ c = c := by
  refine eq_of_nodes ?_
  rw [nodes_merge ⟨[]⟩ h, List.nil_append]
  exact List.filter_eq_self.mpr fun n _ => rfl

/-- Two sets have as many nodes in common on either side. -/
theorem size_intersect_comm (h : c.IsSet) (hother : other.IsSet) :
    (c.intersect other).size = (other.intersect c).size := by
  have hcard {a b : Configuration} (ha : a.IsSet) :
      (a.intersect b).size = (a.nodeIds.toFinset ∩ b.nodeIds.toFinset).card := by
    have hset := List.toFinset_card_of_nodup (ha.intersect b)
    rw [nodeIds, List.length_map] at hset
    rw [size, ← hset]
    congr 1
    ext id
    simp only [intersect, nodeIds, List.mem_toFinset, List.mem_map, List.mem_filter, Finset.mem_inter,
      decide_eq_true_eq]
    constructor
    · rintro ⟨n, ⟨hn, hid⟩, rfl⟩
      exact ⟨⟨n, hn, rfl⟩, hid⟩
    · rintro ⟨⟨n, hn, rfl⟩, hid⟩
      exact ⟨n, ⟨hn, hid⟩, rfl⟩
  rw [hcard h, hcard hother, Finset.inter_comm]

theorem size_merge_add_intersect (h : c.IsSet) (hother : other.IsSet) :
    (c.merge other).size + (c.intersect other).size = c.size + other.size := by
  have hsplit := List.length_eq_length_filter_add (l := other.nodes) fun n => n.id ∈ c.nodeIds
  have hnew : (other.nodes.filter fun n => n.id ∉ c.nodeIds) =
      other.nodes.filter fun n => !decide (n.id ∈ c.nodeIds) := by
    refine List.filter_congr fun n _ => ?_
    simp
  rw [size_intersect_comm h hother, size, nodes_merge c hother, List.length_append, hnew]
  simp only [size, intersect]
  omega

/-- `intersect` and `except` split the nodes, in their order. -/
structure Splits (c other : Configuration) : Prop where
  intersect_sublist : (c.intersect other).nodes.Sublist c.nodes
  except_sublist : (c.except other).nodes.Sublist c.nodes
  perm : ((c.intersect other).nodes ++ (c.except other).nodes).Perm c.nodes
  mem_intersect : ∀ n, n ∈ (c.intersect other).nodes ↔ n ∈ c.nodes ∧ n.id ∈ other.nodeIds

theorem splits (c other : Configuration) : c.Splits other where
  intersect_sublist := List.filter_sublist
  except_sublist := List.filter_sublist
  perm := by
    have hnew : (c.except other).nodes = c.nodes.filter fun n => !decide (n.id ∈ other.nodeIds) := by
      refine List.filter_congr fun n _ => ?_
      simp
    rw [hnew]
    exact List.filter_append_perm _ c.nodes
  mem_intersect n := by rw [intersect, List.mem_filter, decide_eq_true_eq]

theorem mem_except_merge_intersect (h : c.IsSet) (other : Configuration) (n : Node) :
    n ∈ ((c.except other).merge (c.intersect other)).nodes ↔ n ∈ c.nodes := by
  rw [nodes_merge _ (h.intersect other), List.mem_append, List.mem_filter, ← (c.splits other).perm.mem_iff,
    List.mem_append, or_comm]
  refine or_congr_left' fun hexcept => and_iff_left_of_imp fun hn => decide_eq_true fun hid => ?_
  obtain ⟨n', hn', heq⟩ := List.mem_map.mp hid
  -- no two nodes of a set have one ID
  have hsame := List.inj_on_of_nodup_map h (List.mem_of_mem_filter hn') (List.mem_of_mem_filter hn) heq
  exact hexcept (hsame ▸ hn')

/-- The laws of the views, for three configurations and a list of IDs. -/
structure SetAlgebra (a b c : Configuration) (ids : List UInt32) : Prop where
  nodes_merge : (a.merge b).nodes = a.nodes ++ b.nodes.filter fun n => n.id ∉ a.nodeIds
  merge_assoc : (a.merge b).merge c = a.merge (b.merge c)
  merge_self : a.merge a = a
  merge_empty : a.merge ⟨[]⟩ = a
  empty_merge : merge ⟨[]⟩ a = a
  splits : a.Splits b
  except_eq : a.except b = a.withoutNodes b.nodeIds
  except_merge_intersect : ∀ n, n ∈ ((a.except b).merge (a.intersect b)).nodes ↔ n ∈ a.nodes
  size_merge : (a.merge b).size + (a.intersect b).size = a.size + b.size
  sets : (a.withoutNodes ids).IsSet ∧ (a.subConfig ids).IsSet ∧ (a.withAdditionalNodes b.nodes).IsSet ∧
    (a.merge b).IsSet ∧ (a.intersect b).IsSet ∧ (a.except b).IsSet

/-- On sets all laws hold, but for `sub_config`: it builds a set exactly if no ID of the configuration is
asked for twice. -/
theorem setAlgebra_iff {a b c : Configuration} (ha : a.IsSet) (hb : b.IsSet) (hc : c.IsSet) (ids : List UInt32) :
    SetAlgebra a b c ids ↔ (ids.filter fun id => id ∈ a.nodeIds).Nodup := by
  rw [← isSet_subConfig_iff]
  refine ⟨fun h => h.sets.2.1, fun hsub => ?_⟩
  exact {
    nodes_merge := nodes_merge a hb
    merge_assoc := merge_assoc hb hc
    merge_self := merge_of_subset (fun n hn => mem_nodeIds hn) ha
    merge_empty := merge_of_subset (fun n hn => absurd hn List.not_mem_nil) List.nodup_nil
    empty_merge := empty_merge ha
    splits := splits a b
    except_eq := rfl
    except_merge_intersect := mem_except_merge_intersect ha b
    size_merge := size_merge_add_intersect ha hb
    sets := ⟨ha.withoutNodes ids, hsub, ha.withAdditionalNodes b.nodes, ha.merge b, ha.intersect b, ha.except b⟩ }

/-- Two configurations that have node 2 in common, with different objects behind it. -/
theorem setAlgebra_iff_overlap :
    SetAlgebra ⟨[⟨1, "a"⟩, ⟨2, "b"⟩]⟩ ⟨[⟨2, "c"⟩, ⟨3, "d"⟩]⟩ ⟨[⟨3, "e"⟩, ⟨1, "f"⟩]⟩ [2, 1, 4, 4] :=
  (setAlgebra_iff (by decide) (by decide) (by decide) _).mpr (by decide)

/-- `sub_config(&[1, 1])`: the one node stands twice. -/
theorem not_setAlgebra_repeated : ¬SetAlgebra ⟨[⟨1, "a"⟩]⟩ ⟨[⟨2, "b"⟩]⟩ ⟨[]⟩ [1, 1] :=
  fun h => absurd h.sets.2.1 (by decide)

end Quorums.Config.Configuration
