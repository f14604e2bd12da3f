import Mathlib.Data.Finset.Max
import Mathlib.Data.List.Sort
import Mathlib.Logic.Relation

/-! Strongly connected components in reverse topological order, as a specification: what an algorithm
that lists the components of a graph with the targets of edges first gives. The order inside a component
is left open. Such a list exists for every finite graph. -/

namespace Components

open Relation

variable {α β : Type*}

/-- Each is reachable from the other. -/
def Mutual (edge : α → α → Prop) (a b : α) : Prop := ReflTransGen edge a b ∧ ReflTransGen edge b a

theorem Mutual.refl (edge : α → α → Prop) (a : α) : Mutual edge a a := ⟨.refl, .refl⟩

theorem Mutual.symm {edge : α → α → Prop} {a b : α} (h : Mutual edge a b) : Mutual edge b a := ⟨h.2, h.1⟩

theorem Mutual.trans {edge : α → α → Prop} {a b c : α} (hab : Mutual edge a b) (hbc : Mutual edge b c) :
    Mutual edge a c := ⟨hab.1.trans hbc.1, hbc.2.trans hab.2⟩

/-- The lists in `sccs` are the strongly connected components of the graph on `nodes`; an edge leads into
its own component or an earlier one. -/
structure SccOrder (nodes : List α) (edge : α → α → Prop) (sccs : List (List α)) : Prop where
  perm : sccs.flatten.Perm nodes
  connected : ∀ scc ∈ sccs, ∀ a ∈ scc, ∀ b ∈ nodes, b ∈ scc ↔ Mutual edge a b
  closed : ∀ pre scc post, sccs = pre ++ scc :: post → ∀ a ∈ scc, ∀ b ∈ nodes, edge a b →
    b ∈ pre.flatten ∨ b ∈ scc

namespace SccOrder

variable {nodes : List α} {edge : α → α → Prop} {sccs : List (List α)}

theorem mem_nodes (h : SccOrder nodes edge sccs) {scc : List α} (hscc : scc ∈ sccs) {a : α}
    (ha : a ∈ scc) : a ∈ nodes :=
  h.perm.subset (List.mem_flatten.mpr ⟨scc, hscc, ha⟩)

/-- What a node reaches is in its component or an earlier one. -/
theorem mem_of_reach (h : SccOrder nodes edge sccs) (hin : ∀ a ∈ nodes, ∀ b, edge a b → b ∈ nodes)
    {a b : α} (hab : ReflTransGen edge a b) {pre : List (List α)} {scc : List α} {post : List (List α)}
    (hsplit : sccs = pre ++ scc :: post) (ha : a ∈ scc) : b ∈ pre.flatten ∨ b ∈ scc := by
  induction hab using ReflTransGen.head_induction_on generalizing pre scc post with
  | refl => exact Or.inr ha
  | @head a c hac _ ih =>
      have hanode : a ∈ nodes := h.mem_nodes (by rw [hsplit]; simp) ha
      rcases h.closed pre scc post hsplit a ha c (hin a hanode c hac) hac with hpre | hscc
      · -- the path goes on in an earlier component
        obtain ⟨scc', hmem, hc⟩ := List.mem_flatten.mp hpre
        obtain ⟨pre', post', rfl⟩ := List.append_of_mem hmem
        refine Or.inl ?_
        rw [List.flatten_append, List.flatten_cons]
        have hsplit' : sccs = pre' ++ scc' :: (post' ++ scc :: post) := by simp [hsplit]
        rcases ih hsplit' hc with hb | hb
        · exact List.mem_append_left _ hb
        · exact List.mem_append_right _ (List.mem_append_left _ hb)
      · exact ih hsplit hscc

/-- A node comes after what it reaches and what does not reach it. -/
theorem pair_sublist_of_reach (h : SccOrder nodes edge sccs)
    (hin : ∀ a ∈ nodes, ∀ b, edge a b → b ∈ nodes) {a b : α} (ha : a ∈ nodes) (hb : b ∈ nodes)
    (hab : ReflTransGen edge a b) (hba : ¬ReflTransGen edge b a) : [b, a].Sublist sccs.flatten := by
  obtain ⟨scc, hmem, hascc⟩ := List.mem_flatten.mp (h.perm.mem_iff.mpr ha)
  obtain ⟨pre, post, hsplit⟩ := List.append_of_mem hmem
  rcases h.mem_of_reach hin hab hsplit hascc with hpre | hscc
  · rw [hsplit, List.flatten_append, List.flatten_cons]
    exact (List.singleton_sublist.mpr hpre).append
      (List.singleton_sublist.mpr (List.mem_append_left _ hascc))
  · exact absurd ((h.connected scc hmem a hascc b hb).mp hscc).2 hba

/-- The components may be rearranged inside. -/
theorem map_perm (h : SccOrder nodes edge sccs) {sort : List α → List α}
    (hsort : ∀ scc, (sort scc).Perm scc) : SccOrder nodes edge (sccs.map sort) where
  perm := by
    refine List.Perm.trans ?_ h.perm
    have hflatten (l : List (List α)) : (l.map sort).flatten.Perm l.flatten := by
      induction l with
      | nil => exact List.Perm.refl _
      | cons scc l ih => exact (hsort scc).append ih
    exact hflatten sccs
  connected := by
    intro scc' hscc' a ha b hb
    obtain ⟨scc, hscc, rfl⟩ := List.mem_map.mp hscc'
    rw [(hsort scc).mem_iff]
    exact h.connected scc hscc a ((hsort scc).mem_iff.mp ha) b hb
  closed := by
    intro pre' scc' post' hsplit a ha b hb hedge
    obtain ⟨pre, rest, rfl, rfl, hrest⟩ := List.map_eq_append_iff.mp hsplit
    obtain ⟨scc, post, rfl, rfl, rfl⟩ := List.map_eq_cons_iff.mp hrest
    rcases h.closed pre scc post rfl a ((hsort scc).mem_iff.mp ha) b hb hedge with hpre | hscc
    · obtain ⟨c, hc, hbc⟩ := List.mem_flatten.mp hpre
      exact Or.inl (List.mem_flatten.mpr ⟨_, List.mem_map_of_mem hc, (hsort c).mem_iff.mpr hbc⟩)
    · exact Or.inr ((hsort scc).mem_iff.mpr hscc)

end SccOrder

/-- Paths between images are images of paths, if every edge between images is the image of an edge. -/
theorem reflTransGen_image {nodes : List α} {edge : α → α → Prop} {edge' : β → β → Prop} {f : α → β}
    (hedge : ∀ x y, edge' x y ↔ ∃ a ∈ nodes, ∃ b ∈ nodes, f a = x ∧ f b = y ∧ edge a b)
    (hinj : ∀ a ∈ nodes, ∀ b ∈ nodes, f a = f b → a = b) {a b : α} (ha : a ∈ nodes) (hb : b ∈ nodes)
    (h : ReflTransGen edge' (f a) (f b)) : ReflTransGen edge a b := by
  generalize hy : f b = y at h
  induction h generalizing b with
  | refl => rw [hinj b hb a ha hy]
  | @tail x y _ hxy ih =>
      obtain ⟨c, hc, d, hd, rfl, hdy, hcd⟩ := (hedge x y).mp hxy
      rw [hinj b hb d hd (hy.trans hdy.symm)]
      exact (ih hc rfl).tail hcd

/-- The components of a graph that is given by the places of its nodes. -/
theorem SccOrder.image {nodes : List α} {edge : α → α → Prop} {sccs : List (List α)}
    (h : SccOrder nodes edge sccs) {edge' : β → β → Prop} {f : α → β}
    (hmem : ∀ a b, edge a b → a ∈ nodes ∧ b ∈ nodes)
    (hedge : ∀ x y, edge' x y ↔ ∃ a ∈ nodes, ∃ b ∈ nodes, f a = x ∧ f b = y ∧ edge a b)
    (hinj : ∀ a ∈ nodes, ∀ b ∈ nodes, f a = f b → a = b) :
    SccOrder (nodes.map f) edge' (sccs.map (·.map f)) where
  perm := by
    rw [← List.map_flatten]
    exact h.perm.map f
  connected := by
    intro scc' hscc' x hx y hy
    obtain ⟨scc, hscc, rfl⟩ := List.mem_map.mp hscc'
    obtain ⟨a, ha, rfl⟩ := List.mem_map.mp hx
    obtain ⟨b, hb, rfl⟩ := List.mem_map.mp hy
    have hanode := h.mem_nodes hscc ha
    have hpath {c d : α} (hcd : ReflTransGen edge c d) : ReflTransGen edge' (f c) (f d) :=
      hcd.lift f fun u v huv => (hedge _ _).mpr ⟨u, (hmem u v huv).1, v, (hmem u v huv).2, rfl, rfl, huv⟩
    have hmutual : Mutual edge' (f a) (f b) ↔ Mutual edge a b :=
      ⟨fun hm => ⟨reflTransGen_image hedge hinj hanode hb hm.1, reflTransGen_image hedge hinj hb hanode hm.2⟩,
        fun hm => ⟨hpath hm.1, hpath hm.2⟩⟩
    rw [hmutual, ← h.connected scc hscc a ha b hb]
    constructor
    · intro hfb
      obtain ⟨c, hc, hcb⟩ := List.mem_map.mp hfb
      rwa [← hinj c (h.mem_nodes hscc hc) b hb hcb]
    · exact fun hbscc => List.mem_map_of_mem hbscc
  closed := by
    intro pre' scc' post' hsplit x hx y hy hxy
    obtain ⟨pre, rest, rfl, rfl, hrest⟩ := List.map_eq_append_iff.mp hsplit
    obtain ⟨scc, post, rfl, rfl, rfl⟩ := List.map_eq_cons_iff.mp hrest
    obtain ⟨a, ha, rfl⟩ := List.mem_map.mp hx
    obtain ⟨c, hc, d, hd, hca, rfl, hcd⟩ := (hedge _ _).mp hxy
    rw [hinj c hc a (h.mem_nodes (by simp) ha) hca] at hcd
    rcases h.closed pre scc post rfl a ha d hd hcd with hpre | hscc
    · refine Or.inl ?_
      rw [← List.map_flatten]
      exact List.mem_map_of_mem hpre
    · exact Or.inr (List.mem_map_of_mem hscc)

/-- Some node reaches only nodes that reach it. -/
theorem exists_sink [DecidableEq α] {nodes : List α} (hne : nodes ≠ []) (edge : α → α → Prop) :
    ∃ a ∈ nodes, ∀ b ∈ nodes, ReflTransGen edge a b → ReflTransGen edge b a := by
  classical
  -- a node that reaches as few nodes as possible
  let reached : α → Finset α := fun a => nodes.toFinset.filter (ReflTransGen edge a)
  obtain ⟨a, ha, hmin⟩ := Finset.exists_min_image nodes.toFinset (fun a => (reached a).card)
    (List.toFinset_nonempty_iff _ |>.mpr hne)
  refine ⟨a, List.mem_toFinset.mp ha, fun b hb hab => ?_⟩
  have hsub : reached b ⊆ reached a := by
    intro c hc
    obtain ⟨hnode, hbc⟩ := Finset.mem_filter.mp hc
    exact Finset.mem_filter.mpr ⟨hnode, hab.trans hbc⟩
  have heq := Finset.eq_of_subset_of_card_le hsub (hmin b (List.mem_toFinset.mpr hb))
  have hself : a ∈ reached a := Finset.mem_filter.mpr ⟨ha, .refl⟩
  rw [← heq] at hself
  exact (Finset.mem_filter.mp hself).2

/-- The components of a graph can be listed, each in the order of the nodes. -/
theorem exists_sccOrder [DecidableEq α] (edge : α → α → Prop) (nodes : List α) :
    ∃ sccs, SccOrder nodes edge sccs ∧ ∀ scc ∈ sccs, scc.Sublist nodes := by
  classical
  induction hlen : nodes.length using Nat.strong_induction_on generalizing nodes with
  | _ len ih =>
      by_cases hne : nodes = []
      · subst hne
        exact ⟨[], ⟨List.Perm.refl _, nofun, by simp⟩, nofun⟩
      · obtain ⟨a, ha, hsink⟩ := exists_sink hne edge
        -- the component of a sink comes first, the others follow
        let first := nodes.filter fun b => Mutual edge a b
        let rest := nodes.filter fun b => ¬Mutual edge a b
        have hfirst {b : α} : b ∈ first ↔ b ∈ nodes ∧ Mutual edge a b := by simp [first]
        have hrest {b : α} : b ∈ rest ↔ b ∈ nodes ∧ ¬Mutual edge a b := by simp [rest]
        have hshort : rest.length < len := by
          rw [← hlen]
          refine List.length_filter_lt_length_iff_exists.mpr ⟨a, ha, ?_⟩
          simpa using Mutual.refl edge a
        obtain ⟨sccs, hsccs, hsub⟩ := ih rest.length hshort rest rfl
        have hrestsub : rest.Sublist nodes := List.filter_sublist
        refine ⟨first :: sccs, ⟨?_, ?_, ?_⟩, ?_⟩
        · rw [List.flatten_cons]
          have hsplit := List.filter_append_perm (fun b => decide (Mutual edge a b)) nodes
          refine List.Perm.trans (hsccs.perm.append_left first) ?_
          simpa [first, rest] using hsplit
        · intro scc hscc b hb c hc
          rcases List.mem_cons.mp hscc with rfl | hscc
          · rw [hfirst]
            have hab := (hfirst.mp hb).2
            exact ⟨fun h => hab.symm.trans h.2, fun h => ⟨hc, hab.trans h⟩⟩
          · have hbrest := hrest.mp (hsccs.mem_nodes hscc hb)
            by_cases hac : Mutual edge a c
            · -- a node of the first component is in no other one
              refine iff_of_false (fun h => ?_) (fun h => hbrest.2 (hac.trans h.symm))
              exact (hrest.mp (hsccs.mem_nodes hscc h)).2 hac
            · exact hsccs.connected scc hscc b hb c (hrest.mpr ⟨hc, hac⟩)
        · intro pre scc post hsplit b hb c hc hbc
          rcases List.cons_eq_append_iff.mp hsplit with ⟨rfl, heq⟩ | ⟨pre', rfl, heq⟩
          · obtain ⟨rfl, rfl⟩ := List.cons.inj heq
            have hab := (hfirst.mp hb).2
            have hac : ReflTransGen edge a c := hab.1.tail hbc
            exact Or.inr (hfirst.mpr ⟨hc, hac, hsink c hc hac⟩)
          · by_cases hac : Mutual edge a c
            · refine Or.inl ?_
              rw [List.flatten_cons]
              exact List.mem_append_left _ (hfirst.mpr ⟨hc, hac⟩)
            · rcases hsccs.closed pre' scc post heq b hb c (hrest.mpr ⟨hc, hac⟩) hbc with hpre | hscc
              · refine Or.inl ?_
                rw [List.flatten_cons]
                exact List.mem_append_right _ hpre
              · exact Or.inr hscc
        · intro scc hscc
          rcases List.mem_cons.mp hscc with rfl | hscc
          · exact List.filter_sublist
          · exact (hsub scc hscc).trans hrestsub

/-- One way to list the components. -/
noncomputable def sccOrder [DecidableEq α] (nodes : List α) (edge : α → α → Prop) : List (List α) :=
  (exists_sccOrder edge nodes).choose

theorem sccOrder_spec [DecidableEq α] (nodes : List α) (edge : α → α → Prop) :
    SccOrder nodes edge (sccOrder nodes edge) := (exists_sccOrder edge nodes).choose_spec.1

theorem sublist_of_mem_sccOrder [DecidableEq α] {nodes : List α} {edge : α → α → Prop} {scc : List α}
    (h : scc ∈ sccOrder nodes edge) : scc.Sublist nodes := (exists_sccOrder edge nodes).choose_spec.2 scc h

end Components
