import Quorums.BaseGraph
import Quorums.BaseList

/-! Schedules of a graph whose nodes have ranks: the components one after the other, targets of edges first,
and each component by ascending rank. A schedule need not have come to all nodes. Two schedules of one graph
agree on nodes that are connected in pairs and not tied: one has listed those that the other has listed so
far, in the same order, and perhaps more. -/

namespace ListOrder

variable {α : Type*} {R : α → α → Prop}

/-- Two sorted lists, each closed below in the other and with nothing on both sides that the other lacks. -/
theorem prefix_or_prefix {l l' : List α} (hl : l.Pairwise R) (hl' : l'.Pairwise R) (hasymm : ∀ a b, R a b → ¬R b a)
    (hboth : ∀ a ∈ l, ∀ b ∈ l', a ∈ l' ∨ b ∈ l) (hdown : ∀ a ∈ l, ∀ b ∈ l, b ∈ l' → R a b → a ∈ l')
    (hdown' : ∀ a ∈ l', ∀ b ∈ l', b ∈ l → R a b → a ∈ l) : l <+: l' ∨ l' <+: l := by
  induction l generalizing l' with
  | nil => exact Or.inl List.nil_prefix
  | cons x l ih =>
      cases l' with
      | nil => exact Or.inr List.nil_prefix
      | cons y l' =>
          obtain ⟨hx, hrest⟩ := List.pairwise_cons.mp hl
          obtain ⟨hy, hrest'⟩ := List.pairwise_cons.mp hl'
          have hirrefl (a : α) : ¬R a a := fun h => hasymm a a h h
          -- the first elements are the same
          have hxy : x = y := by
            by_contra hne
            have hmem : x ∈ y :: l' → y ∈ x :: l → False := by
              intro hxl hyl
              exact hasymm x y (hx y ((List.mem_cons.mp hyl).resolve_left (Ne.symm hne)))
                (hy x ((List.mem_cons.mp hxl).resolve_left hne))
            rcases hboth x List.mem_cons_self y List.mem_cons_self with hxl | hyl
            · refine hmem hxl (hdown' y List.mem_cons_self x hxl List.mem_cons_self ?_)
              exact hy x ((List.mem_cons.mp hxl).resolve_left hne)
            · refine hmem (hdown x List.mem_cons_self y hyl List.mem_cons_self ?_) hyl
              exact hx y ((List.mem_cons.mp hyl).resolve_left (Ne.symm hne))
          subst hxy
          have hne {a : α} (ha : a ∈ l) : a ≠ x := fun heq => hirrefl x (heq ▸ hx a ha)
          have hne' {a : α} (ha : a ∈ l') : a ≠ x := fun heq => hirrefl x (heq ▸ hy a ha)
          have htails : l <+: l' ∨ l' <+: l := by
            refine ih hrest hrest' (fun a ha b hb => ?_) (fun a ha b hb hbl hab => ?_) fun a ha b hb hbl hab => ?_
            · refine (hboth a (List.mem_cons_of_mem x ha) b (List.mem_cons_of_mem x hb)).imp ?_ ?_
              · exact fun h => (List.mem_cons.mp h).resolve_left (hne ha)
              · exact fun h => (List.mem_cons.mp h).resolve_left (hne' hb)
            · have hmem := hdown a (List.mem_cons_of_mem x ha) b (List.mem_cons_of_mem x hb)
                (List.mem_cons_of_mem x hbl) hab
              exact (List.mem_cons.mp hmem).resolve_left (hne ha)
            · have hmem := hdown' a (List.mem_cons_of_mem x ha) b (List.mem_cons_of_mem x hb)
                (List.mem_cons_of_mem x hbl) hab
              exact (List.mem_cons.mp hmem).resolve_left (hne' ha)
          exact htails.imp (fun h => (List.prefix_cons_inj x).mpr h) fun h => (List.prefix_cons_inj x).mpr h

end ListOrder

namespace Components

open Relation

variable {α : Type*}

/-- The blocks are components of the graph, and what they depend on is in earlier ones. -/
structure Schedule (edge : α → α → Prop) (rank : α → Int) (blocks : List (List α)) : Prop where
  nodup : blocks.flatten.Nodup
  connected : ∀ block ∈ blocks, ∀ a ∈ block, ∀ b, b ∈ block ↔ Mutual edge a b
  closed : ∀ pre block post, blocks = pre ++ block :: post → ∀ a ∈ block, ∀ b, edge a b →
    b ∈ pre.flatten ∨ b ∈ block
  sorted : ∀ block ∈ blocks, block.Pairwise fun a b => rank a ≤ rank b

/-- The graph fixes that `a` comes before `b`: `b` depends on it and not the other way round, or the two are
on a cycle and `a` has the smaller rank. -/
def Precedes (edge : α → α → Prop) (rank : α → Int) (a b : α) : Prop :=
  ReflTransGen edge b a ∧ (¬ReflTransGen edge a b ∨ rank a < rank b)

section Precedes

variable {edge : α → α → Prop} {rank : α → Int} {a b : α}

theorem Precedes.asymm (h : Precedes edge rank a b) : ¬Precedes edge rank b a := by
  rintro ⟨hab, hnot | hlt⟩
  · exact hnot h.1
  · rcases h.2 with hnot | hlt'
    · exact hnot hab
    · omega

/-- Connected nodes are ordered, or tied. -/
theorem precedes_or_tied (h : ReflTransGen edge a b ∨ ReflTransGen edge b a) :
    Precedes edge rank a b ∨ Precedes edge rank b a ∨ Mutual edge a b ∧ rank a = rank b := by
  by_cases hab : ReflTransGen edge a b <;> by_cases hba : ReflTransGen edge b a
  · rcases lt_trichotomy (rank a) (rank b) with hlt | heq | hlt
    · exact Or.inl ⟨hba, Or.inr hlt⟩
    · exact Or.inr (Or.inr ⟨⟨hab, hba⟩, heq⟩)
    · exact Or.inr (Or.inl ⟨hab, Or.inr hlt⟩)
  · exact Or.inr (Or.inl ⟨hab, Or.inl hba⟩)
  · exact Or.inl ⟨hba, Or.inl hab⟩
  · exact absurd h (not_or.mpr ⟨hab, hba⟩)

end Precedes

namespace Schedule

variable {edge : α → α → Prop} {rank : α → Int} {blocks : List (List α)} {a b : α}

theorem nil (edge : α → α → Prop) (rank : α → Int) : Schedule edge rank [] where
  nodup := List.nodup_nil
  connected block hblock := absurd hblock List.not_mem_nil
  closed pre block post h := by simp at h
  sorted block hblock := absurd hblock List.not_mem_nil

theorem sccOrder (h : Schedule edge rank blocks) : SccOrder blocks.flatten edge blocks where
  perm := List.Perm.refl _
  connected block hblock a ha b _ := h.connected block hblock a ha b
  closed pre block post hsplit a ha b _ hab := h.closed pre block post hsplit a ha b hab

theorem mem_of_edge (h : Schedule edge rank blocks) (ha : a ∈ blocks.flatten) (hab : edge a b) :
    b ∈ blocks.flatten := by
  obtain ⟨block, hblock, hmem⟩ := List.mem_flatten.mp ha
  obtain ⟨pre, post, hsplit⟩ := List.append_of_mem hblock
  rw [hsplit, List.flatten_append, List.flatten_cons, List.mem_append, List.mem_append]
  exact (h.closed pre block post hsplit a hmem b hab).imp_right Or.inl

/-- What is scheduled does not depend on what is not. -/
theorem mem_of_reach (h : Schedule edge rank blocks) (ha : a ∈ blocks.flatten) (hab : ReflTransGen edge a b) :
    b ∈ blocks.flatten := by
  induction hab with
  | refl => exact ha
  | tail _ hlast ih => exact h.mem_of_edge ih hlast

/-- The schedule keeps the order that the graph fixes. -/
theorem pair_sublist (h : Schedule edge rank blocks) (hb : b ∈ blocks.flatten) (hab : Precedes edge rank a b) :
    [a, b].Sublist blocks.flatten := by
  obtain ⟨hba, hafter⟩ := hab
  have ha : a ∈ blocks.flatten := h.mem_of_reach hb hba
  by_cases hback : ReflTransGen edge a b
  · -- in one block, by ascending rank
    have hlt : rank a < rank b := hafter.resolve_left fun hnot => hnot hback
    have hne : a ≠ b := by
      rintro rfl
      exact lt_irrefl _ hlt
    obtain ⟨block, hblock, hmem⟩ := List.mem_flatten.mp ha
    have hbblock : b ∈ block := (h.connected block hblock a hmem b).mpr ⟨hback, hba⟩
    rcases ListOrder.pair_sublist_or hmem hbblock hne with hpair | hpair
    · exact hpair.trans (List.sublist_flatten_of_mem hblock)
    · have hle := List.pairwise_pair.mp ((h.sorted block hblock).sublist hpair)
      omega
  · exact h.sccOrder.pair_sublist_of_reach (fun x hx y hxy => h.mem_of_edge hx hxy) hb ha hba hback

/-- The schedule goes on with the components of more nodes, whose edges lead to each other and to what was
scheduled. -/
theorem append (h : Schedule edge rank blocks) {nodes : List α} {edge' : α → α → Prop} {groups : List (List α)}
    (hscc : SccOrder nodes edge' groups) (hnodup : nodes.Nodup) (hnew : ∀ a ∈ nodes, a ∉ blocks.flatten)
    (hedge' : ∀ a b, edge' a b → edge a b)
    (hedge : ∀ a ∈ nodes, ∀ b, edge a b → b ∈ blocks.flatten ∨ b ∈ nodes ∧ edge' a b)
    (hsorted : ∀ group ∈ groups, group.Pairwise fun a b => rank a ≤ rank b) :
    Schedule edge rank (blocks ++ groups) := by
  have hmono {a b : α} (hab : ReflTransGen edge' a b) : ReflTransGen edge a b :=
    ReflTransGen.mono hedge' _ _ hab
  -- a cycle through a new node is new as a whole
  have hcycle {a b : α} (ha : a ∈ nodes) (hab : ReflTransGen edge a b) (hba : ReflTransGen edge b a) :
      b ∈ nodes ∧ ReflTransGen edge' a b := by
    induction hab with
    | refl => exact ⟨ha, .refl⟩
    | @tail x b _ hxb ih =>
        obtain ⟨hx, hax⟩ := ih (.head hxb hba)
        rcases hedge x hx b hxb with hb | ⟨hb, hstep⟩
        · exact absurd (h.mem_of_reach hb hba) (hnew a ha)
        · exact ⟨hb, hax.tail hstep⟩
  have hconnected : ∀ group ∈ groups, ∀ a ∈ group, ∀ b, b ∈ group ↔ Mutual edge a b := by
    intro group hgroup a ha b
    have hanode := hscc.mem_nodes hgroup ha
    constructor
    · intro hb
      have hmutual := (hscc.connected group hgroup a ha b (hscc.mem_nodes hgroup hb)).mp hb
      exact ⟨hmono hmutual.1, hmono hmutual.2⟩
    · rintro ⟨hab, hba⟩
      obtain ⟨hb, hab'⟩ := hcycle hanode hab hba
      exact (hscc.connected group hgroup a ha b hb).mpr ⟨hab', (hcycle hb hba hab).2⟩
  refine ⟨?_, fun block hblock => ?_, fun pre block post hsplit a ha b hab => ?_, fun block hblock => ?_⟩
  · rw [List.flatten_append, List.nodup_append]
    refine ⟨h.nodup, hscc.perm.nodup_iff.mpr hnodup, ?_⟩
    rintro a ha b hb rfl
    exact hnew a (hscc.perm.subset hb) ha
  · exact (List.mem_append.mp hblock).elim (h.connected block) (hconnected block)
  · rcases List.append_eq_append_iff.mp hsplit with ⟨mid, rfl, hrest⟩ | ⟨mid, hblocks, hrest⟩
    · -- a new block
      have hanode : a ∈ nodes := hscc.mem_nodes (by rw [hrest]; simp) ha
      rw [List.flatten_append, List.mem_append]
      rcases hedge a hanode b hab with hb | ⟨hb, hstep⟩
      · exact Or.inl (Or.inl hb)
      · exact (hscc.closed mid block post hrest a ha b hb hstep).imp_left Or.inr
    · cases mid with
      | nil =>
          rw [List.append_nil] at hblocks
          rw [List.nil_append] at hrest
          subst hblocks
          have hanode : a ∈ nodes := hscc.mem_nodes (by rw [← hrest]; simp) ha
          rcases hedge a hanode b hab with hb | ⟨hb, hstep⟩
          · exact Or.inl hb
          · rcases hscc.closed [] block post hrest.symm a ha b hb hstep with hnil | hmem
            · exact absurd hnil List.not_mem_nil
            · exact Or.inr hmem
      | cons x mid =>
          obtain ⟨rfl, -⟩ := List.cons.inj hrest
          exact h.closed pre block mid hblocks a ha b hab
  · exact (List.mem_append.mp hblock).elim (h.sorted block) (hsorted block)

/-- The nodes of a kind that is connected in pairs and free of ties are scheduled in the order that the graph
fixes. -/
theorem pairwise_filter (h : Schedule edge rank blocks) {p : α → Bool}
    (hordered : ∀ a ∈ blocks.flatten, ∀ b ∈ blocks.flatten, p a = true → p b = true → a ≠ b →
      Precedes edge rank a b ∨ Precedes edge rank b a) :
    (blocks.flatten.filter p).Pairwise (Precedes edge rank) := by
  refine List.pairwise_iff_forall_sublist.mpr fun {a b} hpair => ?_
  have hsub : [a, b].Sublist blocks.flatten := hpair.trans List.filter_sublist
  have hmem {x : α} (hx : x ∈ [a, b]) : x ∈ blocks.flatten ∧ p x = true := List.mem_filter.mp (hpair.subset hx)
  obtain ⟨ha, hpa⟩ := hmem (x := a) (by simp)
  obtain ⟨hb, hpb⟩ := hmem (x := b) (by simp)
  have hne : a ≠ b := by
    rintro rfl
    have hnodup := h.nodup.sublist hsub
    simp at hnodup
  rcases hordered a ha b hb hpa hpb hne with hab | hba
  · exact hab
  · -- then `b` would come before `a` as well
    have hback := h.pair_sublist ha hba
    obtain ⟨pre, post, hsplit⟩ := List.append_of_mem ha
    have hnodup := h.nodup
    rw [hsplit] at hsub hback hnodup
    have hpost : b ∈ post := ListOrder.mem_of_pair_sublist hnodup hsub
    obtain ⟨mid, last, hpostsplit⟩ := List.append_of_mem hpost
    rw [hpostsplit, ← List.cons_append, ← List.append_assoc] at hback hnodup
    have hlast : a ∈ last := ListOrder.mem_of_pair_sublist hnodup hback
    have hagain : a ∈ pre ++ a :: mid := by simp
    exact absurd rfl ((List.nodup_append.mp hnodup).2.2 a hagain a (List.mem_cons_of_mem b hlast))

/-- Two schedules of one graph list such nodes in the same order, as far as both have come. -/
theorem prefix_or_prefix (h : Schedule edge rank blocks) {blocks' : List (List α)} (h' : Schedule edge rank blocks')
    {p : α → Bool}
    (hordered : ∀ a b, (a ∈ blocks.flatten ∨ a ∈ blocks'.flatten) → (b ∈ blocks.flatten ∨ b ∈ blocks'.flatten) →
      p a = true → p b = true → a ≠ b → Precedes edge rank a b ∨ Precedes edge rank b a) :
    blocks.flatten.filter p <+: blocks'.flatten.filter p ∨ blocks'.flatten.filter p <+: blocks.flatten.filter p := by
  have hdown {l l' : List (List α)} (hl' : Schedule edge rank l') : ∀ a ∈ l.flatten.filter p,
      ∀ b ∈ l.flatten.filter p, b ∈ l'.flatten.filter p → Precedes edge rank a b → a ∈ l'.flatten.filter p := by
    intro a ha b _ hb hab
    exact List.mem_filter.mpr ⟨hl'.mem_of_reach (List.mem_filter.mp hb).1 hab.1, (List.mem_filter.mp ha).2⟩
  refine ListOrder.prefix_or_prefix ?_ ?_ (fun a b => Precedes.asymm) (fun a ha b hb => ?_) (hdown h') (hdown h)
  · exact h.pairwise_filter fun a ha b hb => hordered a b (Or.inl ha) (Or.inl hb)
  · exact h'.pairwise_filter fun a ha b hb => hordered a b (Or.inr ha) (Or.inr hb)
  · obtain ⟨ha, hpa⟩ := List.mem_filter.mp ha
    obtain ⟨hb, hpb⟩ := List.mem_filter.mp hb
    by_cases hne : a = b
    · subst hne
      exact Or.inl (List.mem_filter.mpr ⟨hb, hpb⟩)
    · rcases hordered a b (Or.inl ha) (Or.inr hb) hpa hpb hne with hab | hba
      · exact Or.inl (List.mem_filter.mpr ⟨h'.mem_of_reach hb hab.1, hpa⟩)
      · exact Or.inr (List.mem_filter.mpr ⟨h.mem_of_reach ha hba.1, hpb⟩)

end Schedule

end Components
