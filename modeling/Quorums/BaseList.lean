import Mathlib.Algebra.Order.Ring.Int
import Mathlib.Data.List.Basic

/-! Lists that are updated in place at an index or grow at the end: what the updated list holds, and
what of it an update leaves alone. -/

namespace ListUpdate

variable {α β : Type*} {l : List α} {i j : Nat} {x y u : α}

theorem getElem?_set_cases (hj : (l.set i y)[j]? = some u) :
    (j = i ∧ u = y) ∨ (j ≠ i ∧ l[j]? = some u) := by
  rw [List.getElem?_set] at hj
  by_cases hij : i = j
  · rw [if_pos hij] at hj
    split at hj
    · exact Or.inl ⟨hij.symm, (Option.some.inj hj).symm⟩
    · cases hj
  · rw [if_neg hij] at hj
    exact Or.inr ⟨fun h => hij h.symm, hj⟩

theorem getElem?_set_of_some (hi : l[i]? = some x) : (l.set i y)[i]? = some y := by
  rw [List.getElem?_set, if_pos rfl, if_pos (List.getElem?_eq_some_iff.mp hi).1]

/-- An update that leaves a projection of the element alone leaves it alone at every place. -/
theorem exists_getElem?_of_set {f : α → β} (hi : l[i]? = some x) (hf : f y = f x)
    (hj : (l.set i y)[j]? = some u) : ∃ z, l[j]? = some z ∧ f u = f z := by
  rcases getElem?_set_cases hj with ⟨rfl, rfl⟩ | ⟨-, hold⟩
  · exact ⟨x, hi, hf⟩
  · exact ⟨u, hold, rfl⟩

theorem getElem?_append_cases (hj : (l ++ [x])[j]? = some u) :
    l[j]? = some u ∨ (j = l.length ∧ u = x) := by
  rcases Nat.lt_or_ge j l.length with hlt | hge
  · rw [List.getElem?_append_left hlt] at hj
    exact Or.inl hj
  · rw [List.getElem?_append_right hge, List.getElem?_singleton] at hj
    split at hj
    · exact Or.inr ⟨by omega, (Option.some.inj hj).symm⟩
    · cases hj

theorem getElem?_append_of_some (hj : l[j]? = some u) (l' : List α) : (l ++ l')[j]? = some u := by
  rw [List.getElem?_append_left (List.getElem?_eq_some_iff.mp hj).1]
  exact hj

/-- An update that leaves a projection of the element alone leaves the projected list alone. -/
theorem map_set_of_eq {f : α → β} (hi : l[i]? = some x) (hf : f y = f x) :
    (l.set i y).map f = l.map f := by
  rw [List.map_set, hf]
  apply List.ext_getElem?
  intro j
  by_cases hij : i = j
  · subst hij
    rw [List.getElem?_map, hi, Option.map_some]
    exact getElem?_set_of_some (x := f x) (by rw [List.getElem?_map, hi, Option.map_some])
  · rw [List.getElem?_set, if_neg hij]

theorem flatMap_set_of_eq {f : α → List β} (hi : l[i]? = some x) (hf : f y = f x) :
    (l.set i y).flatMap f = l.flatMap f := by
  rw [List.flatMap_def, List.flatMap_def, map_set_of_eq hi hf]

/-- An update moves a sum by the difference of the two elements. -/
theorem sum_map_set {f : α → Nat} (hi : l[i]? = some x) (y : α) :
    ((l.set i y).map f).sum + f x = (l.map f).sum + f y := by
  induction l generalizing i with
  | nil => cases hi
  | cons z l ih =>
      cases i with
      | zero =>
          cases hi
          simp only [List.set_cons_zero, List.map_cons, List.sum_cons]
          omega
      | succ i =>
          have := ih (i := i) hi
          simp only [List.set_cons_succ, List.map_cons, List.sum_cons]
          omega

/-- An update at the end of a list, with the part before the end in view. -/
theorem exists_set_last (hlast : l[l.length - 1]? = some x) :
    ∃ pre, l = pre ++ [x] ∧ ∀ y, l.set (l.length - 1) y = pre ++ [y] := by
  have hlt := (List.getElem?_eq_some_iff.mp hlast).1
  have hne : l ≠ [] := List.ne_nil_of_length_pos (by omega)
  have hx : l.getLast hne = x := by
    rw [List.getLast_eq_getElem]
    exact (List.getElem?_eq_some_iff.mp hlast).2
  have hl : l = l.dropLast ++ [x] := by
    rw [← hx, List.dropLast_append_getLast hne]
  refine ⟨l.dropLast, hl, fun y => ?_⟩
  have hlen : l.length - 1 = l.dropLast.length := List.length_dropLast.symm
  rw [hlen]
  conv_lhs => rw [hl]
  rw [List.set_append_right _ _ (Nat.le_of_eq (by simp))]
  simp

/-- What some element has that an update keeps, some element of the updated list has. -/
theorem exists_mem_set {P : α → Prop} (hi : l[i]? = some x) (hP : P x → P y)
    (h : ∃ z ∈ l, P z) : ∃ z ∈ l.set i y, P z := by
  obtain ⟨z, hz, hPz⟩ := h
  obtain ⟨j, hj⟩ := List.mem_iff_getElem?.mp hz
  by_cases hij : i = j
  · subst hij
    have hzx : z = x := Option.some.inj (hj.symm.trans hi)
    rw [hzx] at hPz
    exact ⟨y, List.mem_of_getElem? (getElem?_set_of_some hi), hP hPz⟩
  · refine ⟨z, List.mem_of_getElem? (i := j) ?_, hPz⟩
    rw [List.getElem?_set, if_neg hij]
    exact hj

end ListUpdate

/-! The order of two elements of a list, as a sublist of length two. -/

namespace ListOrder

variable {α : Type*} {l pre post : List α} {a b : α}

theorem mem_of_pair_sublist (hnodup : (pre ++ a :: post).Nodup) (h : [a, b].Sublist (pre ++ a :: post)) :
    b ∈ post := by
  induction pre with
  | nil =>
      rcases List.sublist_cons_iff.mp h with h | ⟨r, hr, hsub⟩
      · exact absurd (h.subset List.mem_cons_self) (List.nodup_cons.mp hnodup).1
      · cases hr
        exact List.singleton_sublist.mp hsub
  | cons x pre ih =>
      rw [List.cons_append, List.nodup_cons] at hnodup
      rcases List.sublist_cons_iff.mp h with h | ⟨r, hr, -⟩
      · exact ih hnodup.2 h
      · cases hr
        exact absurd (by simp) hnodup.1

theorem pair_sublist_or (ha : a ∈ l) (hb : b ∈ l) (hne : a ≠ b) :
    [a, b].Sublist l ∨ [b, a].Sublist l := by
  induction l with
  | nil => cases ha
  | cons x l ih =>
      rcases List.mem_cons.mp ha with rfl | ha' <;> rcases List.mem_cons.mp hb with hb' | hb'
      · exact absurd hb'.symm hne
      · exact Or.inl ((List.singleton_sublist.mpr hb').cons_cons a)
      · subst hb'
        exact Or.inr ((List.singleton_sublist.mpr ha').cons_cons b)
      · exact (ih ha' hb').imp (fun h => h.cons x) fun h => h.cons x

end ListOrder

/-! Lists of tagged entries, as the queues that several senders share: what one tag has in them. -/

namespace Tagged

variable {α β : Type*} [DecidableEq α] {l l' : List (α × β)} {a : α} {b : β} {k : Nat}

/-- The entries with the tag `a`. -/
def select (a : α) (l : List (α × β)) : List β := l.filterMap fun x => if x.1 = a then some x.2 else none

@[simp] theorem select_nil (a : α) : select a ([] : List (α × β)) = [] := rfl

theorem select_append (a : α) (l l' : List (α × β)) : select a (l ++ l') = select a l ++ select a l' :=
  List.filterMap_append

theorem select_cons (a : α) (x : α × β) (l : List (α × β)) :
    select a (x :: l) = if x.1 = a then x.2 :: select a l else select a l := by
  rw [select, List.filterMap_cons]
  by_cases h : x.1 = a <;> simp [h, select]

theorem select_cons_ne {x : α × β} (h : x.1 ≠ a) (l : List (α × β)) : select a (x :: l) = select a l := by
  rw [select_cons, if_neg h]

theorem select_concat_ne {x : α × β} (h : x.1 ≠ a) (l : List (α × β)) : select a (l ++ [x]) = select a l := by
  rw [select_append, select_cons_ne h, select_nil, List.append_nil]

theorem select_sublist (a : α) (h : l.Sublist l') : (select a l).Sublist (select a l') := h.filterMap _

/-- One of several queues changes. -/
theorem select_update_sublist {κ : Type*} [DecidableEq κ] {queues : κ → List (α × β)} {q : κ}
    (h : (select a l).Sublist (select a (queues q))) (r : κ) :
    (select a (Function.update queues q l r)).Sublist (select a (queues r)) := by
  by_cases hr : r = q
  · subst hr
    rw [Function.update_self]
    exact h
  · rw [Function.update_of_ne hr]

theorem mem_select : b ∈ select a l ↔ (a, b) ∈ l := by
  rw [select, List.mem_filterMap]
  constructor
  · rintro ⟨⟨x, y⟩, hmem, heq⟩
    split at heq
    · rename_i hx
      cases heq
      cases hx
      exact hmem
    · cases heq
  · exact fun hmem => ⟨(a, b), hmem, if_pos rfl⟩

/-- The first entry with the tag is taken out. -/
theorem select_eraseIdx_first (h : l[k]? = some (a, b))
    (hfirst : ∀ k' < k, ∀ x, l[k']? = some x → x.1 ≠ a) : select a l = b :: select a (l.eraseIdx k) := by
  induction l generalizing k with
  | nil => cases h
  | cons x l ih =>
      cases k with
      | zero =>
          cases h
          rw [List.eraseIdx_cons_zero, select_cons, if_pos rfl]
      | succ k =>
          have hx : x.1 ≠ a := hfirst 0 (Nat.succ_pos k) x rfl
          rw [List.eraseIdx_cons_succ, select_cons, select_cons, if_neg hx, if_neg hx]
          exact ih h fun k' hk y hy => hfirst (k' + 1) (Nat.succ_lt_succ hk) y hy

/-- An entry with another tag is taken out. -/
theorem select_eraseIdx_ne {x : α × β} (h : l[k]? = some x) (hne : x.1 ≠ a) :
    select a (l.eraseIdx k) = select a l := by
  induction l generalizing k with
  | nil => cases h
  | cons y l ih =>
      cases k with
      | zero =>
          cases h
          rw [List.eraseIdx_cons_zero, select_cons, if_neg hne]
      | succ k => rw [List.eraseIdx_cons_succ, select_cons, select_cons, ih h]

/-- One entry for every tag of a list. -/
theorem select_map {tags : List α} (hnodup : tags.Nodup) (b : β) :
    select a (tags.map fun t => (t, b)) = if a ∈ tags then [b] else [] := by
  induction tags with
  | nil => rfl
  | cons t tags ih =>
      rw [List.nodup_cons] at hnodup
      rw [List.map_cons, select_cons, ih hnodup.2]
      by_cases ht : t = a
      · subst ht
        simp [hnodup.1]
      · simp [ht, Ne.symm ht]

end Tagged

/-! Loops over a list that may fail. -/

namespace PartialLoop

variable {α β γ : Type*} {l : List α}

theorem foldlM_congr {f g : β → α → Option β} (h : ∀ b, ∀ a ∈ l, f b a = g b a) (b : β) :
    l.foldlM f b = l.foldlM g b := by
  induction l generalizing b with
  | nil => rfl
  | cons a l ih =>
      rw [List.foldlM_cons, List.foldlM_cons, h b a List.mem_cons_self]
      exact congrArg _ (funext fun c => ih (fun b x hx => h b x (List.mem_cons_of_mem a hx)) c)

/-- A loop that comes to its end has not failed at any element. -/
theorem exists_of_foldlM {f : β → α → Option β} {b c : β} (h : l.foldlM f b = some c) {a : α} (ha : a ∈ l) :
    ∃ b', (f b' a).isSome := by
  induction l generalizing b with
  | nil => cases ha
  | cons x l ih =>
      rw [List.foldlM_cons, Option.bind_eq_bind, Option.bind_eq_some_iff] at h
      obtain ⟨d, hd, hrest⟩ := h
      rcases List.mem_cons.mp ha with rfl | ha
      · exact ⟨b, by rw [hd]; rfl⟩
      · exact ih hrest ha

theorem mapM_congr {f g : α → Option γ} (h : ∀ a ∈ l, f a = g a) : l.mapM f = l.mapM g := by
  induction l with
  | nil => rfl
  | cons a l ih =>
      rw [List.mapM_cons, List.mapM_cons, h a List.mem_cons_self,
        ih fun x hx => h x (List.mem_cons_of_mem a hx)]

theorem exists_of_mapM {f : α → Option γ} {out : List γ} (h : l.mapM f = some out) {a : α} (ha : a ∈ l) :
    ∃ c, f a = some c := by
  induction l generalizing out with
  | nil => cases ha
  | cons x l ih =>
      rw [List.mapM_cons, Option.bind_eq_bind, Option.bind_eq_some_iff] at h
      obtain ⟨c, hc, hrest⟩ := h
      obtain ⟨cs, hcs, -⟩ := Option.bind_eq_some_iff.mp hrest
      rcases List.mem_cons.mp ha with rfl | ha
      · exact ⟨c, hc⟩
      · exact ih hcs ha

end PartialLoop
