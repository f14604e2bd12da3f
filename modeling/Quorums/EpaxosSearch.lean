import Quorums.BaseGraph
import Quorums.EpaxosShape

/-! The executor of a replica. The search from a pending instance says whether everything it depends on,
directly or through others, was executed or is committed; it never runs out of passes. The instances for
which it says so are executed component by component, dependencies first. -/

namespace Quorums.Epaxos

/-- What the executor relies on: a hash set is listed once, in some order, and `tarjan_scc` gives the
components of the graph in reverse topological order. -/
structure Runtime.Faithful (rt : Runtime) : Prop where
  order : ∀ keys, (rt.order keys).Perm keys
  tarjanScc : ∀ n edges, (∀ e ∈ edges, e.1 < n ∧ e.2 < n) →
    Components.SccOrder (List.range n) (fun a b => (a, b) ∈ edges) (rt.tarjanScc n edges)

namespace ReplicaInner

open Relation Components

variable {rt : Runtime} {inner : ReplicaInner}

/-- The record of `key`. -/
def recordOf (inner : ReplicaInner) (key : Nat × Int) : Option Instance := inner.instance? key.1 key.2.toNat

/-- Executed before this run of the executor. -/
def Done (inner : ReplicaInner) (key : Nat × Int) : Prop :=
  0 ≤ key.2 ∧ inner.isExecuted key.1 key.2.toNat = true

/-- Committed and not executed. -/
def Live (inner : ReplicaInner) (key : Nat × Int) : Prop :=
  0 ≤ key.2 ∧ ¬inner.Done key ∧ ∃ inst, inner.recordOf key = some inst ∧ inst.status = .committed

/-- The record of `a` names `b` among its dependencies. -/
def DependsOn (inner : ReplicaInner) (a b : Nat × Int) : Prop :=
  ∃ inst, inner.recordOf a = some inst ∧ inst.deps[b.1]? = some b.2 ∧ 0 ≤ b.2

/-- The dependencies that a search follows. -/
def Needs (inner : ReplicaInner) (a b : Nat × Int) : Prop := inner.Live a ∧ inner.DependsOn a b

/-- A dependency between two committed instances that were not executed. -/
def Follows (inner : ReplicaInner) (a b : Nat × Int) : Prop :=
  inner.Live a ∧ inner.Live b ∧ inner.DependsOn a b

/-- Everything the instance needs was executed or is committed. -/
def Ready (inner : ReplicaInner) (key : Nat × Int) : Prop :=
  inner.Live key ∧ ∀ b, ReflTransGen inner.Needs key b → inner.Done b ∨ inner.Live b

/-! ### The search -/

/-- The pushes of one pass. -/
theorem pushes_eq {n : Nat} {deps : List Int} (hdeps : deps.length = n) (stack : List (Nat × Int)) :
    ∃ pushed, (List.range n).foldlM (fun stack r => do
        let d ← deps[r]?
        return if d ≥ 0 then (r, d) :: stack else stack) stack = some (pushed ++ stack) ∧
      pushed.length ≤ n ∧ ∀ b, b ∈ pushed ↔ deps[b.1]? = some b.2 ∧ 0 ≤ b.2 := by
  have hpasses (m : Nat) (hm : m ≤ n) : ∃ pushed, (List.range m).foldlM (fun stack r => do
        let d ← deps[r]?
        return if d ≥ 0 then (r, d) :: stack else stack) stack = some (pushed ++ stack) ∧
      pushed.length ≤ m ∧ ∀ b, b ∈ pushed ↔ b.1 < m ∧ deps[b.1]? = some b.2 ∧ 0 ≤ b.2 := by
    induction m with
    | zero => exact ⟨[], rfl, le_rfl, by simp⟩
    | succ m ih =>
        obtain ⟨pushed, hfold, hlen, hmem⟩ := ih (by omega)
        have hm' : m < deps.length := by omega
        rw [List.range_succ, List.foldlM_append, hfold]
        simp only [Option.bind_eq_bind, Option.bind_some, List.foldlM_cons, List.foldlM_nil,
          List.getElem?_eq_getElem hm']
        have hlt (b : Nat × Int) (hb : deps[b.1]? = some b.2) :
            b.1 < m + 1 ↔ b.1 < m ∨ b = (m, deps[m]) := by
          constructor
          · intro h
            rcases Nat.lt_succ_iff_lt_or_eq.mp h with h | h
            · exact Or.inl h
            · refine Or.inr (Prod.ext h ?_)
              rw [h, List.getElem?_eq_getElem hm'] at hb
              exact (Option.some.inj hb).symm
          · rintro (h | rfl)
            · omega
            · exact Nat.lt_succ_self m
        by_cases hd : deps[m] ≥ 0
        · refine ⟨(m, deps[m]) :: pushed, by simp [hd], by simp; omega, fun b => ?_⟩
          rw [List.mem_cons, hmem]
          constructor
          · rintro (rfl | ⟨hb, hdep, hnonneg⟩)
            · exact ⟨Nat.lt_succ_self m, List.getElem?_eq_getElem hm', hd⟩
            · exact ⟨by omega, hdep, hnonneg⟩
          · rintro ⟨hb, hdep, hnonneg⟩
            rcases (hlt b hdep).mp hb with hb | rfl
            · exact Or.inr ⟨hb, hdep, hnonneg⟩
            · exact Or.inl rfl
        · refine ⟨pushed, by simp [hd], by omega, fun b => ?_⟩
          rw [hmem]
          refine ⟨fun ⟨hb, hdep, hnonneg⟩ => ⟨by omega, hdep, hnonneg⟩, fun ⟨hb, hdep, hnonneg⟩ => ?_⟩
          rcases (hlt b hdep).mp hb with hb | rfl
          · exact ⟨hb, hdep, hnonneg⟩
          · exact absurd hnonneg hd
  obtain ⟨pushed, hfold, hlen, hmem⟩ := hpasses n le_rfl
  refine ⟨pushed, hfold, hlen, fun b => ?_⟩
  rw [hmem]
  refine ⟨fun h => h.2, fun h => ⟨?_, h⟩⟩
  rw [← hdeps]
  exact (List.getElem?_eq_some_iff.mp h.1).1

/-- The places that have a record. -/
def places (inner : ReplicaInner) : List (Nat × Int) :=
  (List.range inner.instances.length).flatMap fun r =>
    (List.range (inner.instances[r]?.getD []).length).map fun s : Nat => (r, (s : Int))

theorem length_places (inner : ReplicaInner) :
    inner.places.length = (inner.instances.map List.length).sum := by
  have hrows : (List.range inner.instances.length).map (fun r => (inner.instances[r]?.getD []).length) =
      inner.instances.map List.length := by
    refine List.ext_getElem (by simp) fun r hr _ => ?_
    have hlt : r < inner.instances.length := by simpa using hr
    simp [List.getElem?_eq_getElem hlt]
  rw [places, List.length_flatMap, ← hrows]
  simp

theorem mem_places {key : Nat × Int} {inst : Instance} (hkey : 0 ≤ key.2)
    (h : inner.recordOf key = some inst) : key ∈ inner.places := by
  obtain ⟨row, hrow, hs⟩ := Option.bind_eq_some_iff.mp h
  refine List.mem_flatMap.mpr ⟨key.1, List.mem_range.mpr (List.getElem?_eq_some_iff.mp hrow).1, ?_⟩
  rw [hrow]
  refine List.mem_map.mpr ⟨key.2.toNat, List.mem_range.mpr (List.getElem?_eq_some_iff.mp hs).1, ?_⟩
  exact Prod.ext rfl (Int.toNat_of_nonneg hkey)

section Unvisited

-- what decides whether a key is among the visited ones
local instance instLawfulBEqKey : LawfulBEq (Nat × Int) := inferInstance

/-- The places that a search has not visited. -/
def unvisited (inner : ReplicaInner) (visited : List (Nat × Int)) : List (Nat × Int) :=
  inner.places.filter fun key => key ∉ visited

end Unvisited

theorem unvisited_cons (inner : ReplicaInner) (key : Nat × Int) (visited : List (Nat × Int)) :
    inner.unvisited (key :: visited) = (inner.unvisited visited).filter fun b => b ≠ key := by
  rw [unvisited, unvisited, List.filter_filter]
  refine List.filter_congr fun b _ => ?_
  simp

theorem length_unvisited_cons_le (inner : ReplicaInner) (key : Nat × Int) (visited : List (Nat × Int)) :
    (inner.unvisited (key :: visited)).length ≤ (inner.unvisited visited).length := by
  rw [unvisited_cons]
  exact List.length_filter_le ..

theorem length_unvisited_cons_lt {key : Nat × Int} {visited : List (Nat × Int)} (hkey : key ∈ inner.places)
    (hnew : key ∉ visited) :
    (inner.unvisited (key :: visited)).length < (inner.unvisited visited).length := by
  rw [unvisited_cons]
  refine List.length_filter_lt_length_iff_exists.mpr ⟨key, ?_, by simp⟩
  exact List.mem_filter.mpr ⟨hkey, by simpa using hnew⟩

/-- What a search has visited: nothing that blocks, and what is needed next is on the stack. -/
def Visits (inner : ReplicaInner) (visited stack : List (Nat × Int)) : Prop :=
  ∀ v ∈ visited, (inner.Done v ∨ inner.Live v) ∧ ∀ w, inner.Needs v w → w ∈ visited ∨ w ∈ stack

/-- A search that ends well has seen all that is needed; one that does not has met what blocks. -/
def Answers (inner : ReplicaInner) (root : Nat × Int) (seen : List (Nat × Int)) : Bool → Prop
  | true => ∃ final, (∀ b ∈ seen, b ∈ final) ∧ inner.Visits final []
  | false => ∃ b, ReflTransGen inner.Needs root b ∧ ¬(inner.Done b ∨ inner.Live b)

theorem Answers.mono {root : Nat × Int} {seen seen' : List (Nat × Int)} {ok : Bool}
    (h : inner.Answers root seen ok) (hsub : ∀ b ∈ seen', b ∈ seen) : inner.Answers root seen' ok := by
  cases ok with
  | true =>
      obtain ⟨final, hfinal, hclosed⟩ := h
      exact ⟨final, fun b hb => hfinal b (hsub b hb), hclosed⟩
  | false => exact h

/-- The instance on top of the stack was visited before. -/
theorem Visits.pop {key : Nat × Int} {visited stack : List (Nat × Int)}
    (h : inner.Visits visited (key :: stack)) (hseen : key ∈ visited) : inner.Visits visited stack := by
  refine fun v hv => ⟨(h v hv).1, fun w hw => ?_⟩
  rcases (h v hv).2 w hw with hw | hw
  · exact Or.inl hw
  · rcases List.mem_cons.mp hw with rfl | hw
    · exact Or.inl hseen
    · exact Or.inr hw

/-- The instance on top of the stack is put among the visited ones, and what it needs on the stack. -/
theorem Visits.push {key : Nat × Int} {visited stack pushed : List (Nat × Int)}
    (h : inner.Visits visited (key :: stack)) (hkey : inner.Done key ∨ inner.Live key)
    (hpushed : ∀ w, inner.Needs key w → w ∈ pushed) : inner.Visits (key :: visited) (pushed ++ stack) := by
  intro v hv
  rcases List.mem_cons.mp hv with rfl | hv
  · exact ⟨hkey, fun w hw => Or.inr (List.mem_append_left _ (hpushed w hw))⟩
  · refine ⟨(h v hv).1, fun w hw => ?_⟩
    rcases (h v hv).2 w hw with hw | hw
    · exact Or.inl (List.mem_cons_of_mem key hw)
    · rcases List.mem_cons.mp hw with rfl | hw
      · exact Or.inl List.mem_cons_self
      · exact Or.inr (List.mem_append_right _ hw)

/-- The search answers, whatever was visited before: every pass takes an element from the stack, and an
instance adds to it once. -/
theorem search_spec (h : inner.Shaped) {root : Nat × Int} {fuel : Nat} {stack visited : List (Nat × Int)}
    (hfuel : stack.length + inner.n * (inner.unvisited visited).length < fuel)
    (hstack : ∀ b ∈ stack, 0 ≤ b.2 ∧ ReflTransGen inner.Needs root b)
    (hvisited : inner.Visits visited stack) :
    ∃ ok, search inner fuel stack visited = some ok ∧ inner.Answers root (visited ++ stack) ok := by
  induction fuel generalizing stack visited with
  | zero => omega
  | succ fuel ih =>
      cases stack with
      | nil => exact ⟨true, rfl, visited, by simp, hvisited⟩
      | cons key stack =>
          obtain ⟨hkey, hroot⟩ := hstack key List.mem_cons_self
          have hstack' : ∀ b ∈ stack, 0 ≤ b.2 ∧ ReflTransGen inner.Needs root b := fun b hb =>
            hstack b (List.mem_cons_of_mem key hb)
          have hsub (pushed : List (Nat × Int)) (b : Nat × Int) (hb : b ∈ visited ++ key :: stack) :
              b ∈ (key :: visited) ++ (pushed ++ stack) := by
            simp only [List.mem_append, List.mem_cons] at hb ⊢
            tauto
          rw [List.length_cons] at hfuel
          rw [search, if_neg (by omega)]
          by_cases hseen : key ∈ visited
          · -- visited before
            rw [if_pos hseen]
            obtain ⟨ok, hok, hanswer⟩ := ih (by omega) hstack' (hvisited.pop hseen)
            refine ⟨ok, hok, hanswer.mono fun b hb => ?_⟩
            rcases List.mem_append.mp hb with hb | hb
            · exact List.mem_append_left _ hb
            · rcases List.mem_cons.mp hb with rfl | hb
              · exact List.mem_append_left _ hseen
              · exact List.mem_append_right _ hb
          · rw [if_neg hseen]
            have hless := length_unvisited_cons_le inner key visited
            by_cases hdone : inner.isExecuted key.1 key.2.toNat
            · -- executed: nothing more is needed
              rw [if_pos hdone]
              have hfuel' := Nat.mul_le_mul_left inner.n hless
              have hvisited' : inner.Visits (key :: visited) ([] ++ stack) :=
                hvisited.push (Or.inl ⟨hkey, hdone⟩) fun w hw => absurd ⟨hkey, hdone⟩ hw.1.2.1
              obtain ⟨ok, hok, hanswer⟩ := ih (by omega) hstack' hvisited'
              exact ⟨ok, hok, hanswer.mono (hsub [])⟩
            · rw [if_neg hdone]
              have hnot : ¬inner.Done key := fun hd => hdone hd.2
              cases hinst : inner.instance? key.1 key.2.toNat with
              | none =>
                  refine ⟨false, rfl, key, hroot, ?_⟩
                  rintro (hd | ⟨-, -, inst, hrecord, -⟩)
                  · exact hnot hd
                  · cases hinst.symm.trans hrecord
              | some inst =>
                  by_cases hstatus : inst.status = .committed
                  · -- committed: its dependencies go on the stack
                    have hlive : inner.Live key := ⟨hkey, hnot, inst, hinst, hstatus⟩
                    obtain ⟨pushed, hpushed, hlen, hmem⟩ := pushes_eq (h.deps _ _ inst hinst) stack
                    have hneeds (w : Nat × Int) : inner.Needs key w ↔ w ∈ pushed := by
                      rw [hmem]
                      constructor
                      · rintro ⟨-, inst', hrecord, hdep⟩
                        cases hinst.symm.trans hrecord
                        exact hdep
                      · exact fun hdep => ⟨hlive, inst, hinst, hdep⟩
                    have hlt := length_unvisited_cons_lt (mem_places hkey hinst) hseen
                    have hfuel' : inner.n * ((inner.unvisited (key :: visited)).length + 1) ≤
                        inner.n * (inner.unvisited visited).length := Nat.mul_le_mul_left inner.n hlt
                    rw [Nat.mul_succ] at hfuel'
                    have hstack'' : ∀ b ∈ pushed ++ stack, 0 ≤ b.2 ∧ ReflTransGen inner.Needs root b := by
                      intro b hb
                      rcases List.mem_append.mp hb with hb | hb
                      · exact ⟨((hmem b).mp hb).2, hroot.tail ((hneeds b).mpr hb)⟩
                      · exact hstack' b hb
                    obtain ⟨ok, hok, hanswer⟩ := ih (by rw [List.length_append]; omega) hstack''
                      (hvisited.push (Or.inr hlive) fun w hw => (hneeds w).mp hw)
                    refine ⟨ok, ?_, hanswer.mono (hsub pushed)⟩
                    simp only [hstatus, ne_eq, not_true_eq_false, if_false]
                    rw [hpushed]
                    exact hok
                  · refine ⟨false, by simp [hstatus], key, hroot, ?_⟩
                    rintro (hd | ⟨-, -, inst', hrecord, hcommitted⟩)
                    · exact hnot hd
                    · cases hinst.symm.trans hrecord
                      exact hstatus hcommitted

/-- From a live instance the search says whether it is ready. -/
theorem search_root (h : inner.Shaped) {key : Nat × Int} (hlive : inner.Live key) :
    ∃ ok, search inner inner.searchFuel [key] [] = some ok ∧ (ok = true ↔ inner.Ready key) := by
  have hfuel : [key].length + inner.n * (inner.unvisited []).length < inner.searchFuel := by
    have hle : (inner.unvisited []).length ≤ inner.places.length := List.length_filter_le ..
    have hmul := Nat.mul_le_mul_left inner.n hle
    rw [searchFuel, ← length_places, List.length_singleton]
    omega
  have hstack : ∀ b ∈ [key], 0 ≤ b.2 ∧ ReflTransGen inner.Needs key b := by
    simpa using ⟨hlive.1, ReflTransGen.refl⟩
  obtain ⟨ok, hok, hanswer⟩ := search_spec h hfuel hstack fun v hv => absurd hv List.not_mem_nil
  refine ⟨ok, hok, ?_⟩
  cases ok with
  | true =>
      obtain ⟨final, hfinal, hclosed⟩ := hanswer
      refine iff_of_true rfl ⟨hlive, fun b hb => ?_⟩
      have hmem : b ∈ final := by
        induction hb with
        | refl => exact hfinal key (by simp)
        | tail _ hstep ih => exact ((hclosed _ ih).2 _ hstep).resolve_right List.not_mem_nil
      exact (hclosed b hmem).1
  | false =>
      obtain ⟨b, hb, hblocked⟩ := hanswer
      exact iff_of_false nofun fun hready => hblocked (hready.2 b hb)

/-! ### The ready instances -/

theorem lt_n_of_recordOf (h : inner.Shaped) {key : Nat × Int} {inst : Instance}
    (hrecord : inner.recordOf key = some inst) : key.1 < inner.n := by
  obtain ⟨row, hrow, -⟩ := Option.bind_eq_some_iff.mp hrecord
  rw [← h.rows]
  exact (List.getElem?_eq_some_iff.mp hrow).1

theorem pending_eq (inner : ReplicaInner) :
    inner.pending = (List.range inner.n).flatMap fun r =>
      ((List.range (inner.instances[r]?.getD []).length).filter fun s =>
        !inner.isExecuted r s ∧ (inner.instance? r s).map Instance.status = some .committed).map
          fun s : Nat => (r, (s : Int)) := by
  simp only [pending, bind_pure_comp, List.map_eq_map, List.map_map]
  rfl

theorem mem_pending (h : inner.Shaped) {key : Nat × Int} : key ∈ inner.pending ↔ inner.Live key := by
  simp only [pending_eq, List.mem_flatMap, List.mem_map, List.mem_filter, List.mem_range, Bool.not_eq_true',
    decide_eq_true_eq]
  constructor
  · rintro ⟨r, hr, s, ⟨hs, hexecuted, hstatus⟩, rfl⟩
    obtain ⟨inst, hinst, hcommitted⟩ := Option.map_eq_some_iff.mp hstatus
    refine ⟨Int.natCast_nonneg s, fun hdone => ?_, inst, ?_, hcommitted⟩
    · have hd := hdone.2
      rw [Int.toNat_natCast, hexecuted] at hd
      cases hd
    · rw [recordOf, Int.toNat_natCast]
      exact hinst
  · rintro ⟨hnonneg, hdone, inst, hrecord, hcommitted⟩
    obtain ⟨row, hrow, hs⟩ := Option.bind_eq_some_iff.mp hrecord
    refine ⟨key.1, lt_n_of_recordOf h hrecord, key.2.toNat, ⟨?_, ?_, ?_⟩, ?_⟩
    · rw [hrow]
      exact (List.getElem?_eq_some_iff.mp hs).1
    · cases hexecuted : inner.isExecuted key.1 key.2.toNat with
      | false => rfl
      | true => exact absurd ⟨hnonneg, hexecuted⟩ hdone
    · rw [show inner.instance? key.1 key.2.toNat = some inst from hrecord, Option.map_some, hcommitted]
    · exact Prod.ext rfl (Int.toNat_of_nonneg hnonneg)

theorem nodup_pending (inner : ReplicaInner) : inner.pending.Nodup := by
  rw [pending_eq, List.nodup_flatMap]
  refine ⟨fun r _ => ?_, List.nodup_range.imp fun {r r'} hne => ?_⟩
  · refine (List.nodup_range.filter _).map fun s s' heq => ?_
    exact Int.ofNat.inj (Prod.mk.inj heq).2
  · intro key hkey hkey'
    obtain ⟨s, -, rfl⟩ := List.mem_map.mp hkey
    obtain ⟨s', -, heq⟩ := List.mem_map.mp hkey'
    exact hne (Prod.mk.inj heq).1.symm

open Classical in
/-- The ready instances are found. -/
theorem ready_eq (h : inner.Shaped) :
    inner.ready = some (inner.pending.filter fun key => inner.Ready key) := by
  have hverdicts (keys : List (Nat × Int)) (hkeys : ∀ key ∈ keys, inner.Live key) :
      (keys.mapM fun key => do
        let ok ← search inner inner.searchFuel [key] []
        return (key, ok)) = some (keys.map fun key => (key, decide (inner.Ready key))) := by
    induction keys with
    | nil => rfl
    | cons key keys ih =>
        obtain ⟨ok, hok, hiff⟩ := search_root h (hkeys key List.mem_cons_self)
        have hdecide : decide (inner.Ready key) = ok := by
          cases ok <;> simp_all
        rw [List.mapM_cons, hok, ih fun b hb => hkeys b (List.mem_cons_of_mem key hb), List.map_cons,
          hdecide]
        rfl
  rw [ready, hverdicts _ fun key hkey => (mem_pending h).mp hkey]
  simp only [Option.bind_eq_bind, Option.bind_some, List.filter_map, List.map_map]
  exact congrArg some (List.map_id _)

theorem Ready.needs {a b : Nat × Int} (h : inner.Ready a) (hneeds : inner.Needs a b) :
    inner.Done b ∨ inner.Ready b := by
  rcases h.2 b (.single hneeds) with hdone | hlive
  · exact Or.inl hdone
  · exact Or.inr ⟨hlive, fun c hc => h.2 c (.head hneeds hc)⟩

theorem not_done_of_live {a : Nat × Int} (h : inner.Live a) : ¬inner.Done a := h.2.1

theorem Ready.follows {a b : Nat × Int} (h : inner.Ready a) (hfollows : inner.Follows a b) :
    inner.Ready b :=
  (h.needs ⟨hfollows.1, hfollows.2.2⟩).resolve_left (not_done_of_live hfollows.2.1)

/-! ### The groups -/

/-- The groups of a run of the executor, in the order of their execution. -/
def groups (rt : Runtime) (inner : ReplicaInner) : Option (List (List (Nat × Int))) := do
  let ready ← inner.ready
  let readyVec := rt.order ready
  let sccs := rt.tarjanScc readyVec.length (inner.edges readyVec)
  return sccs.map fun scc =>
    (scc.filterMap fun i => readyVec[i]?).insertionSort fun a b => inner.seqOf a ≤ inner.seqOf b

theorem executeAllReady_eq (rt : Runtime) (inner : ReplicaInner) :
    inner.executeAllReady rt = (inner.groups rt).map fun groups => groups.flatten.foldl execute inner := by
  rw [executeAllReady, groups]
  cases inner.ready <;> rfl

theorem mem_edges {readyVec : List (Nat × Int)} {e : Nat × Nat} :
    e ∈ inner.edges readyVec ↔ ∃ key ∈ readyVec, ∃ dep ∈ readyVec, dep.1 < inner.n ∧ 0 ≤ dep.2 ∧
      ((((inner.recordOf key).map Instance.deps).getD [])[dep.1]?.getD (-1) = dep.2) ∧
      e = (readyVec.idxOf key, readyVec.idxOf dep) := by
  simp only [edges, List.mem_flatMap, List.mem_filterMap, List.mem_range]
  constructor
  · rintro ⟨key, hkey, r, hr, hedge⟩
    split at hedge
    · rename_i hdep
      cases hedge
      exact ⟨key, hkey, _, hdep.2, hr, hdep.1, rfl, rfl⟩
    · cases hedge
  · rintro ⟨key, hkey, dep, hdep, hr, hnonneg, hget, rfl⟩
    refine ⟨key, hkey, dep.1, hr, ?_⟩
    obtain ⟨r, d⟩ := dep
    dsimp only [recordOf] at hget hnonneg
    rw [if_pos (by rw [hget]; exact ⟨hnonneg, hdep⟩), hget]

/-- The edges between places are the dependencies between the instances at these places. -/
theorem follows_iff_edge (h : inner.Shaped) {readyVec : List (Nat × Int)}
    (hready : ∀ key, key ∈ readyVec ↔ inner.Ready key) (x y : Nat × Int) :
    inner.Ready x ∧ inner.Follows x y ↔
      ∃ e ∈ inner.edges readyVec, readyVec[e.1]? = some x ∧ readyVec[e.2]? = some y := by
  have hget {key : Nat × Int} (hkey : key ∈ readyVec) : readyVec[readyVec.idxOf key]? = some key := by
    rw [List.getElem?_eq_getElem (List.idxOf_lt_length_iff.mpr hkey), List.getElem_idxOf]
  constructor
  · rintro ⟨hx, hfollows⟩
    have hy := hx.follows hfollows
    obtain ⟨-, -, inst, hrecord, hdep, hnonneg⟩ := hfollows
    refine ⟨_, mem_edges.mpr ⟨x, (hready x).mpr hx, y, (hready y).mpr hy, ?_, hnonneg, ?_, rfl⟩,
      hget ((hready x).mpr hx), hget ((hready y).mpr hy)⟩
    · rw [← h.deps _ _ inst hrecord]
      exact (List.getElem?_eq_some_iff.mp hdep).1
    · rw [hrecord, Option.map_some, Option.getD_some, hdep, Option.getD_some]
  · rintro ⟨e, hedge, hx, hy⟩
    obtain ⟨key, hkey, dep, hdep, -, hnonneg, hdeps, rfl⟩ := mem_edges.mp hedge
    obtain rfl : key = x := Option.some.inj ((hget hkey).symm.trans hx)
    obtain rfl : dep = y := Option.some.inj ((hget hdep).symm.trans hy)
    have hkey' := (hready key).mp hkey
    have hlive := hkey'.1
    obtain ⟨-, -, inst, hrecord, -⟩ := hlive
    refine ⟨hkey', hkey'.1, ((hready dep).mp hdep).1, inst, hrecord, ?_, hnonneg⟩
    rw [hrecord, Option.map_some, Option.getD_some] at hdeps
    cases hget' : inst.deps[dep.1]? with
    | none =>
        rw [hget', Option.getD_none] at hdeps
        omega
    | some d =>
        rw [hget', Option.getD_some] at hdeps
        rw [hdeps]

theorem reflTransGen_ready {a b : Nat × Int} (ha : inner.Ready a) (h : ReflTransGen inner.Follows a b) :
    ReflTransGen (fun x y => inner.Ready x ∧ inner.Follows x y) a b ∧ inner.Ready b := by
  induction h with
  | refl => exact ⟨.refl, ha⟩
  | tail _ hstep ih => exact ⟨ih.1.tail ⟨ih.2, hstep⟩, ih.2.follows hstep⟩

theorem mutual_ready_iff {a b : Nat × Int} (ha : inner.Ready a) (hb : inner.Ready b) :
    Mutual (fun x y => inner.Ready x ∧ inner.Follows x y) a b ↔ Mutual inner.Follows a b := by
  have hmono {x y : Nat × Int} (h : ReflTransGen (fun x y => inner.Ready x ∧ inner.Follows x y) x y) :
      ReflTransGen inner.Follows x y := by
    induction h with
    | refl => exact .refl
    | tail _ hstep ih => exact ih.tail hstep.2
  exact ⟨fun h => ⟨hmono h.1, hmono h.2⟩,
    fun h => ⟨(reflTransGen_ready ha h.1).1, (reflTransGen_ready hb h.2).1⟩⟩

/-- A run of the executor goes through the components of the ready instances, dependencies first, and
through each by ascending `seq`. -/
structure Runs (rt : Runtime) (inner : ReplicaInner) (nodes : List (Nat × Int))
    (groups : List (List (Nat × Int))) : Prop where
  listed : ∃ keys, nodes = rt.order keys
  formed : groups = (rt.tarjanScc nodes.length (inner.edges nodes)).map fun scc =>
    (scc.filterMap fun i => nodes[i]?).insertionSort fun a b => inner.seqOf a ≤ inner.seqOf b
  ready : ∀ key, key ∈ nodes ↔ inner.Ready key
  nodup : nodes.Nodup
  scc : SccOrder nodes inner.Follows groups
  sorted : ∀ group ∈ groups, group.Pairwise fun a b => inner.seqOf a ≤ inner.seqOf b

theorem groups_spec (h : inner.Shaped) (hrt : rt.Faithful) :
    ∃ nodes groups, inner.groups rt = some groups ∧ Runs rt inner nodes groups := by
  classical
  let nodes := rt.order (inner.pending.filter fun key => inner.Ready key)
  have hperm : nodes.Perm (inner.pending.filter fun key => inner.Ready key) := hrt.order _
  have hready (key : Nat × Int) : key ∈ nodes ↔ inner.Ready key := by
    rw [hperm.mem_iff, List.mem_filter, mem_pending h, decide_eq_true_eq]
    exact ⟨fun hkey => hkey.2, fun hkey => ⟨hkey.1, hkey⟩⟩
  have hnodup : nodes.Nodup := hperm.nodup_iff.mpr ((nodup_pending inner).filter _)
  have hedges : ∀ e ∈ inner.edges nodes, e.1 < nodes.length ∧ e.2 < nodes.length := by
    intro e he
    obtain ⟨key, hkey, dep, hdep, -, -, -, rfl⟩ := mem_edges.mp he
    exact ⟨List.idxOf_lt_length_iff.mpr hkey, List.idxOf_lt_length_iff.mpr hdep⟩
  have hscc := hrt.tarjanScc nodes.length (inner.edges nodes) hedges
  -- from places to instances
  let at' : Nat → Nat × Int := fun i => nodes[i]?.getD (0, 0)
  have hat {i : Nat} (hi : i < nodes.length) : nodes[i]? = some (at' i) := by
    simp only [at', List.getElem?_eq_getElem hi, Option.getD_some]
  have hmap : (List.range nodes.length).map at' = nodes := by
    refine List.ext_getElem (by simp) fun i hi hi' => ?_
    simp [at', List.getElem?_eq_getElem hi']
  have himage : SccOrder ((List.range nodes.length).map at') (fun x y => inner.Ready x ∧ inner.Follows x y)
      ((rt.tarjanScc nodes.length (inner.edges nodes)).map (·.map at')) := hscc.image
    (fun a b hab => ⟨List.mem_range.mpr (hedges _ hab).1, List.mem_range.mpr (hedges _ hab).2⟩)
    (fun x y => by
      rw [follows_iff_edge h hready]
      constructor
      · rintro ⟨e, he, hx, hy⟩
        obtain ⟨h1, h2⟩ := hedges e he
        rw [hat h1] at hx
        rw [hat h2] at hy
        exact ⟨e.1, List.mem_range.mpr h1, e.2, List.mem_range.mpr h2, Option.some.inj hx,
          Option.some.inj hy, he⟩
      · rintro ⟨a, ha, b, hb, rfl, rfl, hab⟩
        exact ⟨(a, b), hab, hat (List.mem_range.mp ha), hat (List.mem_range.mp hb)⟩)
    (fun a ha b hb heq => by
      rw [List.mem_range] at ha hb
      refine (List.getElem?_inj ha hnodup).mp ?_
      rw [hat ha, hat hb, heq])
  rw [hmap] at himage
  have hfollows : SccOrder nodes inner.Follows
      ((rt.tarjanScc nodes.length (inner.edges nodes)).map (·.map at')) := by
    refine ⟨himage.perm, fun scc hmem a ha b hb => ?_, fun pre scc post hsplit a ha b hb hab => ?_⟩
    · rw [himage.connected scc hmem a ha b hb,
        mutual_ready_iff ((hready a).mp (himage.mem_nodes hmem ha)) ((hready b).mp hb)]
    · refine himage.closed pre scc post hsplit a ha b hb ⟨?_, hab⟩
      exact (hready a).mp (himage.mem_nodes (by rw [hsplit]; simp) ha)
  let sort : List (Nat × Int) → List (Nat × Int) :=
    List.insertionSort fun a b => inner.seqOf a ≤ inner.seqOf b
  have hformed : ((rt.tarjanScc nodes.length (inner.edges nodes)).map (·.map at')).map sort =
      (rt.tarjanScc nodes.length (inner.edges nodes)).map fun scc => sort (scc.filterMap fun i => nodes[i]?) := by
    rw [List.map_map]
    refine List.map_congr_left fun scc hmem => congrArg sort ?_
    rw [← List.filterMap_eq_map]
    exact (List.filterMap_congr fun i hi => hat (List.mem_range.mp (hscc.mem_nodes hmem hi))).symm
  refine ⟨nodes, ((rt.tarjanScc nodes.length (inner.edges nodes)).map (·.map at')).map sort, ?_,
    ⟨_, rfl⟩, hformed, hready, hnodup, hfollows.map_perm fun scc => List.perm_insertionSort _ scc, ?_⟩
  · rw [groups, ready_eq h, hformed]
    rfl
  · intro group hgroup
    obtain ⟨scc, -, rfl⟩ := List.mem_map.mp hgroup
    have : Std.Total fun a b : Nat × Int => inner.seqOf a ≤ inner.seqOf b := ⟨fun a b => le_total _ _⟩
    have : IsTrans (Nat × Int) fun a b => inner.seqOf a ≤ inner.seqOf b := ⟨fun a b c => le_trans⟩
    exact List.pairwise_insertionSort _ scc

end ReplicaInner

end Quorums.Epaxos
