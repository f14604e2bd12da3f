import Quorums.EpaxosJobs

/-! What the executor leaves. After each operation on a replica nothing is ready any more: an instance that
is committed and was not executed waits for one that is missing or not committed. The operations that do not
run the executor cannot make an instance ready, since they only take committed records away. So it makes
no difference that one of the two commit paths runs the executor on a duplicate. -/

namespace Quorums.Epaxos

open ReplicaInner Relation Components

namespace ReplicaInner

variable {rt : Runtime} {inner inner' : ReplicaInner} {key a : Nat × Int}

/-- Nothing is ready. -/
def Idle (inner : ReplicaInner) : Prop := ∀ key, ¬inner.Ready key

/-- A path of dependencies leads through committed instances that were not executed to one that was not
executed either, and is missing or not committed. -/
def Blocked (inner : ReplicaInner) (key : Nat × Int) : Prop :=
  ∃ b, ReflTransGen inner.Needs key b ∧ ¬inner.Done b ∧
    ∀ inst, inner.recordOf b = some inst → inst.status ≠ .committed

theorem nonneg_of_reach {b : Nat × Int} (hkey : 0 ≤ key.2) (h : ReflTransGen inner.Needs key b) : 0 ≤ b.2 := by
  cases h with
  | refl => exact hkey
  | tail _ hlast =>
      obtain ⟨-, inst, -, -, hnonneg⟩ := hlast
      exact hnonneg

theorem blocked_iff_not_ready (hlive : inner.Live key) : inner.Blocked key ↔ ¬inner.Ready key := by
  constructor
  · rintro ⟨b, hreach, hnot, hrecord⟩ hready
    rcases hready.2 b hreach with hdone | ⟨-, -, inst, hinst, hstatus⟩
    · exact hnot hdone
    · exact hrecord inst hinst hstatus
  · intro hnot
    by_contra hfree
    refine hnot ⟨hlive, fun b hreach => ?_⟩
    by_contra hneither
    refine hfree ⟨b, hreach, fun hdone => hneither (Or.inl hdone), fun inst hinst hstatus => ?_⟩
    exact hneither (Or.inr ⟨nonneg_of_reach hlive.1 hreach, fun hdone => hneither (Or.inl hdone),
      inst, hinst, hstatus⟩)

/-- The marks stay, and what is committed was so before. -/
structure Fewer (inner inner' : ReplicaInner) : Prop where
  n_eq : inner'.n = inner.n
  done : ∀ a, inner'.Done a ↔ inner.Done a
  records : ∀ a inst, inner'.recordOf a = some inst → inst.status = .committed → inner.recordOf a = some inst

theorem Fewer.live (h : Fewer inner inner') (ha : inner'.Live a) : inner.Live a := by
  obtain ⟨hnonneg, hnot, inst, hinst, hstatus⟩ := ha
  exact ⟨hnonneg, fun hd => hnot ((h.done a).mpr hd), inst, h.records a inst hinst hstatus, hstatus⟩

/-- Then nothing became ready. -/
theorem Ready.of_fewer (hfewer : Fewer inner inner') (h : inner'.Ready key) : inner.Ready key := by
  -- what is needed before is needed after, since what lies on the way is still committed
  have hreach {b : Nat × Int} (hb : ReflTransGen inner.Needs key b) : ReflTransGen inner'.Needs key b := by
    induction hb with
    | refl => exact .refl
    | @tail c d _ hcd ih =>
        rcases h.2 c ih with hdone' | hlive'
        · exact absurd ((hfewer.done c).mp hdone') hcd.1.2.1
        · obtain ⟨inst, hinst, hdep⟩ := hcd.2
          have hkept := hlive'
          obtain ⟨-, -, inst', hinst', hstatus'⟩ := hkept
          cases hinst.symm.trans (hfewer.records c inst' hinst' hstatus')
          exact ih.tail ⟨hlive', inst, hinst', hdep⟩
  refine ⟨hfewer.live h.1, fun b hb => ?_⟩
  rcases h.2 b (hreach hb) with hdone' | hlive'
  · exact Or.inl ((hfewer.done b).mp hdone')
  · exact Or.inr (hfewer.live hlive')

theorem Idle.of_fewer (hfewer : Fewer inner inner') (h : inner.Idle) : inner'.Idle :=
  fun key hready => h key (hready.of_fewer hfewer)

theorem done_congr (h : ∀ r s, inner'.isExecuted r s = inner.isExecuted r s) (a : Nat × Int) :
    inner'.Done a ↔ inner.Done a := by
  rw [Done, Done, h]

theorem Opens.fewer {r : Nat} {slot : Int} (h : Opens r slot inner inner') : Fewer inner inner' where
  n_eq := h.n_eq
  done := done_congr h.executed
  records a inst hinst hstatus := by
    rcases h.cases_record hinst with hold | hnew
    · exact hold
    · rw [hnew] at hstatus
      cases hstatus

/-- A record that is not committed is written. -/
theorem Opens.fewer_write {opened : ReplicaInner} {r : Nat} {slot : Int} (h : Opens r slot inner opened)
    (hslot : 0 ≤ slot) {inst : Instance} (hstatus : inst.status ≠ .committed) {conflicts : Conflicts} :
    Fewer inner ({ opened with conflicts }.setInstance r slot.toNat inst) where
  n_eq := h.n_eq
  done := done_congr h.executed
  records a x hx hcommitted := by
    have hrecord : (if a.1 = r ∧ a.2.toNat = slot.toNat then some inst else opened.instance? a.1 a.2.toNat) =
        some x := (instance?_write h hslot inst a.1 a.2.toNat).symm.trans hx
    split at hrecord
    · cases hrecord
      exact absurd hcommitted hstatus
    · exact h.fewer.records a x hrecord hcommitted

/-- Once everything that was ready is executed, nothing is. -/
theorem idle_of_executed (hdone : ∀ a, inner'.Done a ↔ inner.Done a ∨ inner.Ready a)
    (hrecords : ∀ a, inner'.recordOf a = inner.recordOf a) : inner'.Idle := by
  intro key h
  have hlive {a : Nat × Int} (ha : inner'.Live a) : inner.Live a := by
    obtain ⟨hnonneg, hnot, inst, hinst, hstatus⟩ := ha
    exact ⟨hnonneg, fun hd => hnot ((hdone a).mpr (Or.inl hd)), inst, by rw [← hrecords]; exact hinst, hstatus⟩
  -- on the way from `key` everything was executed, or ready, or is needed still
  have hreach {b : Nat × Int} (hb : ReflTransGen inner.Needs key b) :
      inner.Done b ∨ inner.Ready b ∨ inner'.Live b ∧ ReflTransGen inner'.Needs key b := by
    induction hb with
    | refl => exact Or.inr (Or.inr ⟨h.1, .refl⟩)
    | @tail c d _ hcd ih =>
        rcases ih with hc | hc | ⟨hc, hpath⟩
        · exact absurd hc hcd.1.2.1
        · exact (hc.needs hcd).imp_right Or.inl
        · obtain ⟨inst, hinst, hdep⟩ := hcd.2
          have hneeds : inner'.Needs c d := ⟨hc, inst, by rw [hrecords]; exact hinst, hdep⟩
          rcases h.2 d (hpath.tail hneeds) with hd | hd
          · exact ((hdone d).mp hd).imp_right Or.inl
          · exact Or.inr (Or.inr ⟨hd, hpath.tail hneeds⟩)
  have hready : inner.Ready key := by
    refine ⟨hlive h.1, fun b hb => ?_⟩
    rcases hreach hb with hd | hr | ⟨hl, -⟩
    · exact Or.inl hd
    · exact Or.inr hr.1
    · exact Or.inr (hlive hl)
  exact h.1.2.1 ((hdone key).mpr (Or.inr hready))

theorem recordOf_executeAllReady (h : inner.executeAllReady rt = some inner') (a : Nat × Int) :
    inner'.recordOf a = inner.recordOf a := by
  rw [recordOf, instance?, instances_executeAllReady h]
  rfl

/-- A run of the executor executes what is ready. -/
theorem done_executeAllReady (h : inner.Shaped) (hrt : rt.Faithful)
    (hresult : inner.executeAllReady rt = some inner') (a : Nat × Int) :
    inner'.Done a ↔ inner.Done a ∨ inner.Ready a := by
  obtain ⟨nodes, groups, hgroups, hruns⟩ := groups_spec h hrt
  have hready (a : Nat × Int) : a ∈ groups.flatten ↔ inner.Ready a := by
    rw [hruns.scc.perm.mem_iff, hruns.ready]
  have hexec := executes h (hruns.scc.perm.nodup_iff.mpr hruns.nodup) fun a ha => ((hready a).mp ha).1
  rw [executeAllReady_eq, hgroups, Option.map_some] at hresult
  cases hresult
  rw [hexec.done, hready]

theorem idle_executeAllReady (h : inner.Shaped) (hrt : rt.Faithful)
    (hresult : inner.executeAllReady rt = some inner') : inner'.Idle :=
  idle_of_executed (done_executeAllReady h hrt hresult) (recordOf_executeAllReady hresult)

end ReplicaInner

/-! ### Operations -/

section Operations

variable {rt : Runtime} {inner inner' : ReplicaInner} {op : Op}

theorem Op.idle_apply (h : inner.Shaped) (hidle : inner.Idle) (hrt : rt.Faithful)
    (hop : op.WellFormed inner.n) (hstep : op.apply rt inner = some inner') : inner'.Idle := by
  cases op with
  | preAccept req =>
      obtain ⟨⟨next, reply⟩, hhandle, rfl⟩ := Option.map_eq_some_iff.mp hstep
      obtain ⟨-, hslot, hregisters⟩ := registers_of_handle h.framed hop.2.2.2.1 hhandle
      cases hregisters with
      | mk hopens => exact hidle.of_fewer (hopens.fewer_write hslot Status.noConfusion)
  | accept req =>
      obtain ⟨hr, hlt, hslot, -⟩ := hop
      obtain ⟨opened, hopens, hhandle⟩ := accept_opens h.framed (asUsize_lt hr hlt) hslot
      rw [Op.apply, hhandle] at hstep
      cases hstep
      exact hidle.of_fewer (hopens.fewer_write hslot Status.noConfusion)
  | commit req =>
      obtain ⟨hr, hlt, hslot, -, hdeps⟩ := hop
      obtain ⟨mid, duplicate, hrecord, hrecords⟩ := exists_recordCommit h (asUsize_lt hr hlt) hslot req.value
      simp only [Op.apply, handleCommitInner, hrecord, Option.bind_eq_bind, Option.bind_some] at hstep
      cases hrecords with
      | duplicate hgrown =>
          cases hstep
          exact hidle.of_fewer hgrown.opens.fewer
      | written hgrown hinst hstatus =>
          exact idle_executeAllReady ((RecordsCommit.written hgrown hinst hstatus).shaped hdeps) hrt hstep
  | commitLocal r slot v =>
      obtain ⟨hr, hslot, -, hdeps⟩ := hop
      obtain ⟨mid, duplicate, hrecord, hrecords⟩ := exists_recordCommit h hr hslot v
      simp only [Op.apply, Epaxos.commitLocal, hrecord, Option.bind_eq_bind, Option.bind_some] at hstep
      exact idle_executeAllReady (hrecords.shaped hdeps) hrt hstep

theorem idle_new (id n : Nat) : (ReplicaInner.new id n).Idle := by
  rintro key ⟨⟨-, -, inst, hinst, -⟩, -⟩
  rw [recordOf, instance?] at hinst
  obtain ⟨row, hrow, hs⟩ := Option.bind_eq_some_iff.mp hinst
  rw [(List.mem_replicate.mp (List.mem_of_getElem? hrow)).2] at hs
  cases hs

end Operations

/-- The executor is complete and never premature. Every sequence of operations on a replica goes through,
so every search ends; after it, each instance that is committed and was not executed is blocked, and each
instance that was executed was not blocked in the run of the executor that did so. -/
theorem executor_complete {rt : Runtime} (hrt : rt.Faithful) (id n : Nat) {ops : List Op}
    (hops : ∀ op ∈ ops, op.WellFormed n)
    (hseq : Transition.Within (Op.apply rt) (fun inner op => op.SeqFits inner) (ReplicaInner.new id n) ops) :
    ∃ inner log,
      Transition.run (Op.applyLogged rt) (ReplicaInner.new id n, []) ops = some (inner, log) ∧
      Transition.run (Op.apply rt) (ReplicaInner.new id n) ops = some inner ∧
      (∀ key, inner.Live key → inner.Blocked key) ∧
      (∀ key, inner.Done key ↔ key ∈ (entries log).map Applied.key) ∧
      ∀ e ∈ log, ∀ a ∈ e.applied, e.before.Live a.key ∧ ¬e.before.Blocked a.key := by
  obtain ⟨⟨inner, log⟩, hrun, hinv⟩ := (logInv_new rt id n).run hrt hops hseq
  have hplain : Transition.run (Op.apply rt) (ReplicaInner.new id n) ops = some inner := by
    rw [← Transition.run_map (fun st op => Op.map_applyLogged rt st op) (ReplicaInner.new id n, []) ops,
      hrun, Option.map_some]
  have hwithin : Transition.Within (Op.applyLogged rt) (fun st op => op.WellFormed n ∧ op.SeqFits st.1)
      (ReplicaInner.new id n, []) ops :=
    (Transition.within_of_forall hops).and
      (Transition.within_map (fun st op => Op.map_applyLogged rt st op) hseq)
  have hidle : LogInv rt id n (inner, log) ∧ inner.Idle := by
    refine Transition.run_invariant_within (P := fun st => LogInv rt id n st ∧ st.1.Idle)
      (fun st op st' hst hop hstep => ?_) ⟨logInv_new rt id n, idle_new id n⟩ hwithin hrun
    obtain ⟨next, hnext, hinv'⟩ := hst.1.step hrt hop.1 hop.2
    cases hnext.symm.trans hstep
    refine ⟨hinv', Op.idle_apply hst.1.shaped hst.2 hrt (by rw [hst.1.n_eq]; exact hop.1) ?_⟩
    rw [← Op.map_applyLogged, hstep, Option.map_some]
  refine ⟨inner, log, hrun, hplain, fun key hlive => ?_, hinv.done, fun e he a ha => ?_⟩
  · exact (blocked_iff_not_ready hlive).mpr (hidle.2 key)
  · obtain ⟨pre, post, hsplit⟩ := List.append_of_mem he
    obtain ⟨-, nodes, groups, hruns, happlied⟩ := hinv.runs pre e post hsplit
    rw [happlied] at ha
    obtain ⟨key, hkey, rfl⟩ := List.mem_map.mp ha
    have hready : e.before.Ready key := (hruns.ready key).mp (hruns.scc.perm.subset hkey)
    exact ⟨hready.1, fun hblocked => (blocked_iff_not_ready hready.1).mp hblocked hready⟩

theorem executor_complete_cycleOps : ∃ inner log,
    Transition.run (Op.applyLogged sccRuntime) (ReplicaInner.new 0 2, []) cycleOps = some (inner, log) ∧
      (∀ key, inner.Live key → inner.Blocked key) ∧
      ∀ e ∈ log, ∀ a ∈ e.applied, e.before.Live a.key ∧ ¬e.before.Blocked a.key := by
  have hops : ∀ op ∈ cycleOps, op.WellFormed 2 := by simp [cycleOps, Op.WellFormed]
  obtain ⟨inner, log, hrun, -, hblocked, -, hfree⟩ := executor_complete faithful_sccRuntime 0 2 hops
    ⟨trivial, fun _ _ => ⟨trivial, fun _ _ => trivial⟩⟩
  exact ⟨inner, log, hrun, hblocked, hfree⟩

/-- A path to an instance that is missing or not committed, whether it was executed or not. -/
def ReplicaInner.Waits (inner : ReplicaInner) (key : Nat × Int) : Prop :=
  ∃ b, ReflTransGen inner.Needs key b ∧ ∀ inst, inner.recordOf b = some inst → inst.status ≠ .committed

/-- A runtime that fits and that can be followed as long as one instance is ready at a time. -/
noncomputable def singleRuntime : Runtime :=
  ⟨true, fun keys => keys, fun n edges =>
    if n ≤ 1 then (List.range n).map fun i => [i] else sccOrder (List.range n) fun a b => (a, b) ∈ edges⟩

theorem faithful_singleRuntime : singleRuntime.Faithful := by
  refine ⟨fun keys => List.Perm.refl keys, fun n edges _ => ?_⟩
  show SccOrder _ _ (if n ≤ 1 then _ else _)
  by_cases hn : n ≤ 1
  · rw [if_pos hn]
    have hsame {a b : Nat} (ha : a ∈ List.range n) (hb : b ∈ List.range n) : a = b := by
      rw [List.mem_range] at ha hb
      omega
    have hflat : ((List.range n).map fun i => [i]).flatten = List.range n := by
      rw [← List.flatMap_def, List.flatMap_singleton']
    refine ⟨.of_eq hflat, fun scc hscc a ha b hb => ?_, fun pre scc post hsplit a ha b hb _ => ?_⟩
    · obtain ⟨i, hi, rfl⟩ := List.mem_map.mp hscc
      obtain rfl := List.mem_singleton.mp ha
      obtain rfl := hsame hb hi
      exact iff_of_true List.mem_cons_self (Mutual.refl _ _)
    · have hscc : scc ∈ (List.range n).map fun i => [i] := by rw [hsplit]; simp
      obtain ⟨i, hi, rfl⟩ := List.mem_map.mp hscc
      exact Or.inr (List.mem_singleton.mpr (hsame hb hi))
  · rw [if_neg hn]
    exact sccOrder_spec ..

/-- An instance is committed and executed, its record is overwritten by a delayed Accept, and an instance
that depends on it is committed. -/
def overwrittenDependency : List Op :=
  [.commit ⟨0, 0, 0, [putX], 1, [-1, -1]⟩, .accept ⟨0, 0, 0, 0, 1, [-1, -1], [putX]⟩,
    .commit ⟨1, 1, 0, [putX], 2, [0, -1]⟩]

theorem executed_waits_overwrittenDependency : singleRuntime.Faithful ∧
    (∀ op ∈ overwrittenDependency, op.WellFormed 2) ∧
    ∃ inner log, Transition.run (Op.applyLogged singleRuntime) (ReplicaInner.new 0 2, [])
        overwrittenDependency = some (inner, log) ∧
      ∃ e ∈ log, ∃ a ∈ e.applied, e.before.Waits a.key := by
  refine ⟨faithful_singleRuntime, by simp [overwrittenDependency, Op.WellFormed], _, _, rfl, _,
    List.mem_cons_of_mem _ List.mem_cons_self, _, List.mem_cons_self, (0, 0), ?_, ?_⟩
  · refine .single ⟨⟨Int.zero_le_ofNat 0, fun hdone => ?_, _, rfl, rfl⟩, _, rfl, rfl, le_rfl⟩
    cases hdone.2
  · intro inst hinst
    cases hinst
    exact Status.noConfusion

/-! ### Dependencies of any length

A message may carry a dependency vector of any length. The executor reads the first `n` entries of those it
gets to, and panics where one is missing. -/

/-- The record with one dependency for each replica. -/
def Instance.cut (n : Nat) (inst : Instance) : Instance := { inst with deps := resize n inst.deps }

namespace ReplicaInner

variable {rt : Runtime} {inner inner' : ReplicaInner} {key a : Nat × Int}

/-- The replica with one dependency for each replica in every record. -/
def trim (inner : ReplicaInner) : ReplicaInner :=
  { inner with instances := inner.instances.map fun row => row.map (Instance.cut inner.n) }

/-- The instances that wait for their execution have the dependencies that the executor reads. -/
def Readable (inner : ReplicaInner) : Prop :=
  ∀ key inst, inner.Live key → inner.recordOf key = some inst → inner.n ≤ inst.deps.length

theorem instance?_trim (inner : ReplicaInner) (r s : Nat) :
    inner.trim.instance? r s = (inner.instance? r s).map (Instance.cut inner.n) := by
  rw [instance?, instance?, trim, List.getElem?_map]
  cases inner.instances[r]? with
  | none => rfl
  | some row => exact List.getElem?_map ..

theorem recordOf_trim (inner : ReplicaInner) (key : Nat × Int) :
    inner.trim.recordOf key = (inner.recordOf key).map (Instance.cut inner.n) := instance?_trim inner _ _

theorem live_trim : inner.trim.Live key ↔ inner.Live key := by
  constructor
  · rintro ⟨hnonneg, hnot, inst, hinst, hstatus⟩
    rw [recordOf_trim] at hinst
    obtain ⟨old, hold, rfl⟩ := Option.map_eq_some_iff.mp hinst
    exact ⟨hnonneg, hnot, old, hold, hstatus⟩
  · rintro ⟨hnonneg, hnot, inst, hinst, hstatus⟩
    exact ⟨hnonneg, hnot, inst.cut inner.n, by rw [recordOf_trim, hinst, Option.map_some], hstatus⟩

theorem Framed.shaped_trim (h : inner.Framed) : inner.trim.Shaped where
  rows := (List.length_map ..).trans h.rows
  marks := by
    refine h.marks.trans ?_
    rw [trim, List.map_map]
    exact List.map_congr_left fun row _ => (List.length_map ..).symm
  deps r s inst hinst := by
    rw [instance?_trim] at hinst
    obtain ⟨old, -, rfl⟩ := Option.map_eq_some_iff.mp hinst
    exact length_resize ..
  known := h.known

/-- Within the first `n` entries the padding is what a missing entry reads as. -/
theorem getElem?_resize {n r : Nat} (hr : r < n) (v : List Int) : (resize n v)[r]? = some (v[r]?.getD (-1)) := by
  rw [resize, List.getElem?_append, List.length_take, List.getElem?_take, List.getElem?_replicate]
  rcases Nat.lt_or_ge r v.length with hlt | hge
  · rw [if_pos (by omega), if_pos hr, List.getElem?_eq_getElem hlt, Option.getD_some]
  · rw [if_neg (by omega), if_pos (by omega), List.getElem?_eq_none hge, Option.getD_none]

theorem pending_trim (inner : ReplicaInner) : inner.trim.pending = inner.pending := by
  have hlength (r : Nat) : (inner.trim.instances[r]?.getD []).length = (inner.instances[r]?.getD []).length := by
    rw [trim, List.getElem?_map]
    cases inner.instances[r]? with
    | none => rfl
    | some row => exact List.length_map ..
  have hstatus (r s : Nat) :
      (inner.trim.instance? r s).map Instance.status = (inner.instance? r s).map Instance.status := by
    rw [instance?_trim, Option.map_map]
    rfl
  simp only [pending_eq, hlength, hstatus]
  rfl

theorem searchFuel_trim (inner : ReplicaInner) : inner.trim.searchFuel = inner.searchFuel := by
  have hlengths : inner.trim.instances.map List.length = inner.instances.map List.length := by
    rw [trim, List.map_map]
    exact List.map_congr_left fun row _ => List.length_map ..
  rw [searchFuel, hlengths]
  rfl

/-- Where the executor can read the dependencies, the search goes by the first `n` of them. -/
theorem search_trim (h : inner.Readable) (fuel : Nat) (stack visited : List (Nat × Int)) :
    search inner.trim fuel stack visited = search inner fuel stack visited := by
  induction fuel generalizing stack visited with
  | zero => rfl
  | succ fuel ih =>
      cases stack with
      | nil => rfl
      | cons key stack =>
          obtain ⟨dr, ds⟩ := key
          rw [search, search]
          by_cases hneg : ds < 0
          · rw [if_pos hneg, if_pos hneg, ih]
          rw [if_neg hneg, if_neg hneg]
          by_cases hseen : (dr, ds) ∈ visited
          · rw [if_pos hseen, if_pos hseen, ih]
          rw [if_neg hseen, if_neg hseen]
          have hexecuted : inner.trim.isExecuted dr ds.toNat = inner.isExecuted dr ds.toNat := rfl
          rw [hexecuted]
          by_cases hdone : inner.isExecuted dr ds.toNat
          · rw [if_pos hdone, if_pos hdone, ih]
          rw [if_neg hdone, if_neg hdone, instance?_trim]
          cases hinst : inner.instance? dr ds.toNat with
          | none => rfl
          | some inst =>
              by_cases hstatus : inst.status = .committed
              · have hlive : inner.Live (dr, ds) :=
                  ⟨Int.not_lt.mp hneg, fun hd => hdone hd.2, inst, hinst, hstatus⟩
                have hlen := h (dr, ds) inst hlive hinst
                have hget (r : Nat) (hr : r ∈ List.range inner.n) :
                    (inst.cut inner.n).deps[r]? = inst.deps[r]? := by
                  rw [List.mem_range] at hr
                  rw [Instance.cut, getElem?_resize hr, List.getElem?_eq_getElem (hr.trans_le hlen),
                    Option.getD_some]
                have hpushes : (List.range inner.n).foldlM (fun stack r => do
                      let d ← (inst.cut inner.n).deps[r]?
                      return if d ≥ 0 then (r, d) :: stack else stack) stack =
                    (List.range inner.n).foldlM (fun stack r => do
                      let d ← inst.deps[r]?
                      return if d ≥ 0 then (r, d) :: stack else stack) stack :=
                  PartialLoop.foldlM_congr (fun stack r hr => by rw [hget r hr]) stack
                have hstatus' : (inst.cut inner.n).status = .committed := hstatus
                simp only [Option.map_some, hstatus, hstatus', ne_eq, not_true_eq_false, if_false]
                refine Eq.trans (congrArg (· >>= _) hpushes) (congrArg _ (funext fun next => ih next _))
              · have hstatus' : (inst.cut inner.n).status ≠ .committed := hstatus
                simp only [Option.map_some, ne_eq, hstatus, hstatus', not_false_eq_true, if_true]

theorem ready_trim (h : inner.Readable) : inner.trim.ready = inner.ready := by
  rw [ready, ready, pending_trim, searchFuel_trim]
  refine congrArg (· >>= _) (PartialLoop.mapM_congr fun key _ => ?_)
  rw [search_trim h]

theorem edges_trim (inner : ReplicaInner) (readyVec : List (Nat × Int)) :
    inner.trim.edges readyVec = inner.edges readyVec := by
  rw [edges, edges]
  refine List.flatMap_congr fun key _ => List.filterMap_congr fun r hr => ?_
  have hr : r < inner.n := List.mem_range.mp hr
  have hdep : (((inner.trim.instance? key.1 key.2.toNat).map Instance.deps).getD [])[r]?.getD (-1) =
      (((inner.instance? key.1 key.2.toNat).map Instance.deps).getD [])[r]?.getD (-1) := by
    rw [instance?_trim]
    cases inner.instance? key.1 key.2.toNat with
    | none => rfl
    | some inst =>
        show (resize inner.n inst.deps)[r]?.getD (-1) = inst.deps[r]?.getD (-1)
        rw [getElem?_resize hr, Option.getD_some]
  simp only [hdep]

theorem groups_trim (h : inner.Readable) : inner.trim.groups rt = inner.groups rt := by
  have hseq : inner.trim.seqOf = inner.seqOf := by
    funext key
    rw [seqOf, seqOf, instance?_trim, Option.map_map]
    rfl
  simp only [groups, ready_trim h, edges_trim, hseq]

theorem execute_trim (inner : ReplicaInner) (key : Nat × Int) :
    inner.trim.execute key = (inner.execute key).trim := by
  have hcmds : (inner.trim.instance? key.1 key.2.toNat).map Instance.cmds =
      (inner.instance? key.1 key.2.toNat).map Instance.cmds := by
    rw [instance?_trim, Option.map_map]
    rfl
  have hexecuted : inner.trim.isExecuted key.1 key.2.toNat = inner.isExecuted key.1 key.2.toNat := rfl
  rw [execute, execute]
  dsimp only
  rw [hexecuted, hcmds]
  split <;> rfl

theorem foldl_execute_trim (keys : List (Nat × Int)) (inner : ReplicaInner) :
    keys.foldl execute inner.trim = (keys.foldl execute inner).trim := by
  induction keys generalizing inner with
  | nil => rfl
  | cons key keys ih => rw [List.foldl_cons, List.foldl_cons, execute_trim, ih]

theorem executeAllReady_trim (h : inner.Readable) :
    inner.trim.executeAllReady rt = (inner.executeAllReady rt).map trim := by
  rw [executeAllReady_eq, executeAllReady_eq, groups_trim h, Option.map_map]
  exact congrArg (Option.map · _) (funext fun groups => foldl_execute_trim groups.flatten inner)

/-- The executor returns only if it could read what it looked at, and it looks at all that is pending. -/
theorem readable_of_executeAllReady (h : inner.Framed) (hresult : inner.executeAllReady rt = some inner') :
    inner.Readable := by
  intro key inst hlive hrecord
  rw [executeAllReady, Option.bind_eq_bind, Option.bind_eq_some_iff] at hresult
  obtain ⟨keys, hready, -⟩ := hresult
  rw [ready, Option.bind_eq_bind, Option.bind_eq_some_iff] at hready
  obtain ⟨verdicts, hverdicts, -⟩ := hready
  have hpending : key ∈ inner.pending := by
    rw [← pending_trim, mem_pending h.shaped_trim, live_trim]
    exact hlive
  obtain ⟨verdict, hverdict⟩ := PartialLoop.exists_of_mapM hverdicts hpending
  obtain ⟨ok, hsearch, -⟩ := Option.bind_eq_some_iff.mp hverdict
  obtain ⟨hnonneg, hnot, inst', hrecord', hstatus⟩ := hlive
  cases hrecord.symm.trans hrecord'
  have hdone : ¬inner.isExecuted key.1 key.2.toNat := fun hd => hnot ⟨hnonneg, hd⟩
  have hinst : inner.instance? key.1 key.2.toNat = some inst := hrecord
  -- the first pass of the search reads the dependencies
  rw [searchFuel, search, if_neg (by omega), if_neg List.not_mem_nil, if_neg hdone, hinst] at hsearch
  simp only [hstatus, ne_eq, not_true_eq_false, if_false] at hsearch
  obtain ⟨stack, hpushes, -⟩ := Option.bind_eq_some_iff.mp hsearch
  by_contra hshort
  obtain ⟨stack', hsome⟩ := PartialLoop.exists_of_foldlM hpushes
    (List.mem_range.mpr (Nat.lt_of_not_le hshort))
  rw [List.getElem?_eq_none le_rfl] at hsome
  cases hsome

/-- What holds between two jobs of a replica whose lock is not poisoned. -/
def Resting (inner : ReplicaInner) : Prop := inner.Readable ∧ inner.trim.Idle

theorem Fewer.trim (h : Fewer inner inner') : Fewer inner.trim inner'.trim where
  n_eq := h.n_eq
  done := h.done
  records a inst hinst hstatus := by
    rw [recordOf_trim] at hinst
    obtain ⟨old, hold, rfl⟩ := Option.map_eq_some_iff.mp hinst
    rw [recordOf_trim, h.records a old hold hstatus, h.n_eq, Option.map_some]

theorem Resting.of_fewer (hfewer : Fewer inner inner') (h : inner.Resting) : inner'.Resting := by
  refine ⟨fun key inst hlive hrecord => ?_, h.2.of_fewer hfewer.trim⟩
  have hbefore := hfewer.live hlive
  obtain ⟨-, -, inst', hrecord', hstatus⟩ := hlive
  cases hrecord.symm.trans hrecord'
  rw [hfewer.n_eq]
  exact h.1 key inst hbefore (hfewer.records key inst hrecord hstatus)

theorem resting_executeAllReady (h : inner.Framed) (hrt : rt.Faithful)
    (hresult : inner.executeAllReady rt = some inner') : inner'.Resting := by
  have hreadable := readable_of_executeAllReady h hresult
  have htrim : inner.trim.executeAllReady rt = some inner'.trim := by
    rw [executeAllReady_trim hreadable, hresult, Option.map_some]
  refine ⟨fun key inst hlive hrecord => ?_, idle_executeAllReady h.shaped_trim hrt htrim⟩
  have hdone := done_executeAllReady h.shaped_trim hrt htrim key
  rw [recordOf_executeAllReady hresult] at hrecord
  obtain ⟨hnonneg, hnot, inst', hrecord', hstatus⟩ := hlive
  rw [recordOf_executeAllReady hresult] at hrecord'
  rw [(frame_executeAllReady hresult).n_eq]
  exact hreadable key inst ⟨hnonneg, fun hd => hnot (hdone.mpr (Or.inl hd)), inst', hrecord', hstatus⟩ hrecord

/-- The executor has nothing to do on a replica at rest. -/
theorem Resting.executeAllReady_eq_self (hrest : inner.Resting) (h : inner.Framed) (hrt : rt.Faithful) :
    inner.executeAllReady rt = some inner := by
  obtain ⟨nodes, groups, hgroups, hruns⟩ := groups_spec h.shaped_trim hrt
  have hnone : groups.flatten = [] := List.eq_nil_iff_forall_not_mem.mpr fun key hkey =>
    hrest.2 key ((hruns.ready key).mp (hruns.scc.perm.subset hkey))
  rw [executeAllReady_eq, ← groups_trim hrest.1, hgroups, Option.map_some, hnone]
  rfl

end ReplicaInner

/-! ### The two commit paths -/

section CommitPaths

variable {rt : Runtime} {rep rep' : Replica} {job : Job} {reply : Option Reply}

/-- Every job that does not panic leaves a replica at rest. -/
theorem Works.resting (hworks : Works rt rep job rep' reply) (h : rep.inner.Framed) (hrt : rt.Faithful)
    (hrest : rep.poisoned = false → rep.inner.Resting) : rep'.poisoned = false → rep'.inner.Resting := by
  intro hlock'
  cases hworks with
  | refused hlock => exact absurd (hlock.symm.trans hlock') nofun
  | started hlock hstart =>
      obtain ⟨next, conflicts, rfl, -⟩ := touched_of_startProposal h hstart
      exact (hrest hlock).of_fewer ⟨rfl, fun _ => Iff.rfl, fun _ _ hinst _ => hinst⟩
  | startPanic | preAcceptPanic | acceptPanic | commitPanic | tryPanic => cases hlock'
  | preAccepted hlock _ hslot hregisters =>
      cases hregisters with
      | mk hopens => exact (hrest hlock).of_fewer (hopens.fewer_write hslot Status.noConfusion)
  | accepted hlock _ hslot hopens =>
      exact (hrest hlock).of_fewer (hopens.fewer_write hslot Status.noConfusion)
  | committed hlock _ _ _ hsettles _ _ _ hexecuted =>
      rcases hexecuted hlock' with ⟨hduplicate, rfl⟩ | hresult
      · cases hsettles with
        | duplicate hopens => exact (hrest hlock).of_fewer hopens.fewer
        | written => cases hduplicate
      · refine resting_executeAllReady ?_ hrt hresult
        cases hsettles with
        | duplicate hopens => exact hopens.framed
        | written hopens => exact hopens.framed.setInstance _ _ _
  | prepared hlock => exact hrest hlock
  | tried hlock => exact hrest hlock

theorem resting_new (id n : Nat) : (ReplicaInner.new id n).Resting := by
  have hnone (key : Nat × Int) : (ReplicaInner.new id n).recordOf key = none := by
    rw [recordOf, instance?, ReplicaInner.new, List.getElem?_replicate]
    split <;> rfl
  refine ⟨fun key inst _ hrecord => ?_, fun key hready => ?_⟩
  · rw [hnone] at hrecord
    cases hrecord
  · obtain ⟨-, -, inst, hrecord, -⟩ := live_trim.mp hready.1
    rw [hnone] at hrecord
    cases hrecord

theorem resting_run (hrt : rt.Faithful) (id n : Nat) {jobs : List Job} (hjobs : ∀ job ∈ jobs, job.Fits)
    (hrun : Transition.run (Replica.step rt) (Replica.new id n) jobs = some rep) :
    rep.Sized n ∧ (rep.poisoned = false → rep.inner.Resting) := by
  have hwithin : Transition.Within (Replica.step rt) (fun _ => Job.Fits) (Replica.new id n) jobs :=
    Transition.within_of_forall hjobs
  refine Transition.run_invariant_within
    (P := fun rep => rep.Sized n ∧ (rep.poisoned = false → rep.inner.Resting))
    (fun rep job rep' hrep hjob hstep => ?_) ⟨sized_new id n, fun _ => resting_new id n⟩ hwithin hrun
  have hworks : Works rt rep job _ _ := works hrep.1.1 hjob
  obtain ⟨next, hnext, hsized⟩ := hrep.1.step hjob
  cases hnext.symm.trans hstep
  cases hstep
  exact ⟨hsized, hworks.resting hrep.1.1 hrt hrep.2⟩

end CommitPaths

/-- In every state that a replica can get to, whatever the messages were, `commit_local` and the handler of
the Commit message lead to the same state. -/
theorem commit_paths_agree {rt : Runtime} (hrt : rt.Faithful) (id n : Nat) {jobs : List Job}
    (hjobs : ∀ job ∈ jobs, job.Fits) {rep : Replica}
    (hrun : Transition.run (Replica.step rt) (Replica.new id n) jobs = some rep) {r : Nat} {slot : Int}
    (hr : r < n) (hslot : 0 ≤ slot) (v : Value) (leaderId : Int) :
    (rep.work rt (.commitLocal r slot v)).1 =
      (rep.work rt (.serve (.commit ⟨leaderId, r, slot, v.cmds, v.seq, v.deps⟩))).1 := by
  obtain ⟨hsized, hrest⟩ := resting_run hrt id n hjobs hrun
  cases hlock : rep.poisoned with
  | true => simp [Replica.work, Replica.serve, hlock]
  | false =>
      rw [work_commitLocal hlock, work_commit hlock]
      have hr' : r < rep.inner.n := by rw [hsized.2]; exact hr
      obtain ⟨mid, duplicate, hrecord, hsettles⟩ := exists_settles hsized.1 hr' hslot v
      simp only [asUsize_natCast, CommitRequest.value, commitLocal, handleCommitInner, hrecord,
        Option.bind_eq_bind, Option.bind_some]
      cases hsettles with
      | written => rfl
      | duplicate hopens =>
          have hmid : mid.Resting := (hrest hlock).of_fewer hopens.fewer
          rw [hmid.executeAllReady_eq_self hopens.framed hrt]
          rfl

/-- An instance is committed that depends on one that is missing. -/
def waiting : List Job := [.serve (.commit ⟨0, 0, 0, [putX], 1, [-1, 0]⟩)]

theorem commit_paths_agree_waiting : ∃ rep,
    Transition.run (Replica.step singleRuntime) (Replica.new 0 2) waiting = some rep ∧
    (rep.work singleRuntime (.commitLocal 0 0 ⟨[putX], 1, [-1, 0]⟩)).1 =
      (rep.work singleRuntime (.serve (.commit ⟨1, (0 : Nat), 0, [putX], 1, [-1, 0]⟩))).1 := by
  have hfits : ∀ job ∈ waiting, job.Fits := by simp [waiting, Job.Fits]
  exact ⟨_, rfl, commit_paths_agree faithful_singleRuntime 0 2 hfits rfl Nat.two_pos le_rfl
    ⟨[putX], 1, [-1, 0]⟩ 1⟩

end Quorums.Epaxos
