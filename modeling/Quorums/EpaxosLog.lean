import Quorums.BaseRun
import Quorums.EpaxosSearch

/-! The log of a replica: the instances whose commands were applied, run of the executor by run, with
the records they were applied from. The log is not in the code; the executor is followed and what it
applies is written down. -/

namespace Quorums.Epaxos

open ReplicaInner Relation Components

/-- An instance whose commands were applied, with its record at that moment. -/
structure Applied where
  key : Nat × Int
  record : Instance

/-- A run of the executor: the replica it started from and what it applied. -/
structure Execution where
  before : ReplicaInner
  applied : List Applied

/-- What the runs of the executor have applied. -/
def entries (log : List Execution) : List Applied := log.flatMap Execution.applied

/-- The store after the commands of the entries. -/
def replay (inner : ReplicaInner) (applied : List Applied) : AList fun _ : String => String :=
  (applied.foldl (fun inner a => inner.applyCmds a.record.cmds) inner).store

@[simp] theorem entries_append (log : List Execution) (e : Execution) :
    entries (log ++ [e]) = entries log ++ e.applied := by
  simp [entries]

namespace ReplicaInner

variable {rt : Runtime} {inner inner' : ReplicaInner}

/-- What is applied when the executor gets to `key`: nothing if it was executed. -/
def applies (inner : ReplicaInner) (key : Nat × Int) : List Applied :=
  if inner.isExecuted key.1 key.2.toNat then []
  else ((inner.recordOf key).map fun record => ⟨key, record⟩).toList

/-- What is applied when the executor goes through the keys. -/
def appliedBy : ReplicaInner → List (Nat × Int) → List Applied
  | _, [] => []
  | inner, key :: keys => inner.applies key ++ appliedBy (inner.execute key) keys

/-- `execute_all_ready`, written down. -/
def executeLogged (rt : Runtime) (inner : ReplicaInner) (log : List Execution) :
    Option (ReplicaInner × List Execution) :=
  (inner.groups rt).map fun groups =>
    (groups.flatten.foldl execute inner, log ++ [⟨inner, inner.appliedBy groups.flatten⟩])

/-! ### One instance -/

theorem n_execute (inner : ReplicaInner) (key : Nat × Int) : (inner.execute key).n = inner.n := by
  rw [execute]
  dsimp only
  split <;> rfl

theorem recordOf_execute (inner : ReplicaInner) (key a : Nat × Int) :
    (inner.execute key).recordOf a = inner.recordOf a := by
  rw [recordOf, instance?, instances_execute]
  rfl

/-- A place with a record has a mark. -/
theorem Shaped.exists_mark (h : inner.Shaped) {key : Nat × Int} {inst : Instance}
    (hrecord : inner.recordOf key = some inst) :
    ∃ marks, inner.executed[key.1]? = some marks ∧ key.2.toNat < marks.length := by
  obtain ⟨row, hrow, hs⟩ := Option.bind_eq_some_iff.mp hrecord
  have hlen := congrArg (·[key.1]?) h.marks
  simp only [List.getElem?_map, hrow, Option.map_some] at hlen
  obtain ⟨marks, hmarks, hmarkslen⟩ := Option.map_eq_some_iff.mp hlen
  refine ⟨marks, hmarks, ?_⟩
  rw [hmarkslen]
  exact (List.getElem?_eq_some_iff.mp hs).1

theorem execute_of_live {key : Nat × Int} (hlive : inner.Live key) {record : Instance}
    (hrecord : inner.recordOf key = some record) :
    inner.execute key = { inner.applyCmds record.cmds with
      executed := inner.executed.modify key.1 (·.set key.2.toNat true) } := by
  have hnot : ¬inner.isExecuted key.1 key.2.toNat = true := fun hd => hlive.2.1 ⟨hlive.1, hd⟩
  rw [execute]
  dsimp only
  rw [if_neg hnot, show inner.instance? key.1 key.2.toNat = some record from hrecord]
  rfl

theorem shaped_execute (h : inner.Shaped) (key : Nat × Int) : (inner.execute key).Shaped := by
  have hframed := framed_execute h.framed key
  refine ⟨hframed.rows, hframed.marks, fun r s inst hinst => ?_, hframed.known⟩
  rw [instance?, instances_execute] at hinst
  rw [n_execute]
  exact h.deps r s inst hinst

/-- The mark of the instance is set, the others stay. -/
theorem done_execute (h : inner.Shaped) {key : Nat × Int} (hlive : inner.Live key) (a : Nat × Int) :
    (inner.execute key).Done a ↔ inner.Done a ∨ a = key := by
  obtain ⟨record, hrecord, -⟩ := hlive.2.2
  obtain ⟨marks, hmarks, hlt⟩ := h.exists_mark hrecord
  have hexecuted (hnonneg : 0 ≤ a.2) : (inner.execute key).isExecuted a.1 a.2.toNat =
      (inner.isExecuted a.1 a.2.toNat || decide (a = key)) := by
    rw [execute_of_live hlive hrecord]
    simp only [isExecuted, List.getElem?_modify]
    by_cases hr : key.1 = a.1
    · rw [← hr, hmarks]
      simp only [Option.map_eq_map, Option.map_some, if_true, Option.bind_some, List.getElem?_set]
      by_cases hs : key.2.toNat = a.2.toNat
      · have heq : a = key := Prod.ext hr.symm (by have := hlive.1; omega)
        simp [heq, hlt]
      · have hne : a ≠ key := fun heq => hs (by rw [heq])
        simp [hs, hne]
    · have hne : a ≠ key := fun heq => hr (by rw [heq])
      simp [hr, hne]
  by_cases hnonneg : 0 ≤ a.2
  · simp [Done, hnonneg, hexecuted hnonneg]
  · have hne : a ≠ key := by
      rintro rfl
      exact hnonneg hlive.1
    simp [Done, hnonneg, hne]

theorem live_execute (h : inner.Shaped) {key a : Nat × Int} (hlive : inner.Live key) (ha : inner.Live a)
    (hne : a ≠ key) : (inner.execute key).Live a := by
  obtain ⟨hnonneg, hnot, inst, hrecord, hstatus⟩ := ha
  refine ⟨hnonneg, ?_, inst, by rw [recordOf_execute]; exact hrecord, hstatus⟩
  rw [done_execute h hlive]
  exact fun hd => hd.elim hnot hne

/-! ### A list of instances -/

/-- The record an instance is applied from. -/
def appliedFrom (inner : ReplicaInner) (key : Nat × Int) : Applied :=
  ⟨key, (inner.recordOf key).getD (Instance.new inner.n)⟩

theorem appliedFrom_eq {key : Nat × Int} {record : Instance} (h : inner.recordOf key = some record) :
    inner.appliedFrom key = ⟨key, record⟩ := by
  rw [appliedFrom, h, Option.getD_some]

theorem appliedFrom_execute (inner : ReplicaInner) (key a : Nat × Int) :
    (inner.execute key).appliedFrom a = inner.appliedFrom a := by
  rw [appliedFrom, recordOf_execute, n_execute]
  rfl

/-- `execute` on distinct live instances: each is applied, from its record, and marked. -/
structure Executes (inner : ReplicaInner) (keys : List (Nat × Int)) (inner' : ReplicaInner) : Prop where
  shaped : inner'.Shaped
  id_eq : inner'.id = inner.id
  n_eq : inner'.n = inner.n
  done : ∀ a, inner'.Done a ↔ inner.Done a ∨ a ∈ keys
  applied : inner.appliedBy keys = keys.map inner.appliedFrom
  store : inner'.store = replay inner (keys.map inner.appliedFrom)

theorem replay_congr {store : ReplicaInner} (h : inner.store = store.store) (applied : List Applied) :
    replay inner applied = replay store applied := by
  induction applied generalizing inner store with
  | nil => exact h
  | cons a applied ih =>
      have hnext : (inner.applyCmds a.record.cmds).store = (store.applyCmds a.record.cmds).store := by
        simp only [applyCmds, h]
      exact ih hnext

theorem replay_append (inner : ReplicaInner) (applied more : List Applied) {inner' : ReplicaInner}
    (h : inner'.store = replay inner applied) :
    replay inner (applied ++ more) = replay inner' more := by
  rw [replay, List.foldl_append]
  exact replay_congr h.symm more

theorem executes (h : inner.Shaped) {keys : List (Nat × Int)} (hnodup : keys.Nodup)
    (hlive : ∀ key ∈ keys, inner.Live key) : Executes inner keys (keys.foldl execute inner) := by
  induction keys generalizing inner with
  | nil => exact ⟨h, rfl, rfl, by simp, rfl, rfl⟩
  | cons key keys ih =>
      have hkey := hlive key List.mem_cons_self
      obtain ⟨hnew, hnodup'⟩ := List.nodup_cons.mp hnodup
      have hrest := ih (shaped_execute h key) hnodup' fun a ha =>
        live_execute h hkey (hlive a (List.mem_cons_of_mem key ha)) fun heq => hnew (heq ▸ ha)
      obtain ⟨record, hrecord, -⟩ := hkey.2.2
      have hexecute := execute_of_live hkey hrecord
      have hsame : keys.map (inner.execute key).appliedFrom = keys.map inner.appliedFrom :=
        List.map_congr_left fun a _ => appliedFrom_execute inner key a
      have happlies : inner.applies key = [inner.appliedFrom key] := by
        rw [applies, if_neg fun hd => hkey.2.1 ⟨hkey.1, hd⟩, hrecord, appliedFrom_eq hrecord]
        rfl
      refine ⟨hrest.shaped, ?_, ?_, fun a => ?_, ?_, ?_⟩
      · rw [List.foldl_cons, hrest.id_eq, hexecute]
        rfl
      · rw [List.foldl_cons, hrest.n_eq, n_execute]
      · rw [List.foldl_cons, hrest.done, done_execute h hkey, List.mem_cons, or_assoc]
      · rw [appliedBy, happlies, hrest.applied, hsame]
        rfl
      · rw [List.foldl_cons, hrest.store, hsame, List.map_cons, ← List.singleton_append]
        refine (replay_append inner _ _ ?_).symm
        rw [hexecute, appliedFrom_eq hrecord]
        rfl

end ReplicaInner

/-- The order inside a run of the executor: a dependency of an applied instance was applied before it,
unless the two were mutually reachable through committed instances that were not executed; then
everything mutually reachable is applied together, by ascending `seq`. -/
def Execution.Respects (earlier : List (Nat × Int)) (e : Execution) : Prop :=
  ∀ pre a post, e.applied = pre ++ a :: post →
    e.before.recordOf a.key = some a.record ∧
    ∀ b, a.record.deps[b.1]? = some b.2 → 0 ≤ b.2 →
      (¬Mutual e.before.Follows a.key b → b ∈ earlier ++ pre.map Applied.key) ∧
      (Mutual e.before.Follows a.key b → ∃ first block last, e.applied = first ++ block ++ last ∧
        (∀ key, key ∈ block.map Applied.key ↔ Mutual e.before.Follows a.key key) ∧
        block.Pairwise fun x y => x.record.seq ≤ y.record.seq)

/-- The execution is a run of the executor on a replica that had executed what is in `earlier`. -/
def Execution.FromRun (rt : Runtime) (earlier : List (Nat × Int)) (e : Execution) : Prop :=
  (∀ key, e.before.Done key ↔ key ∈ earlier) ∧
    ∃ nodes groups, Runs rt e.before nodes groups ∧ e.applied = groups.flatten.map e.before.appliedFrom

/-- What holds of a replica and of what it has applied. -/
structure AppliedInv (id n : Nat) (inner : ReplicaInner) (applied : List Applied) : Prop where
  shaped : inner.Shaped
  n_eq : inner.n = n
  done : ∀ key, inner.Done key ↔ key ∈ applied.map Applied.key
  nodup : (applied.map Applied.key).Nodup
  store : inner.store = replay (ReplicaInner.new id n) applied

/-- What holds of a replica and its log. -/
structure LogInv (rt : Runtime) (id n : Nat) (st : ReplicaInner × List Execution) : Prop
    extends AppliedInv id n st.1 (entries st.2) where
  runs : ∀ pre e post, st.2 = pre ++ e :: post → e.FromRun rt ((entries pre).map Applied.key)

namespace ReplicaInner

variable {rt : Runtime} {inner : ReplicaInner}

/-- A split of the applied instances is a split of a group and of the groups before and after it. -/
theorem exists_group {groups : List (List (Nat × Int))} {pre post : List (Nat × Int)} {a : Nat × Int}
    (h : groups.flatten = pre ++ a :: post) :
    ∃ first group last left right, groups = first ++ group :: last ∧ group = left ++ a :: right ∧
      pre = first.flatten ++ left := by
  induction groups generalizing pre with
  | nil => simp at h
  | cons group groups ih =>
      rw [List.flatten_cons] at h
      rcases List.append_eq_append_iff.mp h with ⟨mid, rfl, hrest⟩ | ⟨mid, rfl, hrest⟩
      · obtain ⟨first, g, last, left, right, rfl, rfl, rfl⟩ := ih hrest
        exact ⟨group :: first, _, last, left, right, rfl, rfl, by simp⟩
      · cases mid with
        | nil =>
            have hrest' : groups.flatten = [] ++ a :: post := hrest.symm
            obtain ⟨first, g, last, left, right, hgroups, hg, hpre⟩ := ih hrest'
            refine ⟨(pre ++ []) :: first, g, last, left, right, by rw [hgroups]; rfl, hg, ?_⟩
            rw [List.flatten_cons, List.append_assoc, ← hpre, List.append_nil, List.append_nil]
        | cons b mid =>
            obtain ⟨rfl, rfl⟩ := List.cons.inj hrest
            exact ⟨[], _, groups, pre, mid, rfl, rfl, rfl⟩

/-- What a run of the executor applies respects the dependencies. -/
theorem Runs.respects {nodes : List (Nat × Int)} {groups : List (List (Nat × Int))}
    (h : Runs rt inner nodes groups) {earlier : List (Nat × Int)} (hearlier : ∀ key, inner.Done key → key ∈ earlier) :
    Execution.Respects earlier ⟨inner, groups.flatten.map inner.appliedFrom⟩ := by
  intro pre a post hsplit
  obtain ⟨pre', rest, hflatten, rfl, hrest⟩ := List.map_eq_append_iff.mp hsplit
  obtain ⟨key, post', rfl, rfl, rfl⟩ := List.map_eq_cons_iff.mp hrest
  have hready {b : Nat × Int} (hb : b ∈ groups.flatten) : inner.Ready b :=
    (h.ready b).mp (h.scc.perm.subset hb)
  have hkey : inner.Ready key := hready (by rw [hflatten]; simp)
  obtain ⟨record, hrecord, -⟩ := hkey.1.2.2
  rw [appliedFrom_eq hrecord]
  have hkeys (keys : List (Nat × Int)) : (keys.map inner.appliedFrom).map Applied.key = keys := by
    rw [List.map_map]
    exact List.map_id _
  obtain ⟨first, group, last, left, right, hgroups, hgroup, hpre⟩ := exists_group hflatten
  have hmem : group ∈ groups := by rw [hgroups]; simp
  have hkeygroup : key ∈ group := by rw [hgroup]; simp
  refine ⟨hrecord, fun b hdep hnonneg => ⟨fun hmutual => ?_, fun hmutual => ?_⟩⟩
  · rw [hkeys, List.mem_append]
    rcases hkey.needs ⟨hkey.1, record, hrecord, hdep, hnonneg⟩ with hdone | hb
    · exact Or.inl (hearlier b hdone)
    · -- in an earlier group, since it is in no later one and not in the same
      have hbnode := (h.ready b).mpr hb
      have hfollows : inner.Follows key b := ⟨hkey.1, hb.1, record, hrecord, hdep, hnonneg⟩
      rcases h.scc.closed first group last hgroups key hkeygroup b hbnode hfollows with hfirst | hsame
      · rw [hpre]
        exact Or.inr (List.mem_append_left _ hfirst)
      · exact absurd ((h.scc.connected group hmem key hkeygroup b hbnode).mp hsame) hmutual
  · refine ⟨first.flatten.map inner.appliedFrom, group.map inner.appliedFrom,
      last.flatten.map inner.appliedFrom, ?_, fun c => ?_, ?_⟩
    · rw [hgroups, List.flatten_append, List.flatten_cons, List.map_append, List.map_append,
        List.append_assoc]
    · rw [hkeys]
      constructor
      · intro hc
        exact (h.scc.connected group hmem key hkeygroup c (h.scc.mem_nodes hmem hc)).mp hc
      · intro hc
        have hcready := (reflTransGen_ready hkey hc.1).2
        exact (h.scc.connected group hmem key hkeygroup c ((h.ready c).mpr hcready)).mpr hc
    · rw [List.pairwise_map]
      refine (h.sorted group hmem).imp_of_mem fun {x y} hx hy hle => ?_
      have hseq {z : Nat × Int} (hz : z ∈ group) : (inner.appliedFrom z).record.seq = inner.seqOf z := by
        obtain ⟨record', hrecord', -⟩ := (hready (List.mem_flatten.mpr ⟨group, hmem, hz⟩)).1.2.2
        rw [appliedFrom_eq hrecord', seqOf, show inner.instance? z.1 z.2.toNat = some record' from hrecord']
        rfl
      rw [hseq hx, hseq hy]
      exact hle

end ReplicaInner

theorem LogInv.ordered {rt : Runtime} {id n : Nat} {st : ReplicaInner × List Execution}
    (h : LogInv rt id n st) (pre : List Execution) (e : Execution) (post : List Execution)
    (hsplit : st.2 = pre ++ e :: post) : e.Respects ((entries pre).map Applied.key) := by
  obtain ⟨hdone, nodes, groups, hruns, happlied⟩ := h.runs pre e post hsplit
  obtain ⟨before, applied⟩ := e
  dsimp only at happlied hruns hdone
  subst happlied
  exact hruns.respects fun key hkey => (hdone key).mp hkey

/-- A run of the executor applies more. -/
theorem AppliedInv.execute {rt : Runtime} {id n : Nat} {inner : ReplicaInner} {applied : List Applied}
    {nodes : List (Nat × Int)} {groups : List (List (Nat × Int))} (h : AppliedInv id n inner applied)
    (hruns : Runs rt inner nodes groups) :
    AppliedInv id n (groups.flatten.foldl execute inner) (applied ++ groups.flatten.map inner.appliedFrom) := by
  have hnodup : groups.flatten.Nodup := hruns.scc.perm.nodup_iff.mpr hruns.nodup
  have hlive : ∀ key ∈ groups.flatten, inner.Live key := fun key hkey =>
    ((hruns.ready key).mp (hruns.scc.perm.subset hkey)).1
  have hexec := executes h.shaped hnodup hlive
  have hkeys : (groups.flatten.map inner.appliedFrom).map Applied.key = groups.flatten := by
    rw [List.map_map]
    exact List.map_id _
  refine ⟨hexec.shaped, hexec.n_eq.trans h.n_eq, fun key => ?_, ?_, ?_⟩
  · rw [List.map_append, hkeys, List.mem_append, ← h.done]
    exact hexec.done key
  · rw [List.map_append, hkeys, List.nodup_append]
    refine ⟨h.nodup, hnodup, ?_⟩
    rintro a ha b hb rfl
    exact (hlive a hb).2.1 ((h.done a).mpr ha)
  · exact hexec.store.trans (replay_append _ _ _ h.store).symm

theorem LogInv.execute {rt : Runtime} {id n : Nat} {inner : ReplicaInner} {log : List Execution}
    (h : LogInv rt id n (inner, log)) (hrt : rt.Faithful) :
    ∃ st, executeLogged rt inner log = some st ∧ LogInv rt id n st := by
  obtain ⟨nodes, groups, hgroups, hruns⟩ := groups_spec h.shaped hrt
  have hlive : ∀ key ∈ groups.flatten, inner.Live key := fun key hkey =>
    ((hruns.ready key).mp (hruns.scc.perm.subset hkey)).1
  have hexec := executes h.shaped (hruns.scc.perm.nodup_iff.mpr hruns.nodup) hlive
  refine ⟨_, by rw [executeLogged, hgroups, Option.map_some], ?_, fun pre e post hsplit => ?_⟩
  · rw [entries_append, hexec.applied]
    exact h.toAppliedInv.execute hruns
  · rw [hexec.applied] at hsplit
    rcases List.eq_nil_or_concat post with rfl | ⟨post', last, rfl⟩
    · obtain ⟨rfl, hlast⟩ := List.append_inj' hsplit rfl
      cases hlast
      exact ⟨h.done, nodes, groups, hruns, rfl⟩
    · rw [List.concat_eq_append, ← List.cons_append, ← List.append_assoc] at hsplit
      exact h.runs pre e post' (List.append_inj' hsplit rfl).1

/-! ### Operations on a replica -/

/-- A message, or a call of `commit_local`. -/
inductive Op where
  | preAccept (req : Proposal)
  | accept (req : Proposal)
  | commit (req : CommitRequest)
  | commitLocal (r : Nat) (slot : Int) (v : Value)

namespace Op

def apply (rt : Runtime) (inner : ReplicaInner) : Op → Option ReplicaInner
  | .preAccept req => (handlePreAcceptInner rt inner req).map Prod.fst
  | .accept req => (handleAcceptInner inner req).map Prod.fst
  | .commit req => handleCommitInner rt inner req
  | .commitLocal r slot v => Epaxos.commitLocal rt inner r slot v

/-- The operation with the log of the replica. -/
def applyLogged (rt : Runtime) (st : ReplicaInner × List Execution) :
    Op → Option (ReplicaInner × List Execution)
  | .preAccept req => (handlePreAcceptInner rt st.1 req).map fun r => (r.1, st.2)
  | .accept req => (handleAcceptInner st.1 req).map fun r => (r.1, st.2)
  | .commit req => do
      let (inner, duplicate) ← recordCommit st.1 (asUsize req.replica) req.slot req.value
      if duplicate then return (inner, st.2) else executeLogged rt inner st.2
  | .commitLocal r slot v => do
      let (inner, _) ← recordCommit st.1 r slot v
      executeLogged rt inner st.2

theorem map_executeLogged (rt : Runtime) (inner : ReplicaInner) (log : List Execution) :
    (executeLogged rt inner log).map Prod.fst = inner.executeAllReady rt := by
  rw [executeLogged, executeAllReady_eq, Option.map_map]
  rfl

/-- Without its log this is what the code does. -/
theorem map_applyLogged (rt : Runtime) (st : ReplicaInner × List Execution) (op : Op) :
    (op.applyLogged rt st).map Prod.fst = op.apply rt st.1 := by
  cases op with
  | preAccept req =>
      rw [applyLogged, Option.map_map]
      rfl
  | accept req =>
      rw [applyLogged, Option.map_map]
      rfl
  | commit req =>
      simp only [applyLogged, apply, handleCommitInner, Option.bind_eq_bind]
      cases recordCommit st.1 (asUsize req.replica) req.slot req.value with
      | none => rfl
      | some r =>
          simp only [Option.bind_some]
          split
          · rfl
          · exact map_executeLogged rt r.1 st.2
  | commitLocal r slot v =>
      simp only [applyLogged, apply, Epaxos.commitLocal, Option.bind_eq_bind]
      cases recordCommit st.1 r slot v with
      | none => rfl
      | some r => exact map_executeLogged rt r.1 st.2

/-- The replica and the slot of the instance exist, and there is a dependency for every replica. -/
def WellFormed (n : Nat) : Op → Prop
  | .preAccept req | .accept req =>
      0 ≤ req.replica ∧ req.replica < n ∧ 0 ≤ req.slot ∧ req.slot < 2 ^ 31 ∧ req.deps.length = n
  | .commit req =>
      0 ≤ req.replica ∧ req.replica < n ∧ 0 ≤ req.slot ∧ req.slot < 2 ^ 31 ∧ req.deps.length = n
  | .commitLocal r slot v => r < n ∧ 0 ≤ slot ∧ slot < 2 ^ 31 ∧ v.deps.length = n

/-- The sequence numbers that the operation computes do not overflow. -/
def SeqFits (inner : ReplicaInner) : Op → Prop
  | .preAccept req => ReplicaInner.SeqFits inner.conflicts req.cmds
  | _ => True

end Op

theorem asUsize_lt {r : Int} {n : Nat} (h : 0 ≤ r) (hlt : r < n) : asUsize r < n := by
  rw [asUsize, if_pos h]
  omega

/-- A replica that differs in its records, its conflict map and its counter has applied the same. -/
theorem AppliedInv.of_eq {id n : Nat} {inner inner' : ReplicaInner} {applied : List Applied}
    (h : AppliedInv id n inner applied) (hshaped : inner'.Shaped) (hn : inner'.n = inner.n)
    (hstore : inner'.store = inner.store)
    (hexecuted : ∀ r s, inner'.isExecuted r s = inner.isExecuted r s) : AppliedInv id n inner' applied where
  shaped := hshaped
  n_eq := hn.trans h.n_eq
  done key := by
    rw [← h.done key, Done, Done, hexecuted]
  nodup := h.nodup
  store := hstore.trans h.store

theorem LogInv.of_eq {rt : Runtime} {id n : Nat} {inner inner' : ReplicaInner} {log : List Execution}
    (h : LogInv rt id n (inner, log)) (hshaped : inner'.Shaped) (hn : inner'.n = inner.n)
    (hstore : inner'.store = inner.store)
    (hexecuted : ∀ r s, inner'.isExecuted r s = inner.isExecuted r s) : LogInv rt id n (inner', log) :=
  ⟨h.toAppliedInv.of_eq hshaped hn hstore hexecuted, h.runs⟩

theorem LogInv.recordCommit {rt : Runtime} {id n r : Nat} {slot : Int} {v : Value} {inner inner' : ReplicaInner}
    {log : List Execution} {duplicate : Bool} (h : LogInv rt id n (inner, log))
    (hrecords : RecordsCommit inner r slot v inner' duplicate) (hv : v.deps.length = inner.n) :
    LogInv rt id n (inner', log) := by
  have hshaped := hrecords.shaped hv
  cases hrecords with
  | duplicate hgrown => exact h.of_eq hshaped hgrown.n_eq hgrown.store_eq hgrown.executed
  | written hgrown => exact h.of_eq hshaped hgrown.n_eq hgrown.store_eq hgrown.executed

theorem LogInv.step {rt : Runtime} {id n : Nat} {st : ReplicaInner × List Execution} {op : Op}
    (h : LogInv rt id n st) (hrt : rt.Faithful) (hop : op.WellFormed n) (hseq : op.SeqFits st.1) :
    ∃ st', op.applyLogged rt st = some st' ∧ LogInv rt id n st' := by
  obtain ⟨inner, log⟩ := st
  have hn : inner.n = n := h.n_eq
  subst hn
  cases op with
  | preAccept req =>
      obtain ⟨hr, hlt, hslot, hi32, -⟩ := hop
      have hfits : rt.checked = false ∨ ReplicaInner.SeqFits inner.conflicts req.cmds := Or.inr hseq
      obtain ⟨inner', reply, hhandle⟩ := exists_handlePreAccept h.shaped (asUsize_lt hr hlt) hslot hi32 hfits
      refine ⟨(inner', log), by simp only [Op.applyLogged, hhandle, Option.map_some], ?_⟩
      have hpre := preAccepts_of_handle h.shaped hi32 hhandle
      have hshaped := hpre.shaped h.shaped
      cases hpre with
      | mk hgrown => exact h.of_eq hshaped hgrown.n_eq hgrown.store_eq hgrown.executed
  | accept req =>
      obtain ⟨hr, hlt, hslot, -, hdeps⟩ := hop
      obtain ⟨grown, hgrown, hhandle⟩ := accept_eq h.shaped (asUsize_lt hr hlt) hslot
      rw [Op.applyLogged, hhandle]
      exact ⟨_, rfl, h.of_eq (hgrown.shaped.setInstance (by rw [hgrown.n_eq]; exact hdeps)) hgrown.n_eq
        hgrown.store_eq hgrown.executed⟩
  | commit req =>
      obtain ⟨hr, hlt, hslot, -, hdeps⟩ := hop
      obtain ⟨inner', duplicate, hrecord, hrecords⟩ := exists_recordCommit h.shaped
        (asUsize_lt hr hlt) hslot req.value
      have hinv := h.recordCommit hrecords hdeps
      simp only [Op.applyLogged, hrecord, Option.bind_eq_bind, Option.bind_some]
      cases duplicate with
      | true => exact ⟨(inner', log), rfl, hinv⟩
      | false => exact hinv.execute hrt
  | commitLocal r slot v =>
      obtain ⟨hr, hslot, -, hdeps⟩ := hop
      obtain ⟨inner', duplicate, hrecord, hrecords⟩ := exists_recordCommit h.shaped hr hslot v
      simp only [Op.applyLogged, hrecord, Option.bind_eq_bind, Option.bind_some]
      exact (h.recordCommit hrecords hdeps).execute hrt

theorem appliedInv_new (id n : Nat) : AppliedInv id n (ReplicaInner.new id n) [] where
  shaped := shaped_new id n
  n_eq := rfl
  done key := by
    refine iff_of_false (fun hdone => ?_) (by simp)
    have hexecuted := hdone.2
    simp only [isExecuted, ReplicaInner.new, List.getElem?_replicate] at hexecuted
    split at hexecuted <;> cases hexecuted
  nodup := List.nodup_nil
  store := rfl

theorem logInv_new (rt : Runtime) (id n : Nat) : LogInv rt id n (ReplicaInner.new id n, []) :=
  ⟨appliedInv_new id n, fun pre e post h => by simp at h⟩

theorem LogInv.run {rt : Runtime} {id n : Nat} (hrt : rt.Faithful) {ops : List Op}
    (hops : ∀ op ∈ ops, op.WellFormed n) {st : ReplicaInner × List Execution} (h : LogInv rt id n st)
    (hseq : Transition.Within (Op.apply rt) (fun inner op => op.SeqFits inner) st.1 ops) :
    ∃ st', Transition.run (Op.applyLogged rt) st ops = some st' ∧ LogInv rt id n st' := by
  induction ops generalizing st with
  | nil => exact ⟨st, rfl, h⟩
  | cons op ops ih =>
      obtain ⟨next, hnext, hinv⟩ := h.step hrt (hops op List.mem_cons_self) hseq.1
      have hstep : op.apply rt st.1 = some next.1 := by
        rw [← Op.map_applyLogged, hnext, Option.map_some]
      obtain ⟨st', hrun, hinv'⟩ := ih (fun x hx => hops x (List.mem_cons_of_mem op hx)) hinv
        (hseq.2 _ hstep)
      exact ⟨st', Transition.run_cons_eq_some.mpr ⟨next, hnext, hrun⟩, hinv'⟩

/-- Every sequence of operations on a replica goes through; no instance is applied twice, the store is
the replay of the log, and every run of the executor respects the dependencies. -/
theorem execution_log {rt : Runtime} (hrt : rt.Faithful) (id n : Nat) {ops : List Op}
    (hops : ∀ op ∈ ops, op.WellFormed n)
    (hseq : Transition.Within (Op.apply rt) (fun inner op => op.SeqFits inner) (ReplicaInner.new id n) ops) :
    ∃ inner log,
      Transition.run (Op.applyLogged rt) (ReplicaInner.new id n, []) ops = some (inner, log) ∧
      Transition.run (Op.apply rt) (ReplicaInner.new id n) ops = some inner ∧
      ((entries log).map Applied.key).Nodup ∧
      inner.store = replay (ReplicaInner.new id n) (entries log) ∧
      ∀ pre e post, log = pre ++ e :: post → e.Respects ((entries pre).map Applied.key) := by
  obtain ⟨⟨inner, log⟩, hrun, hinv⟩ := (logInv_new rt id n).run hrt hops hseq
  refine ⟨inner, log, hrun, ?_, hinv.nodup, hinv.store, hinv.ordered⟩
  rw [← Transition.run_map (fun st op => Op.map_applyLogged rt st op) (ReplicaInner.new id n, []) ops,
    hrun, Option.map_some]

/-- A runtime that lists a hash set in the order of insertion and the components of a graph in some
order that fits. -/
noncomputable def sccRuntime : Runtime :=
  ⟨true, fun keys => keys, fun n edges => sccOrder (List.range n) fun a b => (a, b) ∈ edges⟩

theorem faithful_sccRuntime : sccRuntime.Faithful :=
  ⟨fun keys => List.Perm.refl keys, fun n edges _ => sccOrder_spec (List.range n) fun a b => (a, b) ∈ edges⟩

/-- Two instances that depend on each other are committed. -/
def cycleOps : List Op :=
  [.commit ⟨0, 0, 0, [⟨1, "x", "1"⟩], 1, [-1, 0]⟩, .commitLocal 1 0 ⟨[⟨1, "x", "2"⟩], 2, [0, -1]⟩]

theorem execution_log_cycleOps : ∃ inner log,
    Transition.run (Op.applyLogged sccRuntime) (ReplicaInner.new 0 2, []) cycleOps = some (inner, log) ∧
      ((entries log).map Applied.key).Nodup ∧
      inner.store = replay (ReplicaInner.new 0 2) (entries log) := by
  have hops : ∀ op ∈ cycleOps, op.WellFormed 2 := by simp [cycleOps, Op.WellFormed]
  obtain ⟨inner, log, hrun, -, hnodup, hstore, -⟩ := execution_log faithful_sccRuntime 0 2 hops
    ⟨trivial, fun _ _ => ⟨trivial, fun _ _ => trivial⟩⟩
  exact ⟨inner, log, hrun, hnodup, hstore⟩

end Quorums.Epaxos
