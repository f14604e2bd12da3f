import Quorums.EpaxosLog

/-! Two replicas that get the same commits in different orders. All runs of the executor together go
through the components of the whole dependency graph, dependencies first; inside a component the records
fix the order by their `seq`, up to ties. So the stores agree if and only if no tie decides what is left
in a key. -/

namespace Quorums.Epaxos

open ReplicaInner Relation Components

/-! ### What is left in a key -/

/-- The value that a batch leaves in a key, if it writes it. -/
def lastWrite (cmds : List Command) (k : String) : Option String :=
  cmds.foldl (fun last cmd => if cmd.operation = .put ∧ cmd.key = k then some cmd.value else last) none

def Writes (cmds : List Command) (k : String) : Prop := ∃ cmd ∈ cmds, cmd.operation = .put ∧ cmd.key = k

theorem lastWrite_append (cmds : List Command) (cmd : Command) (k : String) :
    lastWrite (cmds ++ [cmd]) k =
      if cmd.operation = .put ∧ cmd.key = k then some cmd.value else lastWrite cmds k := by
  simp only [lastWrite, List.foldl_append, List.foldl_cons, List.foldl_nil]

theorem isSome_lastWrite (cmds : List Command) (k : String) :
    (lastWrite cmds k).isSome ↔ Writes cmds k := by
  induction cmds using List.reverseRecOn with
  | nil => simp [lastWrite, Writes]
  | append_singleton cmds cmd ih =>
      rw [lastWrite_append]
      by_cases hput : cmd.operation = .put ∧ cmd.key = k
      · rw [if_pos hput]
        exact iff_of_true rfl ⟨cmd, by simp, hput⟩
      · rw [if_neg hput, ih]
        constructor
        · rintro ⟨x, hx, hxput⟩
          exact ⟨x, List.mem_append_left _ hx, hxput⟩
        · rintro ⟨x, hx, hxput⟩
          rcases List.mem_append.mp hx with hx | hx
          · exact ⟨x, hx, hxput⟩
          · rw [List.mem_singleton.mp hx] at hxput
            exact absurd hxput hput

theorem lookup_applyCmds (inner : ReplicaInner) (cmds : List Command) (k : String) :
    (inner.applyCmds cmds).store.lookup k = (lastWrite cmds k).or (inner.store.lookup k) := by
  induction cmds using List.reverseRecOn with
  | nil => rfl
  | append_singleton cmds cmd ih =>
      rw [lastWrite_append]
      simp only [applyCmds, List.foldl_append, List.foldl_cons, List.foldl_nil] at ih ⊢
      cases hop : cmd.operation with
      | put =>
          by_cases hkey : cmd.key = k
          · simp [hkey]
          · rw [if_neg fun h => hkey h.2, ← ih]
            exact AList.lookup_insert_ne fun h => hkey h.symm
      | get | nop => simpa using ih

theorem lookup_replay_append (inner : ReplicaInner) (applied : List Applied) (a : Applied) (k : String) :
    (replay inner (applied ++ [a])).lookup k =
      (lastWrite a.record.cmds k).or ((replay inner applied).lookup k) := by
  rw [replay, List.foldl_append]
  exact lookup_applyCmds _ _ k

/-! ### Records and their graph -/

def CommitRequest.key (req : CommitRequest) : Nat × Int := (asUsize req.replica, req.slot)

/-- The dependencies between the records. -/
def Edge (recs : List CommitRequest) (a b : Nat × Int) : Prop :=
  ∃ req ∈ recs, req.key = a ∧ req.deps[b.1]? = some b.2 ∧ 0 ≤ b.2

/-- Records of distinct instances with dependencies among themselves; those that write a common key are
connected. -/
structure Committable (n : Nat) (recs : List CommitRequest) : Prop where
  valid : ∀ req ∈ recs, (Op.commit req).WellFormed n
  distinct : (recs.map CommitRequest.key).Nodup
  closed : ∀ a b, Edge recs a b → b ∈ recs.map CommitRequest.key
  connected : ∀ a ∈ recs, ∀ b ∈ recs, ∀ k, Writes a.cmds k → Writes b.cmds k →
    ReflTransGen (Edge recs) a.key b.key ∨ ReflTransGen (Edge recs) b.key a.key

/-- The commits are delivered to a fresh replica. -/
def deliver (rt : Runtime) (id n : Nat) (recs : List CommitRequest) : Option ReplicaInner :=
  recs.foldlM (handleCommitInner rt) (ReplicaInner.new id n)

/-- Two replicas end with the same store, whatever the order of delivery and the order in which hash sets
and components are listed on each. -/
def Converges (n : Nat) (recs : List CommitRequest) : Prop :=
  ∀ (rt rt' : Runtime), rt.Faithful → rt'.Faithful → ∀ (id id' : Nat) (order order' : List CommitRequest),
    order.Perm recs → order'.Perm recs → ∃ inner inner',
      deliver rt id n order = some inner ∧ deliver rt' id' n order' = some inner' ∧
        ∀ k, inner.store.lookup k = inner'.store.lookup k

/-- The records fix that `c` is executed after `a`: it depends on `a` and not the other way round, or
both are on a cycle and it has the larger `seq`. -/
def GoesAfter (recs : List CommitRequest) (c a : CommitRequest) : Prop :=
  ReflTransGen (Edge recs) c.key a.key ∧ (¬ReflTransGen (Edge recs) a.key c.key ∨ a.seq < c.seq)

/-- Two records on a cycle with the same `seq` leave different values in a key only if a third one that
writes the key goes after them. -/
def TiesSettled (recs : List CommitRequest) : Prop :=
  ∀ k, ∀ a ∈ recs, ∀ b ∈ recs, Mutual (Edge recs) a.key b.key → a.seq = b.seq →
    Writes a.cmds k → Writes b.cmds k → lastWrite a.cmds k ≠ lastWrite b.cmds k →
    ∃ c ∈ recs, Writes c.cmds k ∧ GoesAfter recs c a

variable {n : Nat} {recs : List CommitRequest}

theorem Committable.eq_of_key (h : Committable n recs) {a b : CommitRequest} (ha : a ∈ recs)
    (hb : b ∈ recs) (hkey : a.key = b.key) : a = b := List.inj_on_of_nodup_map h.distinct ha hb hkey

/-! ### The runs of the executor together -/

/-- Every committed record of the replica is one of `recs`, with its value. -/
def FromRecs (recs : List CommitRequest) (inner : ReplicaInner) : Prop :=
  ∀ key inst, 0 ≤ key.2 → inner.recordOf key = some inst → inst.status = .committed →
    ∃ req ∈ recs, req.key = key ∧ inst.value = req.value

/-- The runtime puts `z` behind all instances of its component that have no larger `seq`. -/
def Prefers (rt : Runtime) (z : Nat × Int) : Prop :=
  ∀ inner nodes groups, Runs rt inner nodes groups → ∀ group ∈ groups, z ∈ group → ∀ c ∈ group, c ≠ z →
    inner.seqOf c ≤ inner.seqOf z → [c, z].Sublist group

/-- The groups of all runs of the executor so far, in the dependency graph of the records. -/
structure BlockOrder (rt : Runtime) (recs : List CommitRequest) (blocks : List (List (Nat × Int)))
    (applied : List Applied) : Prop where
  flatten : blocks.flatten = applied.map Applied.key
  values : ∀ a ∈ applied, ∃ req ∈ recs, req.key = a.key ∧ a.record.value = req.value
  connected : ∀ block ∈ blocks, ∀ a ∈ block, ∀ b, b ∈ block ↔ Mutual (Edge recs) a b
  closed : ∀ pre block post, blocks = pre ++ block :: post → ∀ a ∈ block, ∀ b, Edge recs a b →
    b ∈ pre.flatten ∨ b ∈ block
  sorted : ∀ block ∈ blocks, block.Pairwise fun a b =>
    ∀ x ∈ recs, ∀ y ∈ recs, x.key = a → y.key = b → x.seq ≤ y.seq
  ties : ∀ x ∈ recs, Prefers rt x.key → ∀ block ∈ blocks, x.key ∈ block → ∀ y ∈ recs, y.key ∈ block →
    y ≠ x → y.seq ≤ x.seq → [y.key, x.key].Sublist block

namespace BlockOrder

variable {rt : Runtime} {inner : ReplicaInner} {blocks : List (List (Nat × Int))} {applied : List Applied}
  {nodes : List (Nat × Int)} {groups : List (List (Nat × Int))}

/-- What was executed does not depend on what was not. -/
theorem reach_mem (h : BlockOrder rt recs blocks applied) {a b : Nat × Int} (ha : a ∈ blocks.flatten)
    (hab : ReflTransGen (Edge recs) a b) : b ∈ blocks.flatten := by
  induction hab with
  | refl => exact ha
  | @tail x y _ hxy ih =>
      obtain ⟨block, hblock, hx⟩ := List.mem_flatten.mp ih
      obtain ⟨pre, post, hsplit⟩ := List.append_of_mem hblock
      rw [hsplit, List.flatten_append, List.flatten_cons]
      rcases h.closed pre block post hsplit x hx y hxy with hy | hy
      · exact List.mem_append_left _ hy
      · exact List.mem_append_right _ (List.mem_append_left _ hy)

theorem exists_record (hfrom : FromRecs recs inner) {a : Nat × Int} (hlive : inner.Live a) :
    ∃ inst, ∃ req ∈ recs, inner.recordOf a = some inst ∧ req.key = a ∧ inst.value = req.value := by
  obtain ⟨hnonneg, -, inst, hrecord, hstatus⟩ := hlive
  obtain ⟨req, hreq, hkey, hvalue⟩ := hfrom a inst hnonneg hrecord hstatus
  exact ⟨inst, req, hreq, hrecord, hkey, hvalue⟩

theorem dependsOn_iff (hrecs : Committable n recs) (hfrom : FromRecs recs inner) {a : Nat × Int}
    (hlive : inner.Live a) (b : Nat × Int) : inner.DependsOn a b ↔ Edge recs a b := by
  obtain ⟨inst, req, hreq, hrecord, hkey, hvalue⟩ := exists_record hfrom hlive
  have hdeps : inst.deps = req.deps := congrArg Value.deps hvalue
  constructor
  · rintro ⟨inst', hrecord', hdep⟩
    cases hrecord.symm.trans hrecord'
    exact ⟨req, hreq, hkey, hdeps ▸ hdep⟩
  · rintro ⟨req', hreq', hkey', hdep⟩
    cases hrecs.eq_of_key hreq hreq' (hkey.trans hkey'.symm)
    exact ⟨inst, hrecord, hdeps ▸ hdep⟩

theorem seqOf_eq (hrecs : Committable n recs) (hfrom : FromRecs recs inner) {x : CommitRequest}
    (hx : x ∈ recs) (hlive : inner.Live x.key) : inner.seqOf x.key = x.seq := by
  obtain ⟨inst, req, hreq, hrecord, hkey, hvalue⟩ := exists_record hfrom hlive
  cases hrecs.eq_of_key hreq hx hkey
  rw [seqOf, show inner.instance? x.key.1 x.key.2.toNat = some inst from hrecord]
  exact congrArg Value.seq hvalue

/-- A cycle through a ready instance is ready as a whole. -/
theorem follows_of_mutual (h : BlockOrder rt recs blocks applied) (hrecs : Committable n recs)
    (hfrom : FromRecs recs inner) (hdone : ∀ key, inner.Done key ↔ key ∈ blocks.flatten)
    {a b : Nat × Int} (ha : inner.Ready a) (hab : ReflTransGen (Edge recs) a b)
    (hba : ReflTransGen (Edge recs) b a) : ReflTransGen inner.Follows a b ∧ inner.Ready b := by
  induction hab with
  | refl => exact ⟨.refl, ha⟩
  | @tail x b _ hxb ih =>
      obtain ⟨hfollows, hx⟩ := ih (.head hxb hba)
      have hdep := (dependsOn_iff hrecs hfrom hx.1 b).mpr hxb
      rcases hx.needs ⟨hx.1, hdep⟩ with hb | hb
      · -- then `a` would have been executed with it
        exact absurd ((hdone a).mpr (h.reach_mem ((hdone b).mp hb) hba)) (not_done_of_live ha.1)
      · exact ⟨hfollows.tail ⟨hx.1, hb.1, hdep⟩, hb⟩

/-- A run of the executor adds its groups. -/
theorem execute (h : BlockOrder rt recs blocks applied) (hrecs : Committable n recs)
    (hfrom : FromRecs recs inner) (hdone : ∀ key, inner.Done key ↔ key ∈ blocks.flatten)
    (hruns : Runs rt inner nodes groups) :
    BlockOrder rt recs (blocks ++ groups) (applied ++ groups.flatten.map inner.appliedFrom) := by
  have hready {group : List (Nat × Int)} (hgroup : group ∈ groups) {a : Nat × Int} (ha : a ∈ group) :
      inner.Ready a := (hruns.ready a).mp (hruns.scc.mem_nodes hgroup ha)
  have hmono {a b : Nat × Int} (hab : ReflTransGen inner.Follows a b) : ReflTransGen (Edge recs) a b := by
    induction hab with
    | refl => exact .refl
    | tail _ hstep ih => exact ih.tail ((dependsOn_iff hrecs hfrom hstep.1 _).mp hstep.2.2)
  refine ⟨?_, fun a ha => ?_, fun block hblock a ha b => ?_, fun pre block post hsplit a ha b hab => ?_,
    fun block hblock => ?_, fun x hx hprefers block hblock hxblock y hy hyblock hne hle => ?_⟩
  · rw [List.flatten_append, List.map_append, h.flatten, List.map_map]
    exact congrArg _ (List.map_id _).symm
  · rcases List.mem_append.mp ha with ha | ha
    · exact h.values a ha
    · obtain ⟨key, hkey, rfl⟩ := List.mem_map.mp ha
      obtain ⟨group, hgroup, hmem⟩ := List.mem_flatten.mp hkey
      obtain ⟨inst, req, hreq, hrecord, hreqkey, hvalue⟩ := exists_record hfrom (hready hgroup hmem).1
      rw [appliedFrom_eq hrecord]
      exact ⟨req, hreq, hreqkey, hvalue⟩
  · rcases List.mem_append.mp hblock with hblock | hblock
    · exact h.connected block hblock a ha b
    · have haready := hready hblock ha
      constructor
      · intro hb
        have hmutual := (hruns.scc.connected block hblock a ha b
          (hruns.scc.mem_nodes hblock hb)).mp hb
        exact ⟨hmono hmutual.1, hmono hmutual.2⟩
      · rintro ⟨hab, hba⟩
        obtain ⟨hfab, hbready⟩ := h.follows_of_mutual hrecs hfrom hdone haready hab hba
        obtain ⟨hfba, -⟩ := h.follows_of_mutual hrecs hfrom hdone hbready hba hab
        exact (hruns.scc.connected block hblock a ha b ((hruns.ready b).mpr hbready)).mpr ⟨hfab, hfba⟩
  · rcases List.append_eq_append_iff.mp hsplit with ⟨mid, rfl, hrest⟩ | ⟨mid, hblocks, hrest⟩
    · -- a group of this run
      have hblock : block ∈ groups := by rw [hrest]; simp
      have haready := hready hblock ha
      have hdep := (dependsOn_iff hrecs hfrom haready.1 b).mpr hab
      rw [List.flatten_append, List.mem_append]
      rcases haready.needs ⟨haready.1, hdep⟩ with hb | hb
      · exact Or.inl (Or.inl ((hdone b).mp hb))
      · rcases hruns.scc.closed mid block post hrest a ha b ((hruns.ready b).mpr hb)
          ⟨haready.1, hb.1, hdep⟩ with hb | hb
        · exact Or.inl (Or.inr hb)
        · exact Or.inr hb
    · cases mid with
      | nil =>
          rw [List.append_nil] at hblocks
          rw [List.nil_append] at hrest
          subst hblocks
          have hblock : block ∈ groups := by rw [← hrest]; simp
          have haready := hready hblock ha
          have hdep := (dependsOn_iff hrecs hfrom haready.1 b).mpr hab
          rcases haready.needs ⟨haready.1, hdep⟩ with hb | hb
          · exact Or.inl ((hdone b).mp hb)
          · rcases hruns.scc.closed [] block post hrest.symm a ha b ((hruns.ready b).mpr hb)
              ⟨haready.1, hb.1, hdep⟩ with hb | hb
            · cases hb
            · exact Or.inr hb
      | cons x mid =>
          obtain ⟨rfl, -⟩ := List.cons.inj hrest
          exact h.closed pre block mid hblocks a ha b hab
  · rcases List.mem_append.mp hblock with hblock | hblock
    · exact h.sorted block hblock
    · refine (hruns.sorted block hblock).imp_of_mem fun {a b} ha hb hle x hx y hy hxa hyb => ?_
      subst hxa hyb
      rwa [seqOf_eq hrecs hfrom hx (hready hblock ha).1, seqOf_eq hrecs hfrom hy (hready hblock hb).1] at hle
  · rcases List.mem_append.mp hblock with hblock | hblock
    · exact h.ties x hx hprefers block hblock hxblock y hy hyblock hne hle
    · refine hprefers inner nodes groups hruns block hblock hxblock y.key hyblock
        (fun heq => hne (hrecs.eq_of_key hy hx heq)) ?_
      rwa [seqOf_eq hrecs hfrom hx (hready hblock hxblock).1,
        seqOf_eq hrecs hfrom hy (hready hblock hyblock).1]

end BlockOrder

/-! ### Deliveries -/

/-- The committed records of the replica are those in `delivered`. -/
structure Holds (delivered : List CommitRequest) (inner : ReplicaInner) : Prop where
  committed : FromRecs delivered inner
  present : ∀ req ∈ delivered, ∃ inst, inner.recordOf req.key = some inst ∧ inst.status = .committed

section Delivery

variable {rt : Runtime} {id : Nat} {delivered : List CommitRequest} {inner inner' : ReplicaInner}
  {req : CommitRequest}

theorem FromRecs.mono (h : FromRecs delivered inner) (hsub : ∀ x ∈ delivered, x ∈ recs) :
    FromRecs recs inner := by
  intro key inst hkey hrecord hstatus
  obtain ⟨x, hx, hxkey, hvalue⟩ := h key inst hkey hrecord hstatus
  exact ⟨x, hsub x hx, hxkey, hvalue⟩

theorem Holds.of_grown (h : Holds delivered inner) {r : Nat} {slot : Int}
    (hgrown : Grown r slot inner inner') : Holds delivered inner' where
  committed := by
    intro key inst hkey hrecord hstatus
    rw [recordOf, hgrown.records] at hrecord
    rcases Option.or_eq_some_iff.mp hrecord with hold | ⟨-, hnew⟩
    · exact h.committed key inst hkey hold hstatus
    · split at hnew
      · cases hnew
        cases hstatus
      · cases hnew
  present := by
    intro x hx
    obtain ⟨inst, hrecord, hstatus⟩ := h.present x hx
    refine ⟨inst, ?_, hstatus⟩
    rw [recordOf, hgrown.records, show inner.instance? x.key.1 x.key.2.toNat = some inst from hrecord,
      Option.some_or]

/-- The record of the commit is written, the others stay. -/
theorem Holds.setInstance (h : Holds delivered inner) {old inst : Instance}
    (hold : inner.recordOf req.key = some old) (hnonneg : ∀ x ∈ delivered ++ [req], 0 ≤ x.slot)
    (hstatus : inst.status = .committed) (hvalue : inst.value = req.value) :
    Holds (delivered ++ [req]) (inner.setInstance (asUsize req.replica) req.slot.toNat inst) := by
  have hslot : 0 ≤ req.slot := hnonneg req (by simp)
  have hrecordOf {key : Nat × Int} (hkey : 0 ≤ key.2) :
      (inner.setInstance (asUsize req.replica) req.slot.toNat inst).recordOf key =
        if key = req.key then some inst else inner.recordOf key := by
    rw [recordOf, instance?_setInstance_eq]
    by_cases heq : key = req.key
    · subst heq
      rw [if_pos ⟨rfl, rfl⟩, if_pos rfl,
        show inner.instance? (asUsize req.replica) req.slot.toNat = some old from hold, Option.map_some]
    · have hne : ¬(asUsize req.replica = key.1 ∧ req.slot.toNat = key.2.toNat) := by
        rintro ⟨hr, hs⟩
        have hslots : key.2 = req.slot := by omega
        exact heq (Prod.ext hr.symm hslots)
      rw [if_neg hne, if_neg heq]
      rfl
  constructor
  · intro key x hkey hx hxstatus
    rw [hrecordOf hkey] at hx
    split at hx
    · rename_i heq
      cases hx
      exact ⟨req, by simp, heq.symm, hvalue⟩
    · obtain ⟨y, hy, hykey, hyvalue⟩ := h.committed key x hkey hx hxstatus
      exact ⟨y, List.mem_append_left _ hy, hykey, hyvalue⟩
  · intro x hx
    rw [hrecordOf (hnonneg x hx)]
    split
    · exact ⟨inst, rfl, hstatus⟩
    · rename_i hne
      rcases List.mem_append.mp hx with hx | hx
      · exact h.present x hx
      · exact absurd (congrArg CommitRequest.key (List.mem_singleton.mp hx)) hne

/-- A commit of an instance that was not committed before is recorded. -/
theorem Holds.recordCommit (h : Holds delivered inner) {duplicate : Bool}
    (hrecords : RecordsCommit inner (asUsize req.replica) req.slot req.value inner' duplicate)
    (hnonneg : ∀ x ∈ delivered ++ [req], 0 ≤ x.slot) (hnew : req.key ∉ delivered.map CommitRequest.key) :
    duplicate = false ∧ Holds (delivered ++ [req]) inner' := by
  cases hrecords with
  | duplicate hgrown hinst hstatus =>
      obtain ⟨x, hx, hkey, -⟩ := (h.of_grown hgrown).committed req.key _ (hnonneg req (by simp)) hinst hstatus
      exact absurd (List.mem_map.mpr ⟨x, hx, hkey⟩) hnew
  | written hgrown hinst => exact ⟨rfl, (h.of_grown hgrown).setInstance hinst hnonneg rfl rfl⟩

theorem Holds.of_instances (h : Holds delivered inner) (heq : inner'.instances = inner.instances) :
    Holds delivered inner' := by
  have hrecordOf (key : Nat × Int) : inner'.recordOf key = inner.recordOf key := by
    rw [recordOf, instance?, heq]
    rfl
  constructor
  · intro key inst hkey hrecord
    exact h.committed key inst hkey (hrecordOf key ▸ hrecord)
  · intro x hx
    rw [hrecordOf]
    exact h.present x hx

/-- Once every record is there, every instance that was not executed is ready. -/
theorem Holds.ready (h : Holds recs inner) (hrecs : Committable n recs) {a : Nat × Int}
    (ha : inner.Live a) : inner.Ready a := by
  refine ⟨ha, fun b hb => ?_⟩
  induction hb with
  | refl => exact Or.inr ha
  | @tail x b _ hxb _ =>
      have hedge := (BlockOrder.dependsOn_iff hrecs h.committed hxb.1 b).mp hxb.2
      obtain ⟨y, hy, rfl⟩ := List.mem_map.mp (hrecs.closed x b hedge)
      by_cases hdone : inner.Done y.key
      · exact Or.inl hdone
      · obtain ⟨inst, hrecord, hstatus⟩ := h.present y hy
        exact Or.inr ⟨(hrecs.valid y hy).2.2.1, hdone, inst, hrecord, hstatus⟩

end Delivery

/-- A replica to which the commits in `delivered` were delivered. -/
structure Delivers (rt : Runtime) (id n : Nat) (recs delivered : List CommitRequest)
    (st : ReplicaInner × List Execution) : Prop where
  log : LogInv rt id n st
  holds : Holds delivered st.1
  blocks : ∃ blocks, BlockOrder rt recs blocks (entries st.2)
  settled : (∀ req ∈ recs, req ∈ delivered) → ∀ req ∈ recs, st.1.Done req.key

namespace Delivers

variable {rt : Runtime} {id : Nat} {delivered : List CommitRequest} {st : ReplicaInner × List Execution}

/-- The executor after a commit was recorded. -/
theorem execute {blocks : List (List (Nat × Int))} (hlog : LogInv rt id n st) (hholds : Holds delivered st.1)
    (hblocks : BlockOrder rt recs blocks (entries st.2)) (hrecs : Committable n recs) (hrt : rt.Faithful)
    (hsub : ∀ x ∈ delivered, x ∈ recs) :
    ∃ st', executeLogged rt st.1 st.2 = some st' ∧ Delivers rt id n recs delivered st' := by
  obtain ⟨st', hexecute, hlog'⟩ := hlog.execute hrt
  obtain ⟨nodes, groups, hgroups, hruns⟩ := groups_spec hlog.shaped hrt
  have hnodup : groups.flatten.Nodup := hruns.scc.perm.nodup_iff.mpr hruns.nodup
  have hlive : ∀ key ∈ groups.flatten, st.1.Live key := fun key hkey =>
    ((hruns.ready key).mp (hruns.scc.perm.subset hkey)).1
  have hexec := executes hlog.shaped hnodup hlive
  have hst := hexecute
  rw [executeLogged, hgroups, Option.map_some, hexec.applied, Option.some.injEq] at hst
  have hfrom := hholds.committed.mono hsub
  refine ⟨st', hexecute, hlog', ?_, ⟨blocks ++ groups, ?_⟩, fun hall req hreq => ?_⟩
  · have hready : st.1.executeAllReady rt = some st'.1 := by
      rw [← Op.map_executeLogged rt st.1 st.2, hexecute, Option.map_some]
    exact hholds.of_instances (instances_executeAllReady hready)
  · subst hst
    rw [entries_append]
    refine hblocks.execute hrecs hfrom (fun key => ?_) hruns
    rw [hblocks.flatten]
    exact hlog.done key
  · subst hst
    refine (hexec.done req.key).mpr ?_
    by_cases hdone : st.1.Done req.key
    · exact Or.inl hdone
    · -- all records are there
      have hholds' : Holds recs st.1 := ⟨hfrom, fun x hx => hholds.present x (hall x hx)⟩
      obtain ⟨inst, hrecord, hstatus⟩ := hholds'.present req hreq
      have hready := hholds'.ready hrecs ⟨(hrecs.valid req hreq).2.2.1, hdone, inst, hrecord, hstatus⟩
      exact Or.inr (hruns.scc.perm.mem_iff.mpr ((hruns.ready _).mpr hready))

theorem step (h : Delivers rt id n recs delivered st) (hrecs : Committable n recs) (hrt : rt.Faithful)
    {req : CommitRequest} (hsub : ∀ x ∈ delivered ++ [req], x ∈ recs)
    (hnew : req.key ∉ delivered.map CommitRequest.key) :
    ∃ st', (Op.commit req).applyLogged rt st = some st' ∧
      Delivers rt id n recs (delivered ++ [req]) st' := by
  have hreq : req ∈ recs := hsub req (by simp)
  obtain ⟨hr, hlt, hslot, -, hdeps⟩ := hrecs.valid req hreq
  have hreplica : asUsize req.replica < st.1.n := by
    rw [h.log.n_eq]
    exact asUsize_lt hr hlt
  obtain ⟨recorded, duplicate, hrecord, hrecords⟩ :=
    exists_recordCommit h.log.shaped hreplica hslot req.value
  have hlog : LogInv rt id n (recorded, st.2) :=
    h.log.recordCommit hrecords (hdeps.trans h.log.n_eq.symm)
  obtain ⟨rfl, hholds⟩ := h.holds.recordCommit hrecords
    (fun x hx => (hrecs.valid x (hsub x hx)).2.2.1) hnew
  obtain ⟨blocks, hblocks⟩ := h.blocks
  obtain ⟨st', hexecute, hdelivers⟩ := execute hlog hholds hblocks hrecs hrt hsub
  refine ⟨st', ?_, hdelivers⟩
  simp only [Op.applyLogged, hrecord, Option.bind_eq_bind, Option.bind_some]
  exact hexecute

theorem run (h : Delivers rt id n recs delivered st) (hrecs : Committable n recs) (hrt : rt.Faithful)
    {order : List CommitRequest} (hsub : ∀ x ∈ delivered ++ order, x ∈ recs)
    (hnodup : ((delivered ++ order).map CommitRequest.key).Nodup) :
    ∃ st', Transition.run (Op.applyLogged rt) st (order.map .commit) = some st' ∧
      Delivers rt id n recs (delivered ++ order) st' := by
  induction order generalizing delivered st with
  | nil => exact ⟨st, rfl, by rwa [List.append_nil]⟩
  | cons req order ih =>
      rw [← List.singleton_append, ← List.append_assoc] at hsub hnodup ⊢
      have hnew : req.key ∉ delivered.map CommitRequest.key := by
        intro hmem
        rw [List.map_append, List.map_append, List.append_assoc, List.nodup_append] at hnodup
        exact hnodup.2.2 _ hmem req.key (by simp) rfl
      obtain ⟨next, hnext, hdelivers⟩ := h.step hrecs hrt
        (fun x hx => hsub x (List.mem_append_left _ hx)) hnew
      obtain ⟨st', hrun, hdelivers'⟩ := ih hdelivers hsub hnodup
      exact ⟨st', Transition.run_cons_eq_some.mpr ⟨next, hnext, hrun⟩, hdelivers'⟩

end Delivers

theorem delivers_new (rt : Runtime) (id n : Nat) (recs : List CommitRequest) :
    Delivers rt id n recs [] (ReplicaInner.new id n, []) where
  log := logInv_new rt id n
  holds := by
    refine ⟨fun key inst _ hrecord _ => ?_, nofun⟩
    obtain ⟨row, hrow, hs⟩ := Option.bind_eq_some_iff.mp hrecord
    rw [(List.mem_replicate.mp (List.mem_of_getElem? hrow)).2] at hs
    cases hs
  blocks := ⟨[], rfl, nofun, nofun, by simp, nofun, nofun⟩
  settled hall req hreq := absurd (hall req hreq) List.not_mem_nil

theorem deliver_eq (rt : Runtime) (st : ReplicaInner × List Execution) (order : List CommitRequest) :
    (Transition.run (Op.applyLogged rt) st (order.map .commit)).map Prod.fst =
      order.foldlM (handleCommitInner rt) st.1 := by
  rw [Transition.run_map (fun st op => Op.map_applyLogged rt st op), Transition.run_eq_foldlM,
    List.foldlM_map]
  rfl

/-- All commits are delivered: the store is that of the records, one component of their dependency graph
after the other. -/
theorem exists_delivered {rt : Runtime} (hrt : rt.Faithful) (id : Nat) (hrecs : Committable n recs)
    {order : List CommitRequest} (horder : order.Perm recs) :
    ∃ inner applied blocks, deliver rt id n order = some inner ∧
      inner.store = replay (ReplicaInner.new id n) applied ∧ BlockOrder rt recs blocks applied ∧
      SccOrder (recs.map CommitRequest.key) (Edge recs) blocks := by
  have hsub : ∀ x ∈ [] ++ order, x ∈ recs := fun x hx => horder.subset hx
  obtain ⟨st, hrun, hdelivers⟩ := (delivers_new rt id n recs).run hrecs hrt hsub
    ((horder.map CommitRequest.key).nodup_iff.mpr hrecs.distinct)
  obtain ⟨blocks, hblocks⟩ := hdelivers.blocks
  have hdone := hdelivers.settled fun req hreq => horder.symm.subset hreq
  refine ⟨st.1, entries st.2, blocks, ?_, hdelivers.log.store, hblocks, ?_, ?_, ?_⟩
  · rw [deliver, ← deliver_eq rt (ReplicaInner.new id n, []), hrun, Option.map_some]
  · refine (List.perm_ext_iff_of_nodup ?_ hrecs.distinct).mpr fun key => ?_
    · rw [hblocks.flatten]
      exact hdelivers.log.nodup
    · constructor
      · intro hkey
        rw [hblocks.flatten] at hkey
        obtain ⟨a, ha, rfl⟩ := List.mem_map.mp hkey
        obtain ⟨req, hreq, hreqkey, -⟩ := hblocks.values a ha
        exact List.mem_map.mpr ⟨req, hreq, hreqkey⟩
      · intro hkey
        obtain ⟨req, hreq, rfl⟩ := List.mem_map.mp hkey
        rw [hblocks.flatten]
        exact (hdelivers.log.done _).mp (hdone req hreq)
  · exact fun block hblock a ha b _ => hblocks.connected block hblock a ha b
  · exact fun pre block post hsplit a ha b _ => hblocks.closed pre block post hsplit a ha b

/-! ### The last write -/

/-- What is left in a key is from the last entry that writes it. -/
theorem lookup_replay (id n : Nat) (applied : List Applied) (k : String) :
    ((∀ a ∈ applied, ¬Writes a.record.cmds k) ∧ (replay (ReplicaInner.new id n) applied).lookup k = none) ∨
      ∃ pre a post, applied = pre ++ a :: post ∧ Writes a.record.cmds k ∧
        (∀ b ∈ post, ¬Writes b.record.cmds k) ∧
        (replay (ReplicaInner.new id n) applied).lookup k = lastWrite a.record.cmds k := by
  induction applied using List.reverseRecOn with
  | nil => exact Or.inl ⟨nofun, rfl⟩
  | append_singleton applied a ih =>
      rw [lookup_replay_append]
      by_cases hwrites : Writes a.record.cmds k
      · obtain ⟨v, hv⟩ := Option.isSome_iff_exists.mp ((isSome_lastWrite _ _).mpr hwrites)
        exact Or.inr ⟨applied, a, [], rfl, hwrites, nofun, by rw [hv, Option.some_or]⟩
      · have hnone : lastWrite a.record.cmds k = none := by
          rw [← Option.not_isSome_iff_eq_none, isSome_lastWrite]
          exact hwrites
        have hlast {l : List Applied} (h : ∀ b ∈ l, ¬Writes b.record.cmds k) :
            ∀ b ∈ l ++ [a], ¬Writes b.record.cmds k := by
          intro b hb
          rcases List.mem_append.mp hb with hb | hb
          · exact h b hb
          · rwa [List.mem_singleton.mp hb]
        rw [hnone, Option.none_or]
        rcases ih with ⟨hrest, hlookup⟩ | ⟨pre, b, post, happlied, hb, hpost, hlookup⟩
        · exact Or.inl ⟨hlast hrest, hlookup⟩
        · exact Or.inr ⟨pre, b, post ++ [a], by rw [happlied]; simp, hb, hlast hpost, hlookup⟩

/-- Two connected records are ordered, or tied. -/
theorem goesAfter_or_tied {a b : CommitRequest}
    (h : ReflTransGen (Edge recs) a.key b.key ∨ ReflTransGen (Edge recs) b.key a.key) :
    GoesAfter recs a b ∨ GoesAfter recs b a ∨ (Mutual (Edge recs) a.key b.key ∧ a.seq = b.seq) := by
  by_cases hab : ReflTransGen (Edge recs) a.key b.key <;> by_cases hba : ReflTransGen (Edge recs) b.key a.key
  · rcases lt_trichotomy a.seq b.seq with hlt | heq | hlt
    · exact Or.inr (Or.inl ⟨hba, Or.inr hlt⟩)
    · exact Or.inr (Or.inr ⟨⟨hab, hba⟩, heq⟩)
    · exact Or.inl ⟨hab, Or.inr hlt⟩
  · exact Or.inl ⟨hab, Or.inl hba⟩
  · exact Or.inr (Or.inl ⟨hba, Or.inl hab⟩)
  · exact absurd h (not_or.mpr ⟨hab, hba⟩)

namespace BlockOrder

variable {rt : Runtime} {blocks : List (List (Nat × Int))} {applied : List Applied}

theorem pair_sublist_of_goesAfter (h : BlockOrder rt recs blocks applied) (hrecs : Committable n recs)
    (hscc : SccOrder (recs.map CommitRequest.key) (Edge recs) blocks) {a c : CommitRequest} (ha : a ∈ recs)
    (hc : c ∈ recs) (hafter : GoesAfter recs c a) : [a.key, c.key].Sublist blocks.flatten := by
  have hakey : a.key ∈ recs.map CommitRequest.key := List.mem_map_of_mem ha
  have hckey : c.key ∈ recs.map CommitRequest.key := List.mem_map_of_mem hc
  obtain ⟨hca, hafter⟩ := hafter
  by_cases hac : ReflTransGen (Edge recs) a.key c.key
  · -- in one block, by ascending `seq`
    have hlt : a.seq < c.seq := hafter.resolve_left fun hnot => hnot hac
    have hne : a.key ≠ c.key := by
      intro heq
      rw [hrecs.eq_of_key ha hc heq] at hlt
      exact lt_irrefl _ hlt
    obtain ⟨block, hblock, hablock⟩ := List.mem_flatten.mp (hscc.perm.mem_iff.mpr hakey)
    have hcblock := (h.connected block hblock _ hablock _).mpr ⟨hac, hca⟩
    rcases ListOrder.pair_sublist_or hablock hcblock hne with hpair | hpair
    · exact hpair.trans (List.sublist_flatten_of_mem hblock)
    · have hle := List.pairwise_pair.mp ((h.sorted block hblock).sublist hpair) c hc a ha rfl rfl
      exact absurd hlt (not_lt.mpr hle)
  · exact hscc.pair_sublist_of_reach (fun x _ y hxy => hrecs.closed x y hxy) hckey hakey hca hac

/-- The record that is left in a key: no other one that writes it is executed later. -/
theorem exists_last (h : BlockOrder rt recs blocks applied) (hrecs : Committable n recs)
    (hscc : SccOrder (recs.map CommitRequest.key) (Edge recs) blocks) (id : Nat) {k : String}
    (hwrites : ∃ req ∈ recs, Writes req.cmds k) :
    ∃ a ∈ recs, Writes a.cmds k ∧
      (replay (ReplicaInner.new id n) applied).lookup k = lastWrite a.cmds k ∧
      ∀ c ∈ recs, Writes c.cmds k → ¬[a.key, c.key].Sublist blocks.flatten := by
  have hcmds {x : Applied} {req : CommitRequest} (hvalue : x.record.value = req.value) :
      x.record.cmds = req.cmds := congrArg Value.cmds hvalue
  rcases lookup_replay id n applied k with ⟨hnone, -⟩ | ⟨pre, x, post, happlied, hx, hpost, hlookup⟩
  · obtain ⟨req, hreq, hreqwrites⟩ := hwrites
    have hmem := hscc.perm.mem_iff.mpr (List.mem_map_of_mem hreq)
    rw [h.flatten] at hmem
    obtain ⟨y, hy, hykey⟩ := List.mem_map.mp hmem
    obtain ⟨req', hreq', hkey', hvalue'⟩ := h.values y hy
    rw [hrecs.eq_of_key hreq hreq' (hykey.symm.trans hkey'.symm), ← hcmds hvalue'] at hreqwrites
    exact absurd hreqwrites (hnone y hy)
  · obtain ⟨a, ha, hakey, havalue⟩ := h.values x (by rw [happlied]; simp)
    rw [hcmds havalue] at hx hlookup
    refine ⟨a, ha, hx, hlookup, fun c hc hcwrites hpair => ?_⟩
    have hnodup : blocks.flatten.Nodup := hscc.perm.nodup_iff.mpr hrecs.distinct
    rw [h.flatten, happlied, List.map_append, List.map_cons, ← hakey] at hpair hnodup
    obtain ⟨y, hy, hykey⟩ := List.mem_map.mp (ListOrder.mem_of_pair_sublist hnodup hpair)
    obtain ⟨c', hc', hkey', hvalue'⟩ := h.values y (by rw [happlied]; simp [hy])
    rw [hrecs.eq_of_key hc hc' (hykey.symm.trans hkey'.symm), ← hcmds hvalue'] at hcwrites
    exact hpost y hy hcwrites

theorem lookup_of_not_writes (h : BlockOrder rt recs blocks applied) (id : Nat) {k : String}
    (hnone : ¬∃ req ∈ recs, Writes req.cmds k) :
    (replay (ReplicaInner.new id n) applied).lookup k = none := by
  rcases lookup_replay id n applied k with ⟨-, hlookup⟩ | ⟨pre, x, post, happlied, hx, -, -⟩
  · exact hlookup
  · obtain ⟨a, ha, -, havalue⟩ := h.values x (by rw [happlied]; simp)
    rw [show x.record.cmds = a.cmds from congrArg Value.cmds havalue] at hx
    exact absurd ⟨a, ha, hx⟩ hnone

/-- A record that the runtime prefers is left in a key if nothing that writes the key goes after it. -/
theorem lookup_of_prefers (h : BlockOrder rt recs blocks applied) (hrecs : Committable n recs)
    (hscc : SccOrder (recs.map CommitRequest.key) (Edge recs) blocks) (id : Nat) {k : String}
    {a : CommitRequest} (ha : a ∈ recs) (hprefers : Prefers rt a.key) (hwrites : Writes a.cmds k)
    (hlast : ∀ c ∈ recs, Writes c.cmds k → ¬GoesAfter recs c a) :
    (replay (ReplicaInner.new id n) applied).lookup k = lastWrite a.cmds k := by
  obtain ⟨b, hb, hbwrites, hlookup, hblast⟩ := h.exists_last hrecs hscc id ⟨a, ha, hwrites⟩
  by_cases heq : b = a
  · rw [hlookup, heq]
  · refine absurd ?_ (hblast a ha hwrites)
    rcases goesAfter_or_tied (hrecs.connected a ha b hb k hwrites hbwrites) with hab | hba | ⟨hmutual, hseq⟩
    · exact h.pair_sublist_of_goesAfter hrecs hscc hb ha hab
    · exact absurd hba (hlast b hb hbwrites)
    · obtain ⟨block, hblock, hablock⟩ :=
        List.mem_flatten.mp (hscc.perm.mem_iff.mpr (List.mem_map_of_mem ha))
      have hbblock := (h.connected block hblock _ hablock _).mpr hmutual
      exact (h.ties a ha hprefers block hblock hablock b hb hbblock heq hseq.ge).trans
        (List.sublist_flatten_of_mem hblock)

end BlockOrder

/-! ### Stores of two replicas -/

theorem converges_of_tiesSettled (hrecs : Committable n recs) (hties : TiesSettled recs) :
    Converges n recs := by
  intro rt rt' hrt hrt' id id' order order' horder horder'
  obtain ⟨inner, applied, blocks, hdeliver, hstore, hblocks, hscc⟩ := exists_delivered hrt id hrecs horder
  obtain ⟨inner', applied', blocks', hdeliver', hstore', hblocks', hscc'⟩ :=
    exists_delivered hrt' id' hrecs horder'
  refine ⟨inner, inner', hdeliver, hdeliver', fun k => ?_⟩
  rw [hstore, hstore']
  by_cases hwrites : ∃ req ∈ recs, Writes req.cmds k
  · obtain ⟨a, ha, hawrites, hlookup, halast⟩ := hblocks.exists_last hrecs hscc id hwrites
    obtain ⟨b, hb, hbwrites, hlookup', hblast⟩ := hblocks'.exists_last hrecs hscc' id' hwrites
    rw [hlookup, hlookup']
    by_contra hne
    have hnot (c : CommitRequest) (hc : c ∈ recs) (hcwrites : Writes c.cmds k) : ¬GoesAfter recs c a :=
      fun hafter => halast c hc hcwrites (hblocks.pair_sublist_of_goesAfter hrecs hscc ha hc hafter)
    rcases goesAfter_or_tied (hrecs.connected a ha b hb k hawrites hbwrites) with hab | hba | ⟨hmutual, hseq⟩
    · exact hblast a ha hawrites (hblocks'.pair_sublist_of_goesAfter hrecs hscc' hb ha hab)
    · exact hnot b hb hbwrites hba
    · obtain ⟨c, hc, hcwrites, hafter⟩ := hties k a ha b hb hmutual hseq hawrites hbwrites hne
      exact hnot c hc hcwrites hafter
  · rw [hblocks.lookup_of_not_writes id hwrites, hblocks'.lookup_of_not_writes id' hwrites]

/-- A runtime that lists `z` behind everything else. -/
noncomputable def lastRuntime (z : Nat × Int) : Runtime :=
  ⟨true, fun keys => keys.filter (· ≠ z) ++ keys.filter (· = z),
    fun n edges => sccOrder (List.range n) fun a b => (a, b) ∈ edges⟩

theorem faithful_lastRuntime (z : Nat × Int) : (lastRuntime z).Faithful := by
  refine ⟨fun keys => ?_, fun n edges _ => sccOrder_spec (List.range n) fun a b => (a, b) ∈ edges⟩
  have hperm := List.filter_append_perm (fun key => decide (key ≠ z)) keys
  simpa [lastRuntime] using hperm

theorem prefers_lastRuntime (z : Nat × Int) : Prefers (lastRuntime z) z := by
  intro inner nodes groups hruns group hgroup hz c hc hne hle
  obtain ⟨keys, hkeys⟩ := hruns.listed
  rw [hruns.formed] at hgroup
  obtain ⟨scc, hscc, rfl⟩ := List.mem_map.mp hgroup
  rw [(List.perm_insertionSort _ _).mem_iff] at hz hc
  have : Std.Total fun a b : Nat × Int => inner.seqOf a ≤ inner.seqOf b := ⟨fun a b => le_total _ _⟩
  have : IsTrans (Nat × Int) fun a b => inner.seqOf a ≤ inner.seqOf b := ⟨fun a b c => le_trans⟩
  refine List.pair_sublist_insertionSort hle ?_
  rcases ListOrder.pair_sublist_or hc hz hne with hpair | hpair
  · exact hpair
  · -- a component is listed in the order of the nodes, and `z` is the last one
    have hnodes : (List.range nodes.length).filterMap (fun i => nodes[i]?) = nodes := by
      have hget : ∀ i ∈ List.range nodes.length, nodes[i]? = some (nodes[i]?.getD z) := by
        intro i hi
        rw [List.getElem?_eq_getElem (List.mem_range.mp hi), Option.getD_some]
      rw [List.filterMap_congr hget]
      show List.filterMap (some ∘ fun i => nodes[i]?.getD z) _ = nodes
      rw [List.filterMap_eq_map]
      refine List.ext_getElem (by simp) fun i hi hi' => ?_
      simp [List.getElem?_eq_getElem hi']
    have hsub : [z, c].Sublist nodes := by
      refine hpair.trans ?_
      have hfilter := (sublist_of_mem_sccOrder hscc).filterMap fun i => nodes[i]?
      rwa [hnodes] at hfilter
    rw [hkeys] at hsub
    obtain ⟨left, right, hsplit, hleft, hright⟩ := List.sublist_append_iff.mp hsub
    cases left with
    | nil =>
        have hmem := hright.subset (hsplit ▸ (by simp : c ∈ [z, c]))
        exact absurd (by simpa using (List.mem_filter.mp hmem).2) hne
    | cons x left =>
        obtain ⟨rfl, -⟩ := List.cons.inj hsplit
        have hmem := hleft.subset List.mem_cons_self
        exact absurd (List.mem_filter.mp hmem).2 (by simp)

/-- If nothing goes after two tied records that leave different values, each is left by some runtime. -/
theorem tiesSettled_of_converges (hrecs : Committable n recs) (h : Converges n recs) : TiesSettled recs := by
  intro k a ha b hb hmutual hseq hawrites hbwrites hne
  by_contra hnone
  have halast (c : CommitRequest) (hc : c ∈ recs) (hcwrites : Writes c.cmds k) : ¬GoesAfter recs c a :=
    fun hafter => hnone ⟨c, hc, hcwrites, hafter⟩
  have hblast (c : CommitRequest) (hc : c ∈ recs) (hcwrites : Writes c.cmds k) : ¬GoesAfter recs c b := by
    rintro ⟨hcb, hafter⟩
    refine halast c hc hcwrites ⟨hcb.trans hmutual.2, ?_⟩
    rw [hseq]
    exact hafter.imp_left fun hnot hac => hnot (hmutual.2.trans hac)
  have hlookup {z : CommitRequest} (hz : z ∈ recs) (hzwrites : Writes z.cmds k)
      (hzlast : ∀ c ∈ recs, Writes c.cmds k → ¬GoesAfter recs c z) {inner : ReplicaInner}
      (hdeliver : deliver (lastRuntime z.key) 0 n recs = some inner) :
      inner.store.lookup k = lastWrite z.cmds k := by
    obtain ⟨inner', applied, blocks, hdeliver', hstore, hblocks, hscc⟩ :=
      exists_delivered (faithful_lastRuntime z.key) 0 hrecs (List.Perm.refl recs)
    cases hdeliver.symm.trans hdeliver'
    rw [hstore]
    exact hblocks.lookup_of_prefers hrecs hscc 0 hz (prefers_lastRuntime z.key) hzwrites hzlast
  obtain ⟨inner, inner', hdeliver, hdeliver', heq⟩ := h _ _ (faithful_lastRuntime a.key)
    (faithful_lastRuntime b.key) 0 0 recs recs (List.Perm.refl recs) (List.Perm.refl recs)
  refine hne ?_
  rw [← hlookup ha hawrites halast hdeliver, ← hlookup hb hbwrites hblast hdeliver', heq]

/-- Replicas that get the same commits end with the same store if and only if no tie on a cycle decides
what is left in a key. -/
theorem converges_iff (hrecs : Committable n recs) : Converges n recs ↔ TiesSettled recs :=
  ⟨tiesSettled_of_converges hrecs, converges_of_tiesSettled hrecs⟩

/-- Two proposals on one key that met each other on their way: both got `seq` 2 and depend on each
other. -/
def tiedCycle : List CommitRequest :=
  [⟨0, 0, 0, [⟨1, "x", "1"⟩], 2, [-1, 0]⟩, ⟨1, 1, 0, [⟨1, "x", "2"⟩], 2, [0, -1]⟩]

theorem edge_tiedCycle {a b : Nat × Int} :
    Edge tiedCycle a b ↔ (a = (0, 0) ∧ b = (1, 0)) ∨ (a = (1, 0) ∧ b = (0, 0)) := by
  obtain ⟨r, slot⟩ := b
  constructor
  · rintro ⟨req, hreq, rfl, hdep, hnonneg⟩
    simp only [tiedCycle, List.mem_cons, List.not_mem_nil, or_false] at hreq
    rcases hreq with rfl | rfl <;> rcases r with _ | _ | r <;>
      simp_all [CommitRequest.key, asUsize] <;> omega
  · rintro (⟨rfl, h⟩ | ⟨rfl, h⟩) <;> cases h
    · exact ⟨_, List.mem_cons_self, rfl, rfl, le_rfl⟩
    · exact ⟨_, List.mem_cons_of_mem _ List.mem_cons_self, rfl, rfl, le_rfl⟩

theorem mutual_tiedCycle : Mutual (Edge tiedCycle) (0, 0) (1, 0) :=
  ⟨.single (edge_tiedCycle.mpr (Or.inl ⟨rfl, rfl⟩)), .single (edge_tiedCycle.mpr (Or.inr ⟨rfl, rfl⟩))⟩

theorem committable_tiedCycle : Committable 2 tiedCycle where
  valid := by simp [tiedCycle, Op.WellFormed]
  distinct := by decide
  closed a b h := by
    rcases edge_tiedCycle.mp h with ⟨-, rfl⟩ | ⟨-, rfl⟩ <;> decide
  connected a ha b hb k _ _ := by
    have hkey {req : CommitRequest} (h : req ∈ tiedCycle) : Mutual (Edge tiedCycle) (0, 0) req.key := by
      simp only [tiedCycle, List.mem_cons, List.not_mem_nil, or_false] at h
      rcases h with rfl | rfl
      · exact Mutual.refl _ _
      · exact mutual_tiedCycle
    exact Or.inl ((hkey ha).symm.trans (hkey hb)).1

/-- The two replicas may end with different values. -/
theorem not_converges_tiedCycle : Committable 2 tiedCycle ∧ ¬Converges 2 tiedCycle := by
  refine ⟨committable_tiedCycle, fun h => ?_⟩
  have hties := tiesSettled_of_converges committable_tiedCycle h "x" _ List.mem_cons_self _
    (List.mem_cons_of_mem _ List.mem_cons_self) mutual_tiedCycle rfl
    ⟨_, List.mem_cons_self, rfl, rfl⟩ ⟨_, List.mem_cons_self, rfl, rfl⟩ (by decide)
  obtain ⟨c, hc, -, -, hafter⟩ := hties
  simp only [tiedCycle, List.mem_cons, List.not_mem_nil, or_false] at hc
  rcases hc with rfl | rfl
  · rcases hafter with hnot | hlt
    · exact hnot .refl
    · exact absurd hlt (by decide)
  · rcases hafter with hnot | hlt
    · exact hnot mutual_tiedCycle.1
    · exact absurd hlt (by decide)

theorem converges_iff_tiedCycle : Committable 2 tiedCycle ∧ (Converges 2 tiedCycle ↔ TiesSettled tiedCycle) :=
  ⟨committable_tiedCycle, converges_iff committable_tiedCycle⟩

end Quorums.Epaxos
