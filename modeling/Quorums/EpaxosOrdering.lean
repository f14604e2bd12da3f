import Quorums.EpaxosConverge
import Quorums.EpaxosVisits

/-! Instances that interfere, and the dependencies between them. Two of them were seen by a common replica, and
the one it saw later depends on the other or on a later slot of its row. A vector of dependencies holds one slot
for each row, so that what comes before that slot has to be found from there on. -/

namespace Quorums.Epaxos

open Relation

/-- The batch is proposed to the replica. -/
def Proposed (acts : List Act) (i : Nat) (cmds : List Command) : Prop :=
  ∃ peers thrifty, Act.propose i cmds peers thrifty ∈ acts

/-! ### Decisions that interfere -/

/-- A visit that the decision for `v` rests on. -/
structure Visit.Backs (u : Visit) (key : Nat × Int) (v : Value) : Prop where
  key_eq : u.key = key
  cmds_eq : u.cmds = v.cmds
  deps_le : List.Forall₂ (· ≤ ·) u.deps v.deps

theorem Visit.Backs.le_of_covers {u u' : Visit} {x y : Nat × Int} {v w : Value} (hu : u.Backs x v)
    (hu' : u'.Backs y w) (hcovers : u.Covers u') (hsite : u.site = u'.site) (hoverlap : Overlap v.cmds w.cmds)
    (hrow : x.1 ≠ y.1 ∨ x.2 < y.2) : ∃ d, w.deps[x.1]? = some d ∧ x.2 ≤ d := by
  rw [← hu.cmds_eq, ← hu'.cmds_eq] at hoverlap
  rw [← hu.key_eq] at hrow ⊢
  rw [← hu'.key_eq] at hrow
  obtain ⟨d, hd, hle⟩ := hcovers hsite hoverlap hrow
  obtain ⟨hlt, rfl⟩ := List.getElem?_eq_some_iff.mp hd
  have hlt' : u.key.1 < w.deps.length := hu'.deps_le.length_eq ▸ hlt
  refine ⟨_, List.getElem?_eq_getElem hlt', hle.trans ?_⟩
  exact hu'.deps_le.get hlt hlt'

section Decided

variable {n : Nat} {acts : List Act} {seen : List Event} {s : State} {x y : Nat × Int} {orig orig' v w : Value}
  {fastPath fastPath' : Bool}

theorem Decided.backs_started (h : Decided n seen x orig v fastPath) :
    Visit.Backs ⟨x.1, x, orig.cmds, orig.deps⟩ x v := by
  obtain ⟨-, replies, -, hdecides, -⟩ := h
  exact ⟨rfl, hdecides.cmds_eq.symm, hdecides.deps_le⟩

/-- The replicas that a decision rests on are more than half of all. -/
theorem Decided.quorum (h : Decided n seen x orig v fastPath) (hx : x.1 < n) :
    ∃ sites ⊆ Finset.range n, n < 2 * sites.card ∧
      ∀ q ∈ sites, ∃ e ∈ seen, ∃ u, e.visit = some u ∧ u.site = q ∧ u.Backs x v := by
  have hbacks := h.backs_started
  obtain ⟨hstarted, replies, -, hdecides, hreplies⟩ := h
  let peers := replies.map fun r => asUsize r.replica
  have hpeer {q : Nat} (hq : q ∈ peers) :
      q < n ∧ q ≠ x.1 ∧ ∃ r ∈ replies, Event.answered q (preAcceptOf x orig) r ∈ seen := by
    obtain ⟨r, hr, rfl⟩ := List.mem_map.mp hq
    obtain ⟨j, hj, hlt, hne, hanswered⟩ := hreplies r hr
    rw [hj, asUsize_natCast]
    exact ⟨hlt, hne, r, hr, hanswered⟩
  have hnodup : peers.Nodup := by
    refine List.Nodup.map_on (fun r hr r' hr' heq => ?_) hdecides.distinct.of_map
    obtain ⟨j, hj, -⟩ := hreplies r hr
    obtain ⟨j', hj', -⟩ := hreplies r' hr'
    rw [hj, hj', asUsize_natCast, asUsize_natCast] at heq
    exact List.inj_on_of_nodup_map hdecides.distinct hr hr' (by rw [hj, hj', heq])
  have hhome : x.1 ∉ peers.toFinset := fun hmem => (hpeer (List.mem_toFinset.mp hmem)).2.1 rfl
  refine ⟨insert x.1 peers.toFinset, ?_, ?_, fun q hq => ?_⟩
  · refine Finset.insert_subset (Finset.mem_range.mpr hx) fun q hq => ?_
    exact Finset.mem_range.mpr (hpeer (List.mem_toFinset.mp hq)).1
  · rw [Finset.card_insert_of_notMem hhome, List.toFinset_card_of_nodup hnodup, List.length_map]
    have := hdecides.quorum
    omega
  · rcases Finset.mem_insert.mp hq with rfl | hq
    · exact ⟨_, hstarted, _, rfl, rfl, hbacks⟩
    · obtain ⟨-, -, r, hr, hanswered⟩ := hpeer (List.mem_toFinset.mp hq)
      exact ⟨_, hanswered, _, visit_answered q x orig r, rfl, rfl, hdecides.cmds_eq.symm, hdecides.reply_deps_le r hr⟩

/-- Two decisions of different rows that interfere: one of them knows of the other. -/
theorem Marks.knows (h : Marks seen s) (hv : Decided n seen x orig v fastPath) (hw : Decided n seen y orig' w fastPath')
    (hx : x.1 < n) (hy : y.1 < n) (hoverlap : Overlap v.cmds w.cmds) (hrow : x.1 ≠ y.1) :
    (∃ d, w.deps[x.1]? = some d ∧ x.2 ≤ d) ∨ ∃ d, v.deps[y.1]? = some d ∧ y.2 ≤ d := by
  obtain ⟨sites, hsites, hcard, hvisits⟩ := hv.quorum hx
  obtain ⟨sites', hsites', hcard', hvisits'⟩ := hw.quorum hy
  have hsum : (Finset.range n).card < sites.card + sites'.card := by
    rw [Finset.card_range]
    omega
  obtain ⟨q, hq⟩ := Finset.inter_nonempty_of_card_lt_card_add_card hsites hsites' hsum
  obtain ⟨hq, hq'⟩ := Finset.mem_inter.mp hq
  obtain ⟨e, he, u, hu, hsite, hbacks⟩ := hvisits q hq
  obtain ⟨e', he', u', hu', hsite', hbacks'⟩ := hvisits' q hq'
  have hne : e ≠ e' := by
    rintro rfl
    cases hu.symm.trans hu'
    exact hrow (by rw [← hbacks.key_eq, hbacks'.key_eq])
  rcases ListOrder.pair_sublist_or he he' hne with hsub | hsub
  · have hbefore := List.pairwise_pair.mp (h.ordered.sublist hsub)
    exact Or.inl (hbacks.le_of_covers hbacks' (hbefore.covers u u' hu hu') (hsite.trans hsite'.symm) hoverlap
      (Or.inl hrow))
  · have hbefore := List.pairwise_pair.mp (h.ordered.sublist hsub)
    exact Or.inr (hbacks'.le_of_covers hbacks (hbefore.covers u' u hu' hu) (hsite'.trans hsite.symm) hoverlap.symm
      (Or.inl hrow.symm))

/-- Two decisions of one row that interfere: the one of the later slot knows of the other. -/
theorem Marks.knows_row (h : Marks seen s) (hv : Decided n seen x orig v fastPath)
    (hw : Decided n seen y orig' w fastPath') (hoverlap : Overlap v.cmds w.cmds) (hrow : x.1 = y.1)
    (hlt : x.2 < y.2) : ∃ d, w.deps[x.1]? = some d ∧ x.2 ≤ d := by
  have hne : Event.started x orig ≠ Event.started y orig' := by
    intro heq
    cases heq
    omega
  rcases ListOrder.pair_sublist_or hv.1 hw.1 hne with hsub | hsub
  · have hbefore := List.pairwise_pair.mp (h.ordered.sublist hsub)
    exact hv.backs_started.le_of_covers hw.backs_started (hbefore.covers _ _ rfl rfl) hrow hoverlap (Or.inr hlt)
  · have hbefore := List.pairwise_pair.mp (h.ordered.sublist hsub)
    have := hbefore.slots y x orig' orig rfl rfl hrow.symm
    omega

/-- A dependency of a decision is an instance that interferes with it. -/
theorem History.overlap_of_dep (h : History n acts seen s) (hv : Decided n seen x orig v fastPath)
    (hw : Decided n seen y orig' w fastPath') (hdep : w.deps[x.1]? = some x.2) (hnonneg : 0 ≤ x.2) :
    Overlap v.cmds w.cmds := by
  have hvisit {e : Event} (he : e ∈ seen) {u : Visit} (hu : e.visit = some u) (hcmds : u.cmds = w.cmds)
      (hd : u.deps[x.1]? = some x.2) : Overlap v.cmds w.cmds := by
    obtain ⟨e', he', u', hu', hkey, hoverlap⟩ := h.marks.justified e he u hu x.1 x.2 hd hnonneg
    obtain ⟨x', hx', hcmds'⟩ := h.started_of_visit he' hu'
    rw [hkey] at hx'
    have horig : x' = orig := (h.rounds x).origin x' orig hx' hv.1
    have hbatch : orig.cmds = v.cmds := hv.backs_started.cmds_eq
    rw [hcmds, ← hcmds', horig, hbatch] at hoverlap
    exact hoverlap
  have hcmds := hw.backs_started.cmds_eq
  obtain ⟨hstarted, replies, -, hdecides, hreplies⟩ := hw
  rcases hdecides.origin x.1 x.2 hdep with hd | ⟨r, hr, hd⟩
  · exact hvisit hstarted rfl hcmds hd
  · obtain ⟨j, -, -, -, hanswered⟩ := hreplies r hr
    exact hvisit hanswered (visit_answered j y orig' r) hcmds hd

/-- The batch of a decision was proposed. -/
theorem History.proposed_of_decided (h : History n acts seen s) (hv : Decided n seen x orig v fastPath) :
    Proposed acts x.1 v.cmds := by
  have hbatch : orig.cmds = v.cmds := hv.backs_started.cmds_eq
  rw [← hbatch]
  exact h.proposed x orig hv.1

end Decided

/-! ### The committed records -/

/-- Some replica has committed the instance. -/
def State.Committed (s : State) (x : Nat × Int) (inst : Instance) : Prop :=
  ∃ j, s.record? j x = some inst ∧ inst.status = .committed

/-- The graph over the committed records. -/
def State.DependsOn (s : State) (x y : Nat × Int) : Prop :=
  ∃ inst, s.Committed x inst ∧ inst.deps[y.1]? = some y.2 ∧ 0 ≤ y.2

/-- The dependencies lead from the instance to committed ones only. -/
def State.Resolved (s : State) (x : Nat × Int) : Prop :=
  ∀ y, ReflTransGen s.DependsOn x y → ∃ inst, s.Committed y inst

/-- The executor of a replica orders the two instances: dependencies lead from one to the other. -/
def State.Orders (s : State) (x y : Nat × Int) : Prop :=
  ReflTransGen s.DependsOn x y ∨ ReflTransGen s.DependsOn y x

section Committed

variable {n : Nat} {acts : List Act} {seen : List Event} {s : State} {x y : Nat × Int} {inst inst' : Instance}

theorem State.Resolved.mono (h : s.Resolved x) (hdep : s.DependsOn x y) : s.Resolved y :=
  fun z hz => h z (ReflTransGen.head hdep hz)

/-- What is known of a committed record. -/
structure Settled (n : Nat) (seen : List Event) (x : Nat × Int) (v : Value) : Prop where
  decided : ∃ orig fastPath, Decided n seen x orig v fastPath
  valid : Valid n x
  deps : DepsFor n x v.deps

theorem History.settled (h : History n acts seen s) (hinv : s.Inv) (hx : s.Committed x inst) :
    Settled n seen x inst.value := by
  obtain ⟨j, hrecord, hstatus⟩ := hx
  obtain ⟨rep, hrep, hrecord⟩ := Option.bind_eq_some_iff.mp hrecord
  have hsound : Sound n j rep.inner := (h.rounds x).sound.replicas j rep hrep
  rw [ReplicaInner.record?] at hrecord
  split at hrecord
  · cases hrecord
  · rename_i hnonneg
    have hslot : ((x.2.toNat : Nat) : Int) = x.2 := Int.toNat_of_nonneg (by omega)
    have hmem := hinv.replicas rep (List.mem_of_getElem? hrep) x.1 x.2.toNat inst hrecord (by rw [hstatus]; rfl)
    have hdeps := hsound.records x.1 x.2.toNat inst hrecord
    rw [hslot] at hmem hdeps
    obtain ⟨row, hrow, -⟩ := Option.bind_eq_some_iff.mp hrecord
    have hlt := (List.getElem?_eq_some_iff.mp hrow).1
    rw [hsound.shaped.rows, hsound.n_eq] at hlt
    exact ⟨h.chosen x inst.value hmem, ⟨hlt, by omega⟩, hdeps⟩

/-- Batches of one row that interfere with a batch of any row interfere with each other. -/
def Linked (acts : List Act) : Prop :=
  ∀ i j xs ys zs, Proposed acts i xs → Proposed acts i ys → Proposed acts j zs → Overlap xs zs → Overlap ys zs →
    Overlap xs ys

/-- A dependency on a row leads to every instance of the row up to it that interferes. -/
theorem History.reaches_of_dep (h : History n acts seen s) (hinv : s.Inv) (hlinked : Linked acts)
    (hx : s.Committed x inst) (hy : s.Committed y inst') (hresolved : s.Resolved y)
    (hoverlap : Overlap inst.cmds inst'.cmds) {d : Int} (hd : inst'.deps[x.1]? = some d) (hle : x.2 ≤ d) :
    ReflTransGen s.DependsOn y x := by
  obtain ⟨⟨orig, fastPath, hv⟩, hvalid, -⟩ := h.settled hinv hx
  have hnonneg : 0 ≤ x.2 := hvalid.2
  -- from the slot that is named, the row is walked down to the slot of `x`
  induction hgap : (d - x.2).toNat using Nat.strong_induction_on generalizing y inst' d with
  | _ gap ih =>
      obtain ⟨⟨orig', fastPath', hw⟩, -, -⟩ := h.settled hinv hy
      have hdep : s.DependsOn y (x.1, d) := ⟨inst', hy, hd, by show 0 ≤ d; omega⟩
      by_cases heq : x.2 = d
      · subst heq
        exact ReflTransGen.single hdep
      · obtain ⟨next, hnext⟩ := hresolved _ (ReflTransGen.single hdep)
        obtain ⟨⟨origNext, fastNext, hz⟩, -, hself⟩ := h.settled hinv hnext
        have hnextOverlap : Overlap next.cmds inst'.cmds := h.overlap_of_dep hz hw hd (by show 0 ≤ d; omega)
        have hrow : Overlap inst.cmds next.cmds :=
          hlinked x.1 y.1 inst.cmds next.cmds inst'.cmds (h.proposed_of_decided hv) (h.proposed_of_decided hz)
            (h.proposed_of_decided hw) hoverlap hnextOverlap
        obtain ⟨d', hd', hle'⟩ := h.marks.knows_row hv hz hrow rfl (by show x.2 < d; omega)
        have hlt : d' < d := hself.self d' hd'
        refine ReflTransGen.head hdep ?_
        exact ih (d' - x.2).toNat (by omega) hnext (hresolved.mono hdep) hrow hd' hle' rfl

/-- Committed instances that interfere are ordered, as soon as everything they depend on is committed. -/
theorem History.orders (h : History n acts seen s) (hinv : s.Inv) (hlinked : Linked acts)
    (hx : s.Committed x inst) (hy : s.Committed y inst') (hresolved : s.Resolved x) (hresolved' : s.Resolved y)
    (hoverlap : Overlap inst.cmds inst'.cmds) : s.Orders x y := by
  obtain ⟨⟨orig, fastPath, hv⟩, hvalid, -⟩ := h.settled hinv hx
  obtain ⟨⟨orig', fastPath', hw⟩, hvalid', -⟩ := h.settled hinv hy
  have hfrom {d : Int} (hd : inst'.deps[x.1]? = some d) (hle : x.2 ≤ d) : s.Orders x y :=
    Or.inr (h.reaches_of_dep hinv hlinked hx hy hresolved' hoverlap hd hle)
  have hto {d : Int} (hd : inst.deps[y.1]? = some d) (hle : y.2 ≤ d) : s.Orders x y :=
    Or.inl (h.reaches_of_dep hinv hlinked hy hx hresolved hoverlap.symm hd hle)
  by_cases hrow : x.1 = y.1
  · rcases lt_trichotomy x.2 y.2 with hlt | heq | hlt
    · obtain ⟨d, hd, hle⟩ := h.marks.knows_row hv hw hoverlap hrow hlt
      exact hfrom hd hle
    · rw [Prod.ext hrow heq]
      exact Or.inl ReflTransGen.refl
    · obtain ⟨d, hd, hle⟩ := h.marks.knows_row hw hv hoverlap.symm hrow.symm hlt
      exact hto hd hle
  · rcases h.marks.knows hv hw hvalid.1 hvalid'.1 hoverlap hrow with ⟨d, hd, hle⟩ | ⟨d, hd, hle⟩
    · exact hfrom hd hle
    · exact hto hd hle

end Committed

/-! ### Writes of a common key -/

/-- Batches that write the empty key, which no conflict map holds, have another key in common. -/
def Keyed (acts : List Act) : Prop :=
  ∀ i j xs ys, Proposed acts i xs → Proposed acts j ys → Writes xs "" → Writes ys "" → Overlap xs ys

theorem overlap_of_writes {acts : List Act} (h : Keyed acts) {i j : Nat} {xs ys : List Command}
    (hxs : Proposed acts i xs) (hys : Proposed acts j ys) {k : String} (hx : Writes xs k) (hy : Writes ys k) :
    Overlap xs ys := by
  by_cases hk : k = ""
  · subst hk
    exact h i j xs ys hxs hys hx hy
  · have htouches {cmds : List Command} (hwrites : Writes cmds k) : Touches cmds k := by
      obtain ⟨cmd, hcmd, -, rfl⟩ := hwrites
      exact ⟨hk, List.mem_map_of_mem hcmd⟩
    exact ⟨k, htouches hx, htouches hy⟩

/-- In every run of the normal path in which the slot counters do not wrap around and the PreAccepts of
interfering batches keep the order of their slots, two committed instances that write a common key are ordered
as soon as everything they depend on is committed, provided that one slot of a row can stand for all those
before it. -/
theorem committed_ordered {rt : Runtime} {n : Nat} {acts : List Act} {s : State}
    (hslots : rt.checked = true ∨ ∀ i, proposals i acts ≤ 2 ^ 31)
    (hnormal : Transition.Within (step rt) (fun s a => ∀ key, Normal n key s a) (init n) acts)
    (horder : Transition.Within (step rt) InSlotOrder (init n) acts) (hlinked : Linked acts) (hkeyed : Keyed acts)
    (hrun : Transition.run (step rt) (init n) acts = some s) {x y : Nat × Int} {inst inst' : Instance}
    (hx : s.Committed x inst) (hy : s.Committed y inst') {k : String} (hwrites : Writes inst.cmds k)
    (hwrites' : Writes inst'.cmds k) (hresolved : s.Resolved x) (hresolved' : s.Resolved y) : s.Orders x y := by
  have hhistory := history_run hslots hnormal horder hrun
  have hinv := inv_run hrun
  obtain ⟨orig, fastPath, hv⟩ := (hhistory.settled hinv hx).decided
  obtain ⟨orig', fastPath', hw⟩ := (hhistory.settled hinv hy).decided
  exact hhistory.orders hinv hlinked hx hy hresolved hresolved'
    (overlap_of_writes hkeyed (hhistory.proposed_of_decided hv) (hhistory.proposed_of_decided hw) hwrites hwrites')

/-! ### Runs that are not ordered -/

/-- The dependencies of the committed records of an instance, listed. -/
def State.dependencies (s : State) (x : Nat × Int) : List (Nat × Int) :=
  s.replicas.flatMap fun rep =>
    match rep.inner.record? x.1 x.2 with
    | some inst =>
        if inst.status = .committed then
          inst.deps.zipIdx.filterMap fun (d, r) => if 0 ≤ d then some (r, d) else none
        else []
    | none => []

theorem mem_dependencies {s : State} {x y : Nat × Int} (h : s.DependsOn x y) : y ∈ s.dependencies x := by
  obtain ⟨inst, ⟨j, hrecord, hstatus⟩, hdep, hnonneg⟩ := h
  obtain ⟨rep, hrep, hrecord⟩ := Option.bind_eq_some_iff.mp hrecord
  refine List.mem_flatMap.mpr ⟨rep, List.mem_of_getElem? hrep, ?_⟩
  simp only [hrecord, if_pos hstatus]
  exact List.mem_filterMap.mpr ⟨(y.2, y.1), List.mem_zipIdx_iff_getElem?.mpr hdep, if_pos hnonneg⟩

/-- The dependencies do not lead out of `nodes`. -/
def State.ClosedOn (s : State) (nodes : List (Nat × Int)) : Prop :=
  ∀ x ∈ nodes, ∀ y ∈ s.dependencies x, y ∈ nodes

instance (s : State) (nodes : List (Nat × Int)) : Decidable (s.ClosedOn nodes) :=
  inferInstanceAs (Decidable (∀ x ∈ nodes, ∀ y ∈ s.dependencies x, y ∈ nodes))

theorem State.ClosedOn.mem_of_reaches {s : State} {nodes : List (Nat × Int)} (h : s.ClosedOn nodes)
    {x y : Nat × Int} (hx : x ∈ nodes) (hreach : ReflTransGen s.DependsOn x y) : y ∈ nodes := by
  induction hreach with
  | refl => exact hx
  | tail _ hdep ih => exact h _ ih _ (mem_dependencies hdep)

/-- All other replicas are the peers, nobody recovers, and requests are sent in their order. -/
def Act.Plain (n : Nat) : Act → Prop
  | .propose i _ peers _ => peers = (List.range n).filter fun j => j ≠ i
  | .recover .. => False
  | .enqueue _ k => k = 0
  | _ => True

instance (n : Nat) : DecidablePred (Act.Plain n)
  | .propose i _ peers _ => inferInstanceAs (Decidable (peers = (List.range n).filter fun j => j ≠ i))
  | .recover .. => .isFalse id
  | .enqueue _ k => inferInstanceAs (Decidable (k = 0))
  | .deliver .. | .receive .. | .lose .. | .loseReply .. | .giveUp .. | .commit .. | .finish .. | .stop .. =>
      .isTrue trivial

theorem Act.Plain.normal {n : Nat} {a : Act} (h : a.Plain n) (s : State) (key : Nat × Int) : Normal n key s a := by
  cases a with
  | propose i cmds peers thrifty =>
      subst h
      refine ⟨List.nodup_range.filter _, fun j => ?_⟩
      simp
  | recover => exact absurd h id
  | enqueue c k =>
      subst h
      exact fun _ _ _ _ k' hk => absurd hk (Nat.not_lt_zero k')
  | _ => trivial

/-- In a run of the normal path, two committed instances write a common key and are not ordered. -/
def Unordered (n : Nat) (acts : List Act) (x y : Nat × Int) : Prop :=
  ∃ s inst inst' k, Transition.run (step plainRuntime) (init n) acts = some s ∧
    Transition.Within (step plainRuntime) (fun s a => ∀ key, Normal n key s a) (init n) acts ∧
    s.Committed x inst ∧ s.Committed y inst' ∧ Writes inst.cmds k ∧ Writes inst'.cmds k ∧ ¬s.Orders x y

/-- A record of each and the instances that are found from them are enough to see that. -/
theorem unordered_of_run {n : Nat} {acts : List Act} {x y : Nat × Int} (j j' : Nat) (nodes nodes' : List (Nat × Int))
    {cmds cmds' : List Command} {k : String} (hplain : ∀ a ∈ acts, a.Plain n)
    (hobs : (Transition.run (step plainRuntime) (init n) acts).map (fun s =>
      ((s.record? j x).map fun inst => (inst.status, inst.cmds),
        (s.record? j' y).map fun inst => (inst.status, inst.cmds),
        decide (s.ClosedOn nodes ∧ s.ClosedOn nodes'))) =
          some (some (.committed, cmds), some (.committed, cmds'), true))
    (hwrites : Writes cmds k) (hwrites' : Writes cmds' k) (hx : x ∈ nodes ∧ y ∉ nodes)
    (hy : y ∈ nodes' ∧ x ∉ nodes') : Unordered n acts x y := by
  obtain ⟨s, hrun, heq⟩ := Option.map_eq_some_iff.mp hobs
  obtain ⟨hrecord, heq⟩ := Prod.mk.inj heq
  obtain ⟨hrecord', hclosed⟩ := Prod.mk.inj heq
  obtain ⟨inst, hinst, hfields⟩ := Option.map_eq_some_iff.mp hrecord
  obtain ⟨inst', hinst', hfields'⟩ := Option.map_eq_some_iff.mp hrecord'
  obtain ⟨hstatus, rfl⟩ := Prod.mk.inj hfields
  obtain ⟨hstatus', rfl⟩ := Prod.mk.inj hfields'
  obtain ⟨hfrom, hfrom'⟩ := of_decide_eq_true hclosed
  have hnormal : Transition.Within (step plainRuntime) (fun s a => ∀ key, Normal n key s a) (init n) acts :=
    (Transition.within_of_forall hplain).imp fun s a ha key => ha.normal s key
  refine ⟨s, inst, inst', k, hrun, hnormal, ⟨j, hinst, hstatus⟩, ⟨j', hinst', hstatus'⟩, hwrites, hwrites', ?_⟩
  rintro (hreach | hreach)
  · exact hx.2 (hfrom.mem_of_reaches hx.1 hreach)
  · exact hy.2 (hfrom'.mem_of_reaches hy.1 hreach)

/-- A proposal with one peer that commits on the fast path. -/
def fastCommit (i j c : Nat) (cmds : List Command) : List Act :=
  [.propose i cmds [j] false, .enqueue c 0, .deliver i j, .receive i j, .commit c]

/-- The peer knows of a second proposal of the leader, which is not committed yet, and depends on it only. -/
def pendingBetween : List Act :=
  fastCommit 0 1 0 [putX] ++ ([.propose 0 [putX] [1] false, .enqueue 1 0, .deliver 0 1] ++ fastCommit 1 0 2 [putX])

/-- A batch of two keys, each of which a proposal of the other replica has. -/
def twoKeys : List Act :=
  fastCommit 0 1 0 [putX] ++ (fastCommit 0 1 1 [putY] ++ fastCommit 1 0 2 [putX, putY])

/-- The PreAccepts of two proposals change places. The peer answers the first with the slot before it, which is
another key's. -/
def lateSlot : List Act :=
  fastCommit 0 1 0 [putX] ++ (fastCommit 0 1 1 [putY] ++
    [.propose 0 [putX] [1] false, .propose 0 [putX] [1] false, .enqueue 3 0, .enqueue 2 0, .deliver 0 1, .deliver 0 1,
      .receive 0 1, .receive 0 1, .enqueue 2 0, .deliver 0 1, .receive 0 1, .commit 2])

def putEmpty : Command := ⟨1, "", "1"⟩

/-- No conflict map holds the empty key. -/
def emptyKey : List Act := fastCommit 0 1 0 [putEmpty] ++ fastCommit 1 0 1 [putEmpty]

theorem not_ordered : Unordered 2 pendingBetween (0, 0) (1, 0) ∧ Unordered 2 twoKeys (0, 0) (1, 0) ∧
    Unordered 2 lateSlot (0, 0) (0, 2) ∧ Unordered 2 emptyKey (0, 0) (1, 0) := by
  have hputX : Writes [putX] "x" := ⟨putX, List.mem_singleton.mpr rfl, rfl, rfl⟩
  have hputXY : Writes [putX, putY] "x" := ⟨putX, List.mem_cons_self, rfl, rfl⟩
  have hputEmpty : Writes [putEmpty] "" := ⟨putEmpty, List.mem_singleton.mpr rfl, rfl, rfl⟩
  refine ⟨?_, ?_, ?_, ?_⟩
  · exact unordered_of_run 0 1 [(0, 0)] [(1, 0), (0, 1)] (by decide) rfl
      hputX hputX (by decide) (by decide)
  · exact unordered_of_run 0 1 [(0, 0)] [(1, 0), (0, 1)] (by decide) rfl
      hputX hputXY (by decide) (by decide)
  · exact unordered_of_run 0 0 [(0, 0)] [(0, 2), (0, 1)] (by decide) rfl
      hputX hputX (by decide) (by decide)
  · exact unordered_of_run 0 1 [(0, 0)] [(1, 0)] (by decide) rfl
      hputEmpty hputEmpty (by decide) (by decide)

/-- Two proposals on one key, of different replicas. -/
def bothCommit : List Act := fastCommit 0 1 0 [putX] ++ fastCommit 1 0 1 [putX]

/-- What replica `i` has recorded for its first instance. -/
def State.ownRecord (s : State) (i : Nat) : Option (Status × List Command) :=
  (s.record? i (i, 0)).map fun inst => (inst.status, inst.cmds)

theorem State.committed_of_ownRecord {s : State} {i : Nat} (h : s.ownRecord i = some (.committed, [putX])) :
    ∃ inst, s.Committed (i, 0) inst ∧ Writes inst.cmds "x" := by
  obtain ⟨inst, hinst, hfields⟩ := Option.map_eq_some_iff.mp h
  obtain ⟨hstatus, hcmds⟩ := Prod.mk.inj hfields
  exact ⟨inst, ⟨i, hinst, hstatus⟩, putX, by rw [hcmds]; exact List.mem_singleton.mpr rfl, rfl, rfl⟩

theorem proposed_bothCommit {i : Nat} {cmds : List Command} (h : Proposed bothCommit i cmds) : cmds = [putX] := by
  obtain ⟨peers, thrifty, hmem⟩ := h
  simp only [bothCommit, fastCommit, List.cons_append, List.nil_append, List.mem_cons, List.not_mem_nil, or_false,
    Act.propose.injEq, reduceCtorEq, false_or] at hmem
  rcases hmem with ⟨-, rfl, -⟩ | ⟨-, rfl, -⟩ <;> rfl

theorem committed_ordered_bothCommit : ∃ s, Transition.run (step plainRuntime) (init 2) bothCommit = some s ∧
    s.Orders (0, 0) (1, 0) := by
  obtain ⟨s, hrun⟩ : ∃ s, Transition.run (step plainRuntime) (init 2) bothCommit = some s := ⟨_, rfl⟩
  have hplain : ∀ a ∈ bothCommit, a.Plain 2 := by decide
  have hnormal : Transition.Within (step plainRuntime) (fun s a => ∀ key, Normal 2 key s a) (init 2) bothCommit :=
    (Transition.within_of_forall hplain).imp fun s a ha key => ha.normal s key
  have hkey {k : String} (hk : Touches [putX] k) : k = "x" := List.mem_singleton.mp hk.2
  have horder : Transition.Within (step plainRuntime) InSlotOrder (init 2) bothCommit := by
    refine Transition.within_cons rfl trivial (Transition.within_cons rfl trivial (Transition.within_cons rfl ?_ ?_))
    · rintro c p rest rep hqueue hrep k entry d hk hentry
      cases hqueue
      cases hrep
      cases hentry
    refine Transition.within_cons rfl trivial (Transition.within_cons rfl trivial (Transition.within_cons rfl trivial
      (Transition.within_cons rfl trivial (Transition.within_cons rfl ?_ ?_))))
    · rintro c p rest rep hqueue hrep k entry d hk hentry hd
      cases hqueue
      cases hrep
      cases hkey hk
      cases hentry
      cases hd
      decide
    exact Transition.within_cons rfl trivial (Transition.within_cons rfl trivial trivial)
  have hoverlap : Overlap [putX] [putX] :=
    ⟨"x", ⟨by decide, List.mem_singleton.mpr rfl⟩, ⟨by decide, List.mem_singleton.mpr rfl⟩⟩
  have hlinked : Linked bothCommit := fun _ _ _ _ _ hxs hys _ _ _ => by
    rw [proposed_bothCommit hxs, proposed_bothCommit hys]
    exact hoverlap
  have hkeyed : Keyed bothCommit := fun _ _ _ _ hxs hys _ _ => by
    rw [proposed_bothCommit hxs, proposed_bothCommit hys]
    exact hoverlap
  obtain ⟨inst, hx, hwrites⟩ := State.committed_of_ownRecord
    (Transition.eq_of_run_map (f := fun s : State => s.ownRecord 0) rfl hrun)
  obtain ⟨inst', hy, hwrites'⟩ := State.committed_of_ownRecord
    (Transition.eq_of_run_map (f := fun s : State => s.ownRecord 1) rfl hrun)
  have hclosed : decide (s.ClosedOn [(0, 0), (1, 0)]) = true :=
    Transition.eq_of_run_map (f := fun s : State => decide (s.ClosedOn [(0, 0), (1, 0)])) rfl hrun
  have hresolved {z : Nat × Int} (hz : z ∈ [(0, 0), (1, 0)]) : s.Resolved z := by
    intro w hreach
    have hw := (of_decide_eq_true hclosed).mem_of_reaches hz hreach
    simp only [List.mem_cons, List.not_mem_nil, or_false] at hw
    rcases hw with rfl | rfl
    · exact ⟨inst, hx⟩
    · exact ⟨inst', hy⟩
  exact ⟨s, hrun, committed_ordered (Or.inl rfl) hnormal horder hlinked hkeyed hrun hx hy hwrites hwrites'
    (hresolved (by decide)) (hresolved (by decide))⟩

end Quorums.Epaxos
