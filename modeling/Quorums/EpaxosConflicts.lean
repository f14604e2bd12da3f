import Mathlib.Order.Bounds.Basic
import Quorums.EpaxosRecords
import Quorums.EpaxosVisits

/-! The conflict map of a replica. The attributes of a proposal are a join over what the map knows of its
keys, on the leader and on its peers alike. The map is kept up by proposals and PreAccepts alone, so it covers
the records of a replica as long as whatever is accepted or committed was announced to it before; and the
check of TryPreAccept, which reads the map, is as good as that. -/

namespace Quorums.Epaxos

open ReplicaInner

/-! ### The join -/

/-- The map has this entry for a key of the batch. -/
def Knows (conflicts : Conflicts) (cmds : List Command) (entry : ConflictEntry) : Prop :=
  ∃ k, Touches cmds k ∧ conflicts.lookup k = some entry

section Join

variable {rt : Runtime} {n : Nat} {conflicts conflicts' : Conflicts} {cmds : List Command}

theorem knows_cons {cmd : Command} {entry : ConflictEntry} : Knows conflicts (cmd :: cmds) entry ↔
    (cmd.key ≠ "" ∧ conflicts.lookup cmd.key = some entry) ∨ Knows conflicts cmds entry := by
  constructor
  · rintro ⟨k, ⟨hne, hmem⟩, hentry⟩
    rcases List.mem_cons.mp hmem with rfl | hmem
    · exact Or.inl ⟨hne, hentry⟩
    · exact Or.inr ⟨k, ⟨hne, hmem⟩, hentry⟩
  · rintro (⟨hne, hentry⟩ | ⟨k, ⟨hne, hmem⟩, hentry⟩)
    · exact ⟨cmd.key, ⟨hne, List.mem_cons_self⟩, hentry⟩
    · exact ⟨k, ⟨hne, List.mem_cons_of_mem _ hmem⟩, hentry⟩

theorem i32_of_range {x : Int} (hlow : -2 ^ 31 ≤ x) (hhigh : x < 2 ^ 31) : rt.i32 x = some x := by
  rw [Runtime.i32, if_pos ⟨hlow, hhigh⟩]

/-- The joined sequence number is the one there was or the successor of one that the map knows, and it is
not below any of these. -/
theorem joinedSeq_spec {seq m : Int} (h : joinedSeq rt conflicts cmds seq = some m) :
    seq ≤ m ∧ (∀ entry, Knows conflicts cmds entry → ∃ x, rt.i32 (entry.maxSeq + 1) = some x ∧ x ≤ m) ∧
      (m = seq ∨ ∃ entry, Knows conflicts cmds entry ∧ rt.i32 (entry.maxSeq + 1) = some m) := by
  induction cmds generalizing seq with
  | nil =>
      cases h
      refine ⟨le_rfl, fun entry hknows => ?_, Or.inl rfl⟩
      obtain ⟨k, ⟨-, hmem⟩, -⟩ := hknows
      cases hmem
  | cons cmd cmds ih =>
      rw [joinedSeq, List.foldlM_cons, Option.bind_eq_bind, Option.bind_eq_some_iff] at h
      obtain ⟨mid, hmid, hrest⟩ := h
      obtain ⟨hle, hknown, hfrom⟩ := ih hrest
      have hold : mid = seq → (∀ entry, cmd.key ≠ "" → conflicts.lookup cmd.key ≠ some entry) →
          seq ≤ m ∧ (∀ entry, Knows conflicts (cmd :: cmds) entry →
            ∃ x, rt.i32 (entry.maxSeq + 1) = some x ∧ x ≤ m) ∧
            (m = seq ∨ ∃ entry, Knows conflicts (cmd :: cmds) entry ∧ rt.i32 (entry.maxSeq + 1) = some m) := by
        rintro rfl hunknown
        refine ⟨hle, fun entry hknows => ?_, ?_⟩
        · rcases knows_cons.mp hknows with ⟨hne, hentry⟩ | hknows
          · exact absurd hentry (hunknown entry hne)
          · exact hknown entry hknows
        · exact hfrom.imp_right (Exists.imp fun entry => And.imp_left fun hknows => knows_cons.mpr (Or.inr hknows))
      split at hmid
      · rename_i hempty
        cases hmid
        exact hold rfl fun entry hne => absurd (String.isEmpty_iff.mp hempty) hne
      · rename_i hempty
        have hne : cmd.key ≠ "" := fun hkey => hempty (String.isEmpty_iff.mpr hkey)
        cases hentry : conflicts.lookup cmd.key with
        | none =>
            rw [hentry] at hmid
            cases hmid
            exact hold rfl fun entry _ hsome => by rw [hentry] at hsome; cases hsome
        | some entry =>
            rw [hentry] at hmid
            obtain ⟨next, hnext, rfl⟩ := Option.map_eq_some_iff.mp hmid
            refine ⟨(le_max_left ..).trans hle, fun entry' hknows => ?_, ?_⟩
            · rcases knows_cons.mp hknows with ⟨-, hentry'⟩ | hknows
              · cases hentry.symm.trans hentry'
                exact ⟨next, hnext, (le_max_right ..).trans hle⟩
              · exact hknown entry' hknows
            · rcases hfrom with rfl | ⟨entry', hknows, hm⟩
              · rcases max_choice seq next with hmax | hmax
                · exact Or.inl hmax
                · exact Or.inr ⟨entry, knows_cons.mpr (Or.inl ⟨hne, hentry⟩), by rw [hmax]; exact hnext⟩
              · exact Or.inr ⟨entry', knows_cons.mpr (Or.inr hknows), hm⟩

/-- The joined dependencies are the greatest of those there were and of those that the map knows. -/
theorem joinedDeps_isGreatest (hknown : ∀ key entry, conflicts.lookup key = some entry → entry.deps.length = n)
    {deps : List Int} (hdeps : deps.length = n) {i : Nat} {x : Int}
    (hx : (joinedDeps conflicts cmds deps)[i]? = some x) :
    IsGreatest {y | deps[i]? = some y ∨ ∃ entry, Knows conflicts cmds entry ∧ entry.deps[i]? = some y} x := by
  constructor
  · rcases joinedDeps_cases hx with hold | ⟨cmd, hcmd, hkey, entry, hentry, hd⟩
    · exact Or.inl hold
    · exact Or.inr ⟨entry, ⟨cmd.key, ⟨hkey, List.mem_map_of_mem hcmd⟩, hentry⟩, hd⟩
  · rintro y (hy | ⟨entry, ⟨k, ⟨hne, hmem⟩, hentry⟩, hy⟩)
    · obtain ⟨e, he, hle⟩ := le_joinedDeps cmds hknown hdeps hy
      cases hx.symm.trans he
      exact hle
    · obtain ⟨cmd, hcmd, rfl⟩ := List.mem_map.mp hmem
      obtain ⟨e, he, hle⟩ := known_le_joinedDeps hknown hdeps hcmd hne hentry hy
      cases hx.symm.trans he
      exact hle

/-- The entry says at least as much. -/
def ConflictEntry.le (entry entry' : ConflictEntry) : Prop :=
  entry.maxSeq ≤ entry'.maxSeq ∧ List.Forall₂ (· ≤ ·) entry.deps entry'.deps

theorem ConflictEntry.le_touch (entry : ConflictEntry) (r : Nat) (slot seq : Int) :
    entry.le (entry.touch r slot seq) := by
  refine ⟨le_max_left .., List.forall₂_iff_get.mpr ⟨(List.length_modify ..).symm, fun i hi hi' => ?_⟩⟩
  simp only [touch, List.get_eq_getElem, List.getElem_modify]
  split
  · exact le_max_left ..
  · exact le_rfl

theorem ReplicaInner.Touched.le {r : Nat} {slot seq : Int} (h : Touched n r slot seq cmds conflicts conflicts')
    {key : String} {entry : ConflictEntry} (hentry : conflicts.lookup key = some entry) :
    ∃ entry', conflicts'.lookup key = some entry' ∧ entry.le entry' := by
  rw [h key, hentry]
  split
  · exact ⟨_, rfl, entry.le_touch r slot seq⟩
  · exact ⟨entry, rfl, le_rfl, List.forall₂_refl _⟩

end Join

/-- The sequence numbers of the map are in the range of `i32`, and there is one above each. -/
def ReplicaInner.SeqsFit (inner : ReplicaInner) : Prop :=
  ∀ key entry, inner.conflicts.lookup key = some entry → -2 ^ 31 ≤ entry.maxSeq ∧ entry.maxSeq < 2 ^ 31 - 1

/-- A PreAccept as a join: its reply, its record and the map, and what it leaves alone. -/
structure JoinsKnown (inner : ReplicaInner) (req : Proposal) (inner' : ReplicaInner) (reply : PreAcceptReply) :
    Prop where
  header : reply.replica = inner.id ∧ reply.slot = req.slot ∧ reply.ballot = req.ballot
  recorded : inner'.instance? (asUsize req.replica) req.slot.toNat =
    some ⟨req.cmds, reply.seq, reply.deps, .preaccepted, req.ballot⟩
  seq : IsGreatest {x | x = req.seq ∨ ∃ entry, Knows inner.conflicts req.cmds entry ∧ x = entry.maxSeq + 1}
    reply.seq
  deps : ∃ joined : List Int, joined.length = inner.n ∧
    reply.deps = joined.modify (asUsize req.replica) (min · (req.slot - 1)) ∧
    ∀ (i : Nat) (x : Int), joined[i]? = some x → IsGreatest {y | (resize inner.n req.deps)[i]? = some y ∨
      ∃ entry, Knows inner.conflicts req.cmds entry ∧ entry.deps[i]? = some y} x
  status : reply.status =
    if reply.seq = req.seq ∧ reply.deps = resize inner.n req.deps then .preacceptedEq else .preaccepted
  raises : ∀ key entry, inner.conflicts.lookup key = some entry →
    ∃ entry', inner'.conflicts.lookup key = some entry' ∧ entry.le entry'
  others : ∀ r s, ¬(r = asUsize req.replica ∧ s = req.slot.toNat) → inner'.instance? r s = inner.instance? r s ∨
    inner.instance? r s = none ∧ inner'.instance? r s = some (Instance.new inner.n)
  executed : ∀ r s, inner'.isExecuted r s = inner.isExecuted r s
  store : inner'.store = inner.store

section Attributes

variable {rt : Runtime} {inner inner' : ReplicaInner}

theorem ReplicaInner.SeqsFit.not_overflows (h : inner.SeqsFit) (cmds : List Command) :
    ¬Overflows rt inner.conflicts cmds := by
  rintro ⟨-, cmd, -, -, entry, hentry, hrange⟩
  obtain ⟨hlow, hhigh⟩ := h cmd.key entry hentry
  omega

theorem ReplicaInner.SeqsFit.joinedSeq_isGreatest (h : inner.SeqsFit) {cmds : List Command} {seq m : Int}
    (hm : joinedSeq rt inner.conflicts cmds seq = some m) :
    IsGreatest {x | x = seq ∨ ∃ entry, Knows inner.conflicts cmds entry ∧ x = entry.maxSeq + 1} m := by
  have hnext {entry : ConflictEntry} (hknows : Knows inner.conflicts cmds entry) :
      rt.i32 (entry.maxSeq + 1) = some (entry.maxSeq + 1) := by
    obtain ⟨k, -, hentry⟩ := hknows
    obtain ⟨hlow, hhigh⟩ := h k entry hentry
    exact i32_of_range (by omega) (by omega)
  obtain ⟨hle, hknown, hfrom⟩ := joinedSeq_spec hm
  constructor
  · rcases hfrom with hsame | ⟨entry, hknows, hx⟩
    · exact Or.inl hsame
    · rw [hnext hknows] at hx
      exact Or.inr ⟨entry, hknows, (Option.some.inj hx).symm⟩
  · rintro x (rfl | ⟨entry, hknows, rfl⟩)
    · exact hle
    · obtain ⟨y, hy, hle⟩ := hknown entry hknows
      rw [hnext hknows] at hy
      cases hy
      exact hle

theorem Registers.joins {req : Proposal} {reply : PreAcceptReply} (hregisters : Registers rt inner req inner' reply)
    (h : inner.Framed) (hfit : inner.SeqsFit) (hslot : 0 ≤ req.slot) : JoinsKnown inner req inner' reply := by
  cases hregisters with
  | @mk opened conflicts seq _ hopens hseq _ htouched hreply =>
      have hrecords := instance?_write hopens hslot
        ⟨req.cmds, seq, preAcceptDeps inner req, .preaccepted, req.ballot⟩
      subst hreply
      refine ⟨⟨rfl, rfl, rfl⟩, ?_, hfit.joinedSeq_isGreatest hseq, ?_, rfl, fun key entry hentry => ?_,
        fun r s hother => ?_, hopens.executed, hopens.store_eq⟩
      · exact (hrecords _ _).trans (if_pos ⟨rfl, rfl⟩)
      · exact ⟨_, length_joinedDeps h.known (length_resize ..), rfl, fun i x hx =>
          joinedDeps_isGreatest h.known (length_resize ..) hx⟩
      · exact htouched.le hentry
      · have hsame := (hrecords r s).trans (if_neg hother)
        cases hinst : inner.instance? r s with
        | some inst => exact Or.inl (hsame.trans (hopens.keeps hinst))
        | none =>
            rw [hopens.records, hinst, Option.none_or] at hsame
            split at hsame
            · exact Or.inr ⟨rfl, hsame⟩
            · exact Or.inl hsame

end Attributes

/-- The leader and its peers compute the attributes of an instance by the same join. While a slot is left
to allocate, `start_proposal` returns the attributes and leaves the conflict map of a PreAccept of the same
batch with sequence number 1 and no dependencies; and every PreAccept is a join of what it carries with
what the map knows. -/
theorem attributes_join (rt : Runtime) {inner : ReplicaInner} (h : inner.Framed) (hfit : inner.SeqsFit) :
    (∀ cmds leaderId ballot, inner.id < inner.n → 0 ≤ inner.curSlot → inner.curSlot < 2 ^ 31 →
      (rt.checked = true → inner.curSlot + 1 < 2 ^ 31) →
      ∃ started peer slot seq deps reply, inner.startProposal rt cmds = some (started, slot, seq, deps) ∧
        handlePreAcceptInner rt inner ⟨leaderId, inner.id, inner.curSlot, ballot, 1, [], cmds⟩ =
          some (peer, reply) ∧
        slot = inner.curSlot ∧ reply.seq = seq ∧ reply.deps = deps ∧ peer.conflicts = started.conflicts) ∧
    ∀ req : Proposal, 0 ≤ req.replica → req.replica < inner.n → 0 ≤ req.slot → req.slot < 2 ^ 31 →
      ∃ inner' reply, handlePreAcceptInner rt inner req = some (inner', reply) ∧
        JoinsKnown inner req inner' reply := by
  constructor
  · intro cmds leaderId ballot hid hslot hi32 hchecked
    let req : Proposal := ⟨leaderId, inner.id, inner.curSlot, ballot, 1, [], cmds⟩
    obtain ⟨next, hnext⟩ : ∃ next, rt.i32 (inner.curSlot + 1) = some next := by
      refine Option.ne_none_iff_exists'.mp fun hnone => ?_
      obtain ⟨hbuild, hrange⟩ := i32_eq_none_iff.mp hnone
      have := hchecked hbuild
      omega
    obtain ⟨seq, hseq⟩ : ∃ seq, joinedSeq rt inner.conflicts cmds 1 = some seq :=
      exists_joinedSeq (hfit.not_overflows cmds)
    have hid' : asUsize req.replica = inner.id := asUsize_natCast inner.id
    have hresize : resize inner.n req.deps = List.replicate inner.n (-1) := by
      simp [req, resize]
    obtain ⟨peer, reply, hhandle, hregisters⟩ := exists_registers h
      (show asUsize req.replica < inner.n by rw [hid']; exact hid) hslot hi32 hseq
    cases hregisters with
    | @mk opened conflicts _ _ hopens hseq' htouch htouched hreply =>
        cases hseq.symm.trans hseq'
        rw [hid'] at htouch
        have hlen : (joinedDeps inner.conflicts cmds (List.replicate inner.n (-1))).length = inner.n :=
          length_joinedDeps h.known List.length_replicate
        refine ⟨{ inner with curSlot := next, conflicts }, _, inner.curSlot, seq,
          (joinedDeps inner.conflicts cmds (List.replicate inner.n (-1))).modify inner.id
            (min · (inner.curSlot - 1)), reply, ?_, hhandle, rfl, by rw [hreply], ?_, rfl⟩
        · rw [startProposal_eq h.known, hnext, hseq]
          simp only [Option.bind_eq_bind, Option.bind_some]
          rw [show touchConflicts inner.n inner.id inner.curSlot seq inner.conflicts cmds = _ from htouch,
            capSelf_eq (hid.trans_eq hlen.symm) hslot hi32]
          rfl
        · rw [hreply]
          show preAcceptDeps inner req = _
          rw [preAcceptDeps, hid', hresize]
  · intro req hr hlt hslot hi32
    obtain ⟨seq, hseq⟩ : ∃ seq, joinedSeq rt inner.conflicts req.cmds req.seq = some seq :=
      exists_joinedSeq (hfit.not_overflows req.cmds)
    obtain ⟨inner', reply, hhandle, hregisters⟩ := exists_registers h (asUsize_lt hr hlt) hslot hi32 hseq
    exact ⟨inner', reply, hhandle, hregisters.joins h hfit hslot⟩

/-- Replica 0 of two, with one proposal on `x` behind it. -/
def busy : ReplicaInner :=
  { ReplicaInner.new 0 2 with curSlot := 1, conflicts := (∅ : Conflicts).insert "x" ⟨1, [0, -1]⟩ }

theorem lookup_busy {key : String} {entry : ConflictEntry} (h : busy.conflicts.lookup key = some entry) :
    entry = ⟨1, [0, -1]⟩ := by
  by_cases hkey : key = "x"
  · subst hkey
    rw [busy, AList.lookup_insert] at h
    exact (Option.some.inj h).symm
  · rw [busy, AList.lookup_insert_ne hkey] at h
    cases h

theorem attributes_join_busy : ∃ started peer slot seq deps reply,
    busy.startProposal plainRuntime [putX] = some (started, slot, seq, deps) ∧
    handlePreAcceptInner plainRuntime busy ⟨0, busy.id, busy.curSlot, 0, 1, [], [putX]⟩ = some (peer, reply) ∧
    slot = 1 ∧ reply.seq = seq ∧ reply.deps = deps ∧ peer.conflicts = started.conflicts := by
  have hnew := framed_new 0 2
  have hframed : busy.Framed := by
    refine ⟨hnew.rows, hnew.marks, fun key entry hentry => ?_⟩
    rw [lookup_busy hentry]
    rfl
  have hfit : busy.SeqsFit := by
    intro key entry hentry
    rw [lookup_busy hentry]
    decide
  exact (attributes_join plainRuntime hframed hfit).1 [putX] 0 0 (by decide) (by decide) (by decide)
    (fun _ => by decide)

/-- With the last slot of the `i32` counter, a checked build panics in `start_proposal`, and a PreAccept of
the same instance is answered. -/
theorem leader_panics_lastSlot : ∃ inner : ReplicaInner, inner.Framed ∧ inner.SeqsFit ∧ inner.id < inner.n ∧
    inner.curSlot = 2 ^ 31 - 1 ∧ inner.startProposal plainRuntime [putX] = none ∧
    ∃ peer reply, handlePreAcceptInner plainRuntime inner ⟨0, inner.id, inner.curSlot, 0, 1, [], [putX]⟩ =
      some (peer, reply) := by
  have hnew := framed_new 0 2
  have hframed : ({ ReplicaInner.new 0 2 with curSlot := 2 ^ 31 - 1 } : ReplicaInner).Framed :=
    ⟨hnew.rows, hnew.marks, hnew.known⟩
  refine ⟨_, hframed, fun key entry hentry => ?_, Nat.two_pos, rfl, rfl, ?_⟩
  · cases hentry
  · obtain ⟨peer, reply, hhandle, -⟩ : ∃ peer reply, handlePreAcceptInner plainRuntime
        { ReplicaInner.new 0 2 with curSlot := 2 ^ 31 - 1 } ⟨0, (0 : Nat), 2 ^ 31 - 1, 0, 1, [], [putX]⟩ =
          some (peer, reply) ∧ Registers plainRuntime _ _ peer reply :=
      exists_registers hframed Nat.two_pos (by decide) (by decide) rfl
    exact ⟨peer, reply, hhandle⟩

/-! ### What the map covers -/

/-- The map has, for every key of the batch, a slot of row `r` and a sequence number that are not below
those of the instance. -/
def Covers (conflicts : Conflicts) (r : Nat) (slot : Int) (cmds : List Command) (seq : Int) : Prop :=
  ∀ k, Touches cmds k → ∃ entry, conflicts.lookup k = some entry ∧ seq ≤ entry.maxSeq ∧
    ∃ d, entry.deps[r]? = some d ∧ slot ≤ d

/-- The map covers all that is recorded. -/
def ReplicaInner.Covered (inner : ReplicaInner) : Prop :=
  ∀ r s inst, inner.instance? r s = some inst → inst.status ≠ .none →
    Covers inner.conflicts r s inst.cmds inst.seq

/-- What the job records as accepted or committed, the map covers already. -/
def Replica.Announced (rep : Replica) (job : Job) : Prop :=
  (∀ req, job = .serve (.accept req) → rep.poisoned = false → asUsize req.replica < rep.inner.n →
    0 ≤ req.slot → Covers rep.inner.conflicts (asUsize req.replica) req.slot req.cmds req.seq) ∧
  ∀ r slot v, job.commits = some (r, slot, v) → rep.poisoned = false → r < rep.inner.n → 0 ≤ slot →
    ¬rep.inner.Committed r slot → Covers rep.inner.conflicts r slot v.cmds v.seq

section Covered

variable {rt : Runtime} {n r : Nat} {slot seq : Int} {conflicts conflicts' : Conflicts} {cmds : List Command}
  {rep rep' : Replica} {job : Job} {reply : Option Reply}

theorem Covers.touched {r' : Nat} {slot' seq' : Int} {cmds' : List Command}
    (htouched : Touched n r slot seq cmds conflicts conflicts') (h : Covers conflicts r' slot' cmds' seq') :
    Covers conflicts' r' slot' cmds' seq' := by
  intro k hk
  obtain ⟨entry, hentry, hseq, d, hd, hle⟩ := h k hk
  obtain ⟨entry', hentry', hseq', hdeps⟩ := htouched.le hentry
  obtain ⟨hi, rfl⟩ := List.getElem?_eq_some_iff.mp hd
  have hi' : r' < entry'.deps.length := hi.trans_eq hdeps.length_eq
  exact ⟨entry', hentry', hseq.trans hseq', entry'.deps[r'], List.getElem?_eq_getElem hi',
    hle.trans (hdeps.get hi hi')⟩

/-- A batch that was recorded in the map is covered. -/
theorem ReplicaInner.Touched.covers (h : Touched n r slot seq cmds conflicts conflicts') (hr : r < n)
    (hknown : ∀ key entry, conflicts.lookup key = some entry → entry.deps.length = n) :
    Covers conflicts' r slot cmds seq := by
  intro k hk
  refine ⟨_, (h k).trans (if_pos hk), le_max_right .., ?_⟩
  have hlen : ((conflicts.lookup k).getD (ConflictEntry.new n)).deps.length = n := by
    cases hentry : conflicts.lookup k with
    | none => exact List.length_replicate
    | some entry => exact hknown k entry hentry
  refine ⟨_, ?_, le_max_right ((conflicts.lookup k).getD (ConflictEntry.new n)).deps[r] slot⟩
  rw [getElem?_touch, List.getElem?_eq_getElem, Option.map_some, if_pos rfl]

/-- A record is written: the rest stays covered, so it decides. -/
theorem covered_write {opened : ReplicaInner} (hopens : Opens r slot rep.inner opened) (hslot : 0 ≤ slot)
    (h : rep.inner.Covered) {inst : Instance} (hstatus : inst.status ≠ .none)
    (hinstances : rep'.inner.instances = (opened.setInstance r slot.toNat inst).instances)
    (hconflicts : rep'.inner.conflicts = rep.inner.conflicts) :
    rep'.inner.Covered ↔ Covers rep.inner.conflicts r slot inst.cmds inst.seq := by
  have hrecords (r' s' : Nat) : rep'.inner.instance? r' s' =
      if r' = r ∧ s' = slot.toNat then some inst else opened.instance? r' s' := by
    rw [← instance?_write hopens hslot, instance?, hinstances]
    rfl
  have hplace : ((slot.toNat : Nat) : Int) = slot := Int.toNat_of_nonneg hslot
  constructor
  · intro hcovered
    have hthis := hcovered r slot.toNat inst ((hrecords _ _).trans (if_pos ⟨rfl, rfl⟩)) hstatus
    rwa [hconflicts, hplace] at hthis
  · intro hcovers r' s' x hx hnone
    rw [hconflicts]
    rw [hrecords] at hx
    split at hx
    · rename_i heq
      cases hx
      rw [heq.1, heq.2, hplace]
      exact hcovers
    · rcases hopens.cases_record hx with hold | rfl
      · exact h r' s' x hold hnone
      · exact absurd rfl hnone

theorem covered_opened {opened : ReplicaInner} (hopens : Opens r slot rep.inner opened) (h : rep.inner.Covered)
    (hinstances : rep'.inner.instances = opened.instances)
    (hconflicts : rep'.inner.conflicts = rep.inner.conflicts) : rep'.inner.Covered := by
  intro r' s' x hx hnone
  rw [instance?, hinstances] at hx
  rw [hconflicts]
  rcases hopens.cases_record hx with hold | rfl
  · exact h r' s' x hold hnone
  · exact absurd rfl hnone

/-- A job keeps the map covering, exactly when what it records as accepted or committed was announced. -/
theorem Works.covered_iff (hworks : Works rt rep job rep' reply) (hframed : rep.inner.Framed)
    (h : rep.inner.Covered) : rep'.inner.Covered ↔ rep.Announced job := by
  cases hworks with
  | refused hlock =>
      have hclosed : ¬rep.poisoned = false := fun hopen => absurd (hlock.symm.trans hopen) nofun
      exact iff_of_true h ⟨fun _ _ hopen => absurd hopen hclosed, fun _ _ _ _ hopen => absurd hopen hclosed⟩
  | started _ hstart =>
      obtain ⟨next, conflicts, rfl, -, -, -, htouched⟩ := touched_of_startProposal hframed hstart
      refine iff_of_true (fun r s inst hinst hnone => ?_) ⟨nofun, nofun⟩
      exact (h r s inst hinst hnone).touched htouched
  | startPanic | prepared | tried | tryPanic | preAcceptPanic => exact iff_of_true h ⟨nofun, nofun⟩
  | preAccepted _ hr hslot hregisters =>
      cases hregisters with
      | mk hopens _ _ htouched =>
          refine iff_of_true (fun r s inst hinst hnone => ?_) ⟨nofun, nofun⟩
          have hrecord := (instance?_write hopens hslot _ r s).symm.trans hinst
          split at hrecord
          · rename_i heq
            cases hrecord
            have hcovers := htouched.covers hr hframed.known
            rw [heq.1, heq.2, Int.toNat_of_nonneg hslot]
            exact hcovers
          · rcases hopens.cases_record hrecord with hold | rfl
            · exact (h r s inst hold hnone).touched htouched
            · exact absurd rfl hnone
  | accepted hlock hr hslot hopens =>
      rw [covered_write hopens hslot h Status.noConfusion rfl hopens.conflicts_eq]
      refine ⟨fun hcovers => ⟨?_, nofun⟩, fun hannounced => hannounced.1 _ rfl hlock hr hslot⟩
      rintro req' heq - - -
      cases heq
      exact hcovers
  | acceptPanic _ hpanic =>
      refine iff_of_true h ⟨?_, nofun⟩
      rintro req' heq - hr hslot
      cases heq
      exact absurd ⟨hr, hslot⟩ hpanic
  | committed hlock hjob hr hslot hsettles hinstances hframe =>
      have hnot : ∀ req, job ≠ .serve (.accept req) := by
        rintro req rfl
        cases hjob
      cases hsettles with
      | duplicate hopens hinst hstatus =>
          refine iff_of_true (covered_opened hopens h hinstances (hframe.conflicts_eq.trans hopens.conflicts_eq))
            ⟨fun req heq => absurd heq (hnot req), fun r' slot' v' hjob' _ _ _ huncommitted => ?_⟩
          cases hjob.symm.trans hjob'
          refine absurd ((committed_iff hslot).mpr ⟨_, ?_, hstatus⟩) huncommitted
          rcases hopens.cases_record hinst with hold | rfl
          · exact hold
          · cases hstatus
      | written hopens hinst hstatus =>
          rw [covered_write hopens hslot h Status.noConfusion hinstances
            (hframe.conflicts_eq.trans hopens.conflicts_eq)]
          have huncommitted : ¬rep.inner.Committed _ _ := fun hcommitted => by
            obtain ⟨old, hold, hcommitted⟩ := (committed_iff hslot).mp hcommitted
            cases hinst.symm.trans (hopens.keeps hold)
            exact hstatus hcommitted
          refine ⟨fun hcovers => ⟨fun req heq => absurd heq (hnot req), ?_⟩,
            fun hannounced => hannounced.2 _ _ _ hjob hlock hr hslot huncommitted⟩
          intro r' slot' v' hjob' _ _ _ _
          cases hjob.symm.trans hjob'
          exact hcovers
  | commitPanic _ hjob hpanic =>
      refine iff_of_true h ⟨?_, fun r' slot' v' hjob' _ hr hslot => ?_⟩
      · rintro req rfl
        cases hjob
      · cases hjob.symm.trans hjob'
        exact absurd ⟨hr, hslot⟩ hpanic

theorem covered_new (id n : Nat) : (Replica.new id n).inner.Covered := by
  intro r s inst hinst
  obtain ⟨row, hrow, hs⟩ := Option.bind_eq_some_iff.mp hinst
  rw [(List.mem_replicate.mp (List.mem_of_getElem? hrow)).2] at hs
  cases hs

end Covered

/-- The attributes of an instance of row `own` order it after the record at `(r, s)`: it has a larger
sequence number and depends on it, unless that is at its own slot or a later one of its own row. -/
def OrderedAfter (own : Nat) (slot seq : Int) (deps : List Int) (r s : Nat) (inst : Instance) : Prop :=
  inst.seq < seq ∧ ∃ d, deps[r]? = some d ∧ ((s : Int) ≤ d ∨ r = own ∧ slot ≤ s)

/-- Where no sequence number overflows, a proposal or a PreAccept is ordered after every record that it has
a key in common with. -/
def ReplicaInner.OrdersLater (rt : Runtime) (inner : ReplicaInner) : Prop :=
  ∀ r s inst, inner.instance? r s = some inst → inst.status ≠ .none →
    (∀ cmds inner' slot seq deps, Overlap inst.cmds cmds → SeqFits inner.conflicts cmds →
      0 ≤ inner.curSlot → inner.curSlot < 2 ^ 31 →
      inner.startProposal rt cmds = some (inner', slot, seq, deps) →
      OrderedAfter inner.id slot seq deps r s inst) ∧
    ∀ req inner' reply, Overlap inst.cmds req.cmds → SeqFits inner.conflicts req.cmds → req.slot < 2 ^ 31 →
      handlePreAcceptInner rt inner req = some (inner', reply) →
      OrderedAfter (asUsize req.replica) req.slot reply.seq reply.deps r s inst

section OrdersLater

variable {rt : Runtime} {inner : ReplicaInner}

theorem ReplicaInner.Covered.orderedAfter (h : inner.Covered) (hframed : inner.Framed) {r s : Nat}
    {inst : Instance} (hinst : inner.instance? r s = some inst) (hnone : inst.status ≠ .none)
    {cmds : List Command} (hoverlap : Overlap inst.cmds cmds) (hfits : SeqFits inner.conflicts cmds)
    {base : List Int} (hbase : base.length = inner.n) {first seq : Int}
    (hseq : joinedSeq rt inner.conflicts cmds first = some seq) (own : Nat) (slot : Int) :
    OrderedAfter own slot seq ((joinedDeps inner.conflicts cmds base).modify own (min · (slot - 1)))
      r s inst := by
  obtain ⟨k, hk, hk'⟩ := hoverlap
  obtain ⟨entry, hentry, hmax, d, hd, hle⟩ := h r s inst hinst hnone k hk
  obtain ⟨cmd, hcmd, rfl⟩ := List.mem_map.mp hk'.2
  constructor
  · obtain ⟨hlow, hhigh⟩ := hfits cmd hcmd entry hentry
    obtain ⟨x, hx, hxle⟩ := (joinedSeq_spec hseq).2.1 entry ⟨cmd.key, hk', hentry⟩
    rw [i32_of_range hlow hhigh] at hx
    cases hx
    omega
  · obtain ⟨e, he, hde⟩ := known_le_joinedDeps hframed.known hbase hcmd hk'.1 hentry hd
    refine ⟨_, (List.getElem?_modify ..).trans (congrArg _ he), ?_⟩
    dsimp only
    by_cases hown : own = r
    · rw [if_pos hown]
      rcases Int.lt_or_le (s : Int) slot with hlt | hge
      · exact Or.inl (le_min (hle.trans hde) (by omega))
      · exact Or.inr ⟨hown.symm, hge⟩
    · rw [if_neg hown]
      exact Or.inl (hle.trans hde)

theorem ReplicaInner.Covered.ordersLater (h : inner.Covered) (hframed : inner.Framed) : inner.OrdersLater rt := by
  intro r s inst hinst hnone
  constructor
  · intro cmds inner' slot seq deps hoverlap hfits hslot hi32 hstart
    obtain ⟨next, conflicts, -, hid, hslot', hseq, -⟩ := touched_of_startProposal hframed hstart
    have hlen : (joinedDeps inner.conflicts cmds (List.replicate inner.n (-1))).length = inner.n :=
      length_joinedDeps hframed.known List.length_replicate
    simp only [startProposal_eq hframed.known, capSelf_eq (hid.trans_eq hlen.symm) hslot hi32,
      Option.bind_eq_bind, Option.bind_eq_some_iff] at hstart
    obtain ⟨next', -, seq', -, conflicts', -, capped, hcap, hresult⟩ := hstart
    cases hcap
    cases hresult
    exact h.orderedAfter hframed hinst hnone hoverlap hfits List.length_replicate hseq _ _
  · intro req inner' reply hoverlap hfits hi32 hhandle
    obtain ⟨-, -, hregisters⟩ := registers_of_handle hframed hi32 hhandle
    cases hregisters with
    | mk _ hseq _ _ hreply =>
        rw [hreply]
        exact h.orderedAfter hframed hinst hnone hoverlap hfits (length_resize ..) hseq _ _

end OrdersLater

/-- The map covers what is recorded in all states of a run if and only if every step records what was covered
before. -/
theorem covered_run_iff (rt : Runtime) (id n : Nat) {jobs : List Job} (hjobs : ∀ job ∈ jobs, job.Fits) :
    (∀ pre post rep, jobs = pre ++ post →
      Transition.run (Replica.step rt) (Replica.new id n) pre = some rep → rep.inner.Covered) ↔
    Transition.Within (Replica.step rt) Replica.Announced (Replica.new id n) jobs := by
  have htotal (rep : Replica) (job : Job) (hrep : rep.Sized n) (hjob : job.Fits) :
      ∃ rep', rep.step rt job = some rep' ∧ rep'.Sized n := hrep.step hjob
  refine Transition.forall_state_iff_within htotal (fun rep job rep' hrep hjob hcovered hstep => ?_)
    (sized_new id n) (covered_new id n) hjobs
  cases hstep
  exact (works hrep.1 hjob).covered_iff hrep.1 hcovered

/-- In every run of a replica, the conflict map covers what is recorded in all states, exactly when whatever
an Accept or a commit records was covered by the map before; and where the map covers what is recorded, later
proposals and PreAccepts are ordered after it. -/
theorem conflicts_cover_iff (rt : Runtime) (id n : Nat) {jobs : List Job} (hjobs : ∀ job ∈ jobs, job.Fits) :
    ((∀ pre post rep, jobs = pre ++ post →
        Transition.run (Replica.step rt) (Replica.new id n) pre = some rep → rep.inner.Covered) ↔
      Transition.Within (Replica.step rt) Replica.Announced (Replica.new id n) jobs) ∧
    ∀ pre post rep, jobs = pre ++ post → Transition.run (Replica.step rt) (Replica.new id n) pre = some rep →
      rep.inner.Covered → rep.inner.OrdersLater rt := by
  refine ⟨covered_run_iff rt id n hjobs, fun pre post rep hsplit hrun hcovered => ?_⟩
  have hsized : rep.Sized n := (sized_new id n).run (fun job hjob =>
    hjobs job (by rw [hsplit]; exact List.mem_append_left _ hjob)) hrun
  exact hcovered.ordersLater hsized.1

/-- A PreAccept, then the Accept and the Commit with the same attributes. -/
def announcedRound : List Job :=
  [.serve (.preAccept ⟨1, 1, 0, 0, 1, [-1, -1], [putX]⟩), .serve (.accept ⟨1, 1, 0, 0, 1, [-1, -1], [putX]⟩),
    .serve (.commit ⟨1, 1, 0, [putX], 1, [-1, -1]⟩)]

theorem conflicts_cover_iff_announcedRound :
    Transition.Within (Replica.step plainRuntime) Replica.Announced (Replica.new 0 2) announcedRound ∧
    ∀ pre post rep, announcedRound = pre ++ post →
      Transition.run (Replica.step plainRuntime) (Replica.new 0 2) pre = some rep → rep.inner.Covered := by
  have hfits : ∀ job ∈ announcedRound, job.Fits := by simp [announcedRound, Job.Fits]
  have hannounced : Transition.Within (Replica.step plainRuntime) Replica.Announced (Replica.new 0 2)
      announcedRound := by
    have hcovers {conflicts : Conflicts} (h : conflicts.lookup "x" = some ⟨1, [-1, 0]⟩) :
        Covers conflicts 1 0 [putX] 1 := by
      rintro k ⟨-, hk⟩
      rw [List.map_singleton, List.mem_singleton] at hk
      subst hk
      exact ⟨_, h, le_rfl, 0, rfl, le_rfl⟩
    refine Transition.within_cons rfl ⟨by rintro _ ⟨⟩, by rintro _ _ _ ⟨⟩⟩
      (Transition.within_cons rfl ⟨?_, by rintro _ _ _ ⟨⟩⟩
        (Transition.within_cons rfl ⟨by rintro _ ⟨⟩, ?_⟩ trivial))
    · rintro req heq - - -
      cases heq
      exact hcovers rfl
    · rintro r slot v heq - - - -
      cases heq
      exact hcovers rfl
  exact ⟨hannounced, (conflicts_cover_iff plainRuntime 0 2 hfits).1.mpr hannounced⟩

/-- An instance of which the replica hears first by its Commit. -/
def unannounced : List Job := [.serve (.commit ⟨1, 1, 0, [putX], 1, [-1, -1]⟩)]

theorem not_covered_unannounced : ¬∀ pre post rep, unannounced = pre ++ post →
    Transition.run (Replica.step plainRuntime) (Replica.new 0 2) pre = some rep → rep.inner.Covered := by
  intro hcovered
  obtain ⟨entry, hentry, -⟩ := hcovered unannounced [] _ rfl rfl 1 0 _ rfl Status.noConfusion "x"
    ⟨by decide, by decide⟩
  cases hentry

/-! ### TryPreAccept -/

namespace ReplicaInner

/-- The instance of the request is accepted or committed here. -/
def Settled (inner : ReplicaInner) (req : Proposal) : Prop :=
  ∃ inst, inner.record? (asUsize req.replica) req.slot = some inst ∧ inst.status.settled = true

/-- The instance of the request is accepted or committed here with the value of the request. -/
def Holds (inner : ReplicaInner) (req : Proposal) : Prop :=
  ∃ inst, inner.record? (asUsize req.replica) req.slot = some inst ∧ inst.status.settled = true ∧
    inst.value = req.value

/-- What an approval should mean: the value is the one that is held, or the instance is open and its
dependencies cover every other record with a key in common. -/
def ConflictFree (inner : ReplicaInner) (req : Proposal) : Prop :=
  inner.Holds req ∨ ¬inner.Settled req ∧ ∀ r s inst, inner.instance? r s = some inst → inst.status ≠ .none →
    ¬(r = asUsize req.replica ∧ (s : Int) = req.slot) → Overlap inst.cmds req.cmds →
    (s : Int) ≤ req.deps[r]?.getD (-1)

end ReplicaInner

/-- The dependencies do not cover the slot `d` of row `r`, which is not that of the request. -/
def Proposal.Misses (req : Proposal) (r : Nat) (d : Int) : Prop :=
  0 ≤ d ∧ req.deps[r]?.getD (-1) < d ∧ ¬(r = asUsize req.replica ∧ d = req.slot)

namespace ReplicaInner

/-- The map has a slot for a key of the request that its dependencies miss. -/
def Reports (inner : ReplicaInner) (req : Proposal) : Prop :=
  ∃ entry, Knows inner.conflicts req.cmds entry ∧ ∃ (r : Nat) (d : Int), entry.deps[r]? = some d ∧ req.Misses r d

/-- A record in the row of the request, with a key in common, that the dependencies miss, and the last slot
of the row that the map has for the key is the one of the request itself. -/
def Hides (inner : ReplicaInner) (req : Proposal) : Prop :=
  ∃ s inst k entry, inner.instance? (asUsize req.replica) s = some inst ∧ inst.status ≠ .none ∧
    Touches inst.cmds k ∧ Touches req.cmds k ∧ inner.conflicts.lookup k = some entry ∧
    entry.deps[asUsize req.replica]? = some req.slot ∧ req.Misses (asUsize req.replica) s

end ReplicaInner

section TryPreAccept

variable {rt : Runtime} {inner : ReplicaInner} {req : Proposal}

theorem uncovered_spec (req : Proposal) {known : List Int} {rs : List Nat} (hrs : ∀ r ∈ rs, r < known.length) :
    ∃ out, uncovered req known rs = some out ∧
      (out = none ↔ ∀ r ∈ rs, ∀ d, known[r]? = some d → ¬req.Misses r d) := by
  induction rs with
  | nil => exact ⟨none, rfl, by simp⟩
  | cons r rs ih =>
      have hr : r < known.length := hrs r List.mem_cons_self
      have hget : known[r]? = some known[r] := List.getElem?_eq_getElem hr
      obtain ⟨out, hout, hiff⟩ := ih fun x hx => hrs x (List.mem_cons_of_mem r hx)
      have hcons (hmiss : ¬req.Misses r known[r]) :
          (out = none ↔ ∀ x ∈ r :: rs, ∀ d, known[x]? = some d → ¬req.Misses x d) := by
        rw [List.forall_mem_cons, hiff]
        refine ⟨fun h => ⟨fun d hd => ?_, h⟩, fun h => h.2⟩
        cases hget.symm.trans hd
        exact hmiss
      rw [uncovered, hget]
      dsimp only
      by_cases hneg : known[r] < 0
      · rw [if_pos hneg]
        exact ⟨out, hout, hcons fun hmiss => absurd hmiss.1 (Int.not_le.mpr hneg)⟩
      · rw [if_neg hneg]
        by_cases hmiss : known[r] > req.deps[r]?.getD (-1) ∧ ¬(r = asUsize req.replica ∧ known[r] = req.slot)
        · rw [if_pos hmiss]
          refine ⟨_, rfl, iff_of_false (by rintro ⟨⟩) fun h => h r List.mem_cons_self _ hget ?_⟩
          exact ⟨Int.not_lt.mp hneg, hmiss.1, hmiss.2⟩
        · rw [if_neg hmiss]
          exact ⟨out, hout, hcons fun h => hmiss ⟨h.2.1, h.2.2⟩⟩

theorem conflictOf_spec (h : inner.Framed) (req : Proposal) (cmds : List Command) :
    ∃ out, conflictOf inner req cmds = some out ∧ (out = none ↔
      ∀ entry, Knows inner.conflicts cmds entry → ∀ (r : Nat) (d : Int), entry.deps[r]? = some d →
        ¬req.Misses r d) := by
  induction cmds with
  | nil =>
      refine ⟨none, rfl, iff_of_true rfl fun entry hknows => ?_⟩
      obtain ⟨k, ⟨-, hmem⟩, -⟩ := hknows
      cases hmem
  | cons cmd cmds ih =>
      obtain ⟨out, hout, hiff⟩ := ih
      have hskip (hunknown : ∀ entry, cmd.key ≠ "" → inner.conflicts.lookup cmd.key ≠ some entry) :
          (out = none ↔ ∀ entry, Knows inner.conflicts (cmd :: cmds) entry → ∀ (r : Nat) (d : Int),
            entry.deps[r]? = some d → ¬req.Misses r d) := by
        rw [hiff]
        refine ⟨fun h entry hknows => ?_, fun h entry hknows => h entry (knows_cons.mpr (Or.inr hknows))⟩
        rcases knows_cons.mp hknows with ⟨hne, hentry⟩ | hknows
        · exact absurd hentry (hunknown entry hne)
        · exact h entry hknows
      rw [conflictOf]
      by_cases hempty : cmd.key.isEmpty
      · rw [if_pos hempty]
        exact ⟨out, hout, hskip fun entry hne => absurd (String.isEmpty_iff.mp hempty) hne⟩
      rw [if_neg hempty]
      have hne : cmd.key ≠ "" := fun hkey => hempty (String.isEmpty_iff.mpr hkey)
      cases hentry : inner.conflicts.lookup cmd.key with
      | none =>
          refine ⟨out, hout, hskip fun entry _ hsome => ?_⟩
          rw [hentry] at hsome
          cases hsome
      | some entry =>
          have hlen := h.known _ entry hentry
          have hrs : ∀ r ∈ List.range inner.n, r < entry.deps.length := fun r hr => by
            rw [hlen]
            exact List.mem_range.mp hr
          obtain ⟨found, hfound, hnone⟩ := uncovered_spec req hrs
          dsimp only
          rw [hfound]
          have hentries : found = none ↔ ∀ (r : Nat) (d : Int), entry.deps[r]? = some d → ¬req.Misses r d := by
            rw [hnone]
            refine ⟨fun hall r d hd => hall r (List.mem_range.mpr ?_) d hd, fun hall r _ => hall r⟩
            rw [← hlen]
            exact (List.getElem?_eq_some_iff.mp hd).1
          cases found with
          | some conflict =>
              refine ⟨some conflict, rfl, iff_of_false (by rintro ⟨⟩) fun hall => ?_⟩
              cases hentries.mpr (hall entry (knows_cons.mpr (Or.inl ⟨hne, hentry⟩)))
          | none =>
              refine ⟨out, hout, hiff.trans ⟨fun hall entry' hknows => ?_, fun hall entry' hknows => ?_⟩⟩
              · rcases knows_cons.mp hknows with ⟨-, hentry'⟩ | hknows
                · cases hentry.symm.trans hentry'
                  exact hentries.mp rfl
                · exact hall entry' hknows
              · exact hall entry' (knows_cons.mpr (Or.inr hknows))

/-- TryPreAccept is answered, and approved where the instance is settled or the map reports nothing. -/
theorem handleTryPreAccept_ok (h : inner.Framed) (req : Proposal) :
    ∃ reply, handleTryPreAcceptInner inner req = some reply ∧
      (reply.ok = true ↔ inner.Settled req ∨ ¬inner.Reports req) := by
  have hsettled : ((inner.record? (asUsize req.replica) req.slot).map
      fun inst => inst.status.settled).getD false = true ↔ inner.Settled req := by
    rw [Settled]
    cases inner.record? (asUsize req.replica) req.slot with
    | none => simp
    | some inst => simp
  rw [handleTryPreAcceptInner]
  by_cases hs : inner.Settled req
  · rw [if_pos (hsettled.mpr hs)]
    exact ⟨_, rfl, iff_of_true rfl (Or.inl hs)⟩
  · rw [if_neg fun hc => hs (hsettled.mp hc)]
    obtain ⟨out, hout, hiff⟩ := conflictOf_spec h req req.cmds
    have hreports : inner.Reports req ↔ out ≠ none := by
      rw [Ne, hiff]
      constructor
      · rintro ⟨entry, hknows, r, d, hd, hmisses⟩ hall
        exact hall entry hknows r d hd hmisses
      · intro hnot
        by_contra hclear
        exact hnot fun entry hknows r d hd hmisses => hclear ⟨entry, hknows, r, d, hd, hmisses⟩
    rw [hout]
    cases out with
    | none => exact ⟨_, rfl, iff_of_true rfl (Or.inr fun hr => hreports.mp hr rfl)⟩
    | some conflict =>
        have hconflict : some conflict ≠ none := by rintro ⟨⟩
        refine ⟨_, rfl, iff_of_false (by rintro ⟨⟩) fun hor => ?_⟩
        exact hor.elim hs fun hnot => hnot (hreports.mpr hconflict)

/-- What the map does not report is in the row of the request, behind its own slot. -/
theorem ReplicaInner.Covered.conflictFree (h : inner.Covered) (hsettled : ¬inner.Settled req)
    (hreports : ¬inner.Reports req) (hhides : ¬inner.Hides req) : inner.ConflictFree req := by
  refine Or.inr ⟨hsettled, fun r s inst hinst hnone hother hoverlap => ?_⟩
  by_contra hmiss
  obtain ⟨k, hk, hk'⟩ := hoverlap
  obtain ⟨entry, hentry, -, d, hd, hle⟩ := h r s inst hinst hnone k hk
  have hmisses : req.Misses r s := ⟨Int.natCast_nonneg s, Int.not_le.mp hmiss, hother⟩
  by_cases hown : r = asUsize req.replica ∧ d = req.slot
  · obtain ⟨rfl, rfl⟩ := hown
    exact hhides ⟨s, inst, k, entry, hinst, hnone, hk, hk', hentry, hd, hmisses⟩
  · exact hreports ⟨entry, ⟨k, hk', hentry⟩, r, d, hd, hmisses.1.trans hle, hmisses.2.1.trans_le hle, hown⟩

end TryPreAccept

/-- In every run in which whatever is accepted or committed was announced to the map, an approval by
TryPreAccept means what it should, exactly when a value that is held is the one of the request, and nothing
hides behind the slot of the request where the map reports no conflict. -/
theorem tryPreAccept_sound_iff (rt : Runtime) (id n : Nat) {jobs : List Job} (hjobs : ∀ job ∈ jobs, job.Fits)
    (hannounced : Transition.Within (Replica.step rt) Replica.Announced (Replica.new id n) jobs) {rep : Replica}
    (hrun : Transition.run (Replica.step rt) (Replica.new id n) jobs = some rep) (req : Proposal) :
    (∀ reply, handleTryPreAcceptInner rep.inner req = some reply → reply.ok = true →
      rep.inner.ConflictFree req) ↔
    (rep.inner.Settled req → rep.inner.Holds req) ∧
      (¬rep.inner.Settled req → ¬rep.inner.Reports req → ¬rep.inner.Hides req) := by
  have hsized : rep.Sized n := (sized_new id n).run hjobs hrun
  have hcovered : rep.inner.Covered :=
    (covered_run_iff rt id n hjobs).mpr hannounced jobs [] rep (List.append_nil jobs).symm hrun
  obtain ⟨reply, hreply, hok⟩ := handleTryPreAccept_ok hsized.1 req
  constructor
  · intro hsound
    refine ⟨fun hsettled => ?_, fun hsettled hreports hhides => ?_⟩
    · rcases hsound reply hreply (hok.mpr (Or.inl hsettled)) with hholds | ⟨hnot, -⟩
      · exact hholds
      · exact absurd hsettled hnot
    · rcases hsound reply hreply (hok.mpr (Or.inr hreports)) with ⟨inst, hinst, hstatus, -⟩ | ⟨-, hall⟩
      · exact hsettled ⟨inst, hinst, hstatus⟩
      · obtain ⟨s, inst, k, entry, hinst, hnone, hk, hk', -, -, hmisses⟩ := hhides
        exact absurd (hall _ s inst hinst hnone hmisses.2.2 ⟨k, hk, hk'⟩) (Int.not_le.mpr hmisses.2.1)
  · rintro ⟨hholds, hhides⟩ reply' hreply' hok'
    cases hreply.symm.trans hreply'
    by_cases hsettled : rep.inner.Settled req
    · exact Or.inl (hholds hsettled)
    · have hreports := (hok.mp hok').resolve_left hsettled
      exact hcovered.conflictFree hsettled hreports (hhides hsettled hreports)

/-- The first two instances of replica 1, both on `x`. -/
def twoInRow : List Job :=
  [.serve (.preAccept ⟨1, 1, 0, 0, 1, [-1, -1], [putX]⟩), .serve (.preAccept ⟨1, 1, 1, 0, 2, [-1, 0], [putX]⟩)]

theorem fits_twoInRow : ∀ job ∈ twoInRow, job.Fits := by simp [twoInRow, Job.Fits]

theorem announced_twoInRow :
    Transition.Within (Replica.step plainRuntime) Replica.Announced (Replica.new 0 2) twoInRow :=
  Transition.within_cons rfl ⟨nofun, nofun⟩ (Transition.within_cons rfl ⟨nofun, nofun⟩ trivial)

/-- The second is tried again with a dependency on the first. -/
theorem tryPreAccept_sound_iff_twoInRow : ∃ rep,
    Transition.run (Replica.step plainRuntime) (Replica.new 0 2) twoInRow = some rep ∧
    handleTryPreAcceptInner rep.inner ⟨0, 1, 1, 1, 2, [-1, 0], [putX]⟩ = some ⟨0, 1, true, 1, -1, -1⟩ ∧
    rep.inner.ConflictFree ⟨0, 1, 1, 1, 2, [-1, 0], [putX]⟩ := by
  refine ⟨_, rfl, rfl, (tryPreAccept_sound_iff plainRuntime 0 2 fits_twoInRow announced_twoInRow rfl
    ⟨0, 1, 1, 1, 2, [-1, 0], [putX]⟩).mpr ⟨?_, ?_⟩ _ rfl rfl⟩
  · rintro ⟨inst, hinst, hstatus⟩
    cases hinst
    cases hstatus
  · rintro - - ⟨s, inst, k, entry, hinst, -, -, -, -, -, hmisses⟩
    have hs : s < 2 := (List.getElem?_eq_some_iff.mp hinst).1
    obtain ⟨-, hlt, hother⟩ := hmisses
    have hdep : ((([-1, 0] : List Int)[asUsize 1]?).getD (-1)) = 0 := rfl
    rw [hdep] at hlt
    exact hother ⟨rfl, by show (s : Int) = 1; omega⟩

/-- The second is tried again without a dependency on the first: the map has the slot of the request for
`x`, and the check passes. -/
theorem not_conflictFree_twoInRow : ∃ rep,
    Transition.run (Replica.step plainRuntime) (Replica.new 0 2) twoInRow = some rep ∧
    handleTryPreAcceptInner rep.inner ⟨0, 1, 1, 1, 2, [-1, -1], [putX]⟩ = some ⟨0, 1, true, 1, -1, -1⟩ ∧
    ¬rep.inner.ConflictFree ⟨0, 1, 1, 1, 2, [-1, -1], [putX]⟩ := by
  refine ⟨_, rfl, rfl, ?_⟩
  rintro (⟨inst, hinst, hstatus, -⟩ | ⟨-, hall⟩)
  · cases hinst
    cases hstatus
  · have hle := hall 1 0 _ rfl Status.noConfusion (fun hown => absurd hown.2 (by decide))
      ⟨"x", ⟨by decide, by decide⟩, ⟨by decide, by decide⟩⟩
    exact absurd hle (by decide)

end Quorums.Epaxos
