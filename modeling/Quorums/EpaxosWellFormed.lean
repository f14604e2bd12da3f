import Quorums.EpaxosLocal
import Quorums.EpaxosLog

/-! The attributes of instances stay well formed: every dependency vector that is recorded or sent has an
entry for each replica, and no instance depends on itself or a later slot of its row. So no handler indexes
a vector out of bounds. The slot counter is an `i32`: once it has wrapped around, none of this holds. -/

namespace Quorums.Epaxos

open ReplicaInner

/-- A dependency vector of the instance `key`: an entry for each replica, -1 or a slot, and only earlier
slots in the row of the instance. -/
structure DepsFor (n : Nat) (key : Nat × Int) (deps : List Int) : Prop where
  length_eq : deps.length = n
  lower : ∀ d ∈ deps, -1 ≤ d
  self : ∀ d, deps[key.1]? = some d → d < key.2

section Vectors

variable {n : Nat} {key : Nat × Int} {deps deps' : List Int}

theorem depsFor_replicate (n : Nat) (key : Nat × Int) (h : 0 ≤ key.2) : DepsFor n key (List.replicate n (-1)) where
  length_eq := List.length_replicate
  lower d hd := by rw [(List.mem_replicate.mp hd).2]
  self d hd := by
    rw [(List.mem_replicate.mp (List.mem_of_getElem? hd)).2]
    omega

theorem mergeDeps_eq (h : deps.length = deps'.length) : mergeDeps deps deps' = List.zipWith max deps deps' := by
  induction deps generalizing deps' with
  | nil => simp [mergeDeps]
  | cons d deps ih =>
      cases deps' with
      | nil => cases h
      | cons d' deps' =>
          rw [mergeDeps, List.zipWith_cons_cons, ih (Nat.succ.inj h)]

theorem DepsFor.mergeDeps (h : DepsFor n key deps) (h' : DepsFor n key deps') :
    DepsFor n key (mergeDeps deps deps') := by
  rw [mergeDeps_eq (h.length_eq.trans h'.length_eq.symm)]
  have hmem {i : Nat} {d : Int} (hd : (List.zipWith max deps deps')[i]? = some d) :
      deps[i]? = some d ∨ deps'[i]? = some d := by
    obtain ⟨a, b, ha, hb, rfl⟩ := List.getElem?_zipWith_eq_some.mp hd
    rcases le_total b a with hle | hle
    · exact Or.inl (by rw [ha, max_eq_left hle])
    · exact Or.inr (by rw [hb, max_eq_right hle])
  refine ⟨?_, fun d hd => ?_, fun d hd => (hmem hd).elim (h.self d) (h'.self d)⟩
  · rw [List.length_zipWith, h.length_eq, h'.length_eq, Nat.min_self]
  · obtain ⟨i, hi⟩ := List.mem_iff_getElem?.mp hd
    rcases hmem hi with hi | hi
    · exact h.lower d (List.mem_of_getElem? hi)
    · exact h'.lower d (List.mem_of_getElem? hi)

/-- The attributes that a replica computes for an instance. -/
theorem depsFor_joined {conflicts : Conflicts} (key : Nat × Int) (cmds : List Command)
    (hlength : ∀ k entry, conflicts.lookup k = some entry → entry.deps.length = n)
    (hlower : ∀ k entry, conflicts.lookup k = some entry → ∀ d ∈ entry.deps, -1 ≤ d)
    (hdeps : deps.length = n) (hdepslower : ∀ d ∈ deps, -1 ≤ d) (hslot : 0 ≤ key.2) :
    DepsFor n key ((joinedDeps conflicts cmds deps).modify key.1 (min · (key.2 - 1))) := by
  have hjoined {i : Nat} {d : Int} (hd : (joinedDeps conflicts cmds deps)[i]? = some d) : -1 ≤ d := by
    rcases joinedDeps_cases hd with hd | ⟨cmd, -, -, entry, hentry, hd⟩
    · exact hdepslower d (List.mem_of_getElem? hd)
    · exact hlower _ entry hentry d (List.mem_of_getElem? hd)
  refine ⟨?_, fun d hd => ?_, fun d hd => ?_⟩
  · rw [List.length_modify]
    exact length_joinedDeps hlength hdeps
  · obtain ⟨i, hi⟩ := List.mem_iff_getElem?.mp hd
    rw [List.getElem?_modify] at hi
    obtain ⟨x, hx, rfl⟩ := Option.map_eq_some_iff.mp hi
    have := hjoined hx
    split
    · omega
    · exact this
  · rw [List.getElem?_modify] at hd
    obtain ⟨x, -, rfl⟩ := Option.map_eq_some_iff.mp hd
    rw [if_pos rfl]
    omega

end Vectors

theorem Runtime.i32_lt {rt : Runtime} {x y : Int} (h : rt.i32 x = some y) : y < 2 ^ 31 := by
  rw [Runtime.i32] at h
  split at h
  · cases h
    omega
  · split at h
    · cases h
    · cases h
      omega

/-! ### Replicas -/

/-- A replica whose vectors are well formed. -/
structure Sound (n id : Nat) (inner : ReplicaInner) : Prop where
  id_eq : inner.id = id
  lt : id < n
  n_eq : inner.n = n
  curSlot_lt : inner.curSlot < 2 ^ 31
  shaped : inner.Shaped
  records : ∀ r s inst, inner.instance? r s = some inst → DepsFor n (r, (s : Int)) inst.deps
  known : ∀ k entry, inner.conflicts.lookup k = some entry → ∀ d ∈ entry.deps, -1 ≤ d

namespace Sound

variable {rt : Runtime} {n id : Nat} {inner inner' : ReplicaInner}

theorem setInstance (h : Sound n id inner) {r s : Nat} {inst : Instance}
    (hdeps : DepsFor n (r, (s : Int)) inst.deps) : Sound n id (inner.setInstance r s inst) where
  id_eq := h.id_eq
  lt := h.lt
  n_eq := h.n_eq
  curSlot_lt := h.curSlot_lt
  shaped := h.shaped.setInstance (hdeps.length_eq.trans h.n_eq.symm)
  records r' s' x hx := by
    rcases instance?_setInstance hx with ⟨rfl, rfl, rfl⟩ | hold
    · exact hdeps
    · exact h.records r' s' x hold
  known := h.known

theorem grown (h : Sound n id inner) {r : Nat} {slot : Int} (hgrown : Grown r slot inner inner') :
    Sound n id inner' where
  id_eq := hgrown.id_eq.trans h.id_eq
  lt := h.lt
  n_eq := hgrown.n_eq.trans h.n_eq
  curSlot_lt := by rw [hgrown.curSlot_eq]; exact h.curSlot_lt
  shaped := hgrown.shaped
  records r' s x hx := by
    rw [hgrown.records] at hx
    rcases Option.or_eq_some_iff.mp hx with hold | ⟨-, hnew⟩
    · exact h.records r' s x hold
    · split at hnew
      · cases hnew
        rw [← h.n_eq]
        exact depsFor_replicate _ _ (Int.natCast_nonneg s)
      · cases hnew
  known := by rw [hgrown.conflicts_eq]; exact h.known

/-- A batch is recorded in the conflict map. -/
theorem touched (h : Sound n id inner) {r : Nat} {slot seq : Int} {cmds : List Command} (hslot : -1 ≤ slot)
    {conflicts : Conflicts} (htouched : Touched inner.n r slot seq cmds inner.conflicts conflicts)
    {curSlot : Int} (hcur : curSlot < 2 ^ 31) : Sound n id { inner with curSlot, conflicts } where
  id_eq := h.id_eq
  lt := h.lt
  n_eq := h.n_eq
  curSlot_lt := hcur
  shaped := ⟨h.shaped.rows, h.shaped.marks, h.shaped.deps, htouched.length_deps h.shaped.known⟩
  records := h.records
  known k entry hentry d hd := by
    rw [htouched] at hentry
    split at hentry
    · cases hentry
      obtain ⟨i, hi⟩ := List.mem_iff_getElem?.mp hd
      rw [ConflictEntry.touch, List.getElem?_modify] at hi
      obtain ⟨x, hx, rfl⟩ := Option.map_eq_some_iff.mp hi
      have hold : -1 ≤ x := by
        cases hlookup : inner.conflicts.lookup k with
        | none =>
            rw [hlookup, Option.getD_none] at hx
            rw [(List.mem_replicate.mp (List.mem_of_getElem? hx)).2]
        | some old =>
            rw [hlookup, Option.getD_some] at hx
            exact h.known k old hlookup x (List.mem_of_getElem? hx)
      split
      · omega
      · exact hold
    · exact h.known k entry hentry d hd

theorem execute (h : Sound n id inner) (key : Nat × Int) : Sound n id (inner.execute key) where
  id_eq := by
    rw [ReplicaInner.execute]
    dsimp only
    split <;> exact h.id_eq
  lt := h.lt
  n_eq := (n_execute inner key).trans h.n_eq
  curSlot_lt := by
    rw [ReplicaInner.execute]
    dsimp only
    split <;> exact h.curSlot_lt
  shaped := shaped_execute h.shaped key
  records r s inst hinst := by
    rw [instance?, instances_execute] at hinst
    exact h.records r s inst hinst
  known := by
    rw [ReplicaInner.execute]
    dsimp only
    split <;> exact h.known

/-- The executor runs through. -/
theorem executeAllReady (h : Sound n id inner) (rt : Runtime) :
    ∃ inner', inner.executeAllReady rt = some inner' ∧ Sound n id inner' := by
  rw [executeAllReady_eq, groups, ready_eq h.shaped]
  simp only [Option.bind_eq_bind, Option.bind_some, pure, Option.map_some]
  refine ⟨_, rfl, ?_⟩
  generalize List.flatten _ = keys
  induction keys generalizing inner with
  | nil => exact h
  | cons key keys ih => exact ih (h.execute key)

/-- A commit is recorded. -/
theorem recordCommit (h : Sound n id inner) {r : Nat} {slot : Int} (hslot : 0 ≤ slot) {v : Value}
    (hdeps : DepsFor n (r, slot) v.deps) {duplicate : Bool}
    (hrecords : RecordsCommit inner r slot v inner' duplicate) : Sound n id inner' := by
  cases hrecords with
  | duplicate hgrown => exact h.grown hgrown
  | written hgrown =>
      refine (h.grown hgrown).setInstance ?_
      rw [Int.toNat_of_nonneg hslot]
      exact hdeps

theorem exists_recordCommit (h : Sound n id inner) {r : Nat} {slot : Int} (hr : r < n) (hslot : 0 ≤ slot)
    {v : Value} (hdeps : DepsFor n (r, slot) v.deps) :
    ∃ inner' duplicate, Epaxos.recordCommit inner r slot v = some (inner', duplicate) ∧ Sound n id inner' := by
  obtain ⟨inner', duplicate, hrecord, hrecords⟩ :=
    Epaxos.exists_recordCommit h.shaped (by rw [h.n_eq]; exact hr) hslot v
  exact ⟨inner', duplicate, hrecord, h.recordCommit hslot hdeps hrecords⟩

theorem commitLocal (h : Sound n id inner) (rt : Runtime) {r : Nat} {slot : Int} (hr : r < n)
    (hslot : 0 ≤ slot) {v : Value} (hdeps : DepsFor n (r, slot) v.deps) :
    ∃ inner', Epaxos.commitLocal rt inner r slot v = some inner' ∧ Sound n id inner' := by
  obtain ⟨recorded, duplicate, hrecord, hsound⟩ := h.exists_recordCommit hr hslot hdeps
  obtain ⟨inner', hexecute, hsound'⟩ := hsound.executeAllReady rt
  refine ⟨inner', ?_, hsound'⟩
  simp only [Epaxos.commitLocal, hrecord, Option.bind_eq_bind, Option.bind_some, hexecute]

theorem handleCommit (h : Sound n id inner) (rt : Runtime) {req : CommitRequest}
    (hr : asUsize req.replica < n) (hslot : 0 ≤ req.slot)
    (hdeps : DepsFor n (asUsize req.replica, req.slot) req.deps) :
    ∃ inner', handleCommitInner rt inner req = some inner' ∧ Sound n id inner' := by
  obtain ⟨recorded, duplicate, hrecord, hsound⟩ := h.exists_recordCommit (v := req.value) hr hslot hdeps
  simp only [handleCommitInner, hrecord, Option.bind_eq_bind, Option.bind_some]
  cases duplicate with
  | true => exact ⟨recorded, rfl, hsound⟩
  | false => exact hsound.executeAllReady rt

theorem startProposal (h : Sound n id inner) (hslot : 0 ≤ inner.curSlot) {cmds : List Command}
    {slot seq : Int} {deps : List Int} (hstart : inner.startProposal rt cmds = some (inner', slot, seq, deps)) :
    slot = inner.curSlot ∧ Sound n id inner' ∧ DepsFor n (id, slot) deps := by
  have hid : inner.id < inner.n := by
    rw [h.id_eq, h.n_eq]
    exact h.lt
  cases starts_of_startProposal h.shaped hid hslot h.curSlot_lt hstart with
  | mk hnext hdeps htouched =>
      refine ⟨rfl, h.touched (by omega) htouched (Runtime.i32_lt hnext), ?_⟩
      rw [hdeps, h.id_eq, h.n_eq]
      refine depsFor_joined (id, inner.curSlot) cmds ?_ h.known List.length_replicate ?_ hslot
      · rw [← h.n_eq]
        exact h.shaped.known
      · exact (depsFor_replicate n (id, inner.curSlot) hslot).lower

theorem handlePreAccept (h : Sound n id inner) {req : Proposal} {reply : PreAcceptReply}
    (hslot : 0 ≤ req.slot) (hi32 : req.slot < 2 ^ 31)
    (hdeps : DepsFor n (asUsize req.replica, req.slot) req.deps)
    (hhandle : handlePreAcceptInner rt inner req = some (inner', reply)) :
    Sound n id inner' ∧ DepsFor n (asUsize req.replica, req.slot) reply.deps := by
  cases preAccepts_of_handle h.shaped hi32 hhandle with
  | mk hgrown hjoined htouched hreply =>
      have hresize : resize inner.n req.deps = req.deps := resize_eq_self (hdeps.length_eq.trans h.n_eq.symm)
      have hfor := depsFor_joined (asUsize req.replica, req.slot) req.cmds
        (by rw [← h.n_eq]; exact h.shaped.known) h.known hdeps.length_eq hdeps.lower hslot
      rw [hresize] at hjoined
      subst hreply
      dsimp only
      rw [hjoined]
      refine ⟨?_, hfor⟩
      have hgrown' := h.grown hgrown
      rw [← hgrown.n_eq, ← hgrown.conflicts_eq] at htouched
      refine (hgrown'.touched (by omega) htouched hgrown'.curSlot_lt).setInstance ?_
      rw [Int.toNat_of_nonneg hslot]
      exact hfor

theorem handleAccept (h : Sound n id inner) {req : Proposal} {reply : AcceptReply}
    (hr : asUsize req.replica < n) (hslot : 0 ≤ req.slot)
    (hdeps : DepsFor n (asUsize req.replica, req.slot) req.deps)
    (hhandle : handleAcceptInner inner req = some (inner', reply)) : Sound n id inner' := by
  obtain ⟨grown, hgrown, heq⟩ := accept_eq h.shaped (by rw [h.n_eq]; exact hr) hslot
  cases hhandle.symm.trans heq
  refine (h.grown hgrown).setInstance ?_
  rw [Int.toNat_of_nonneg hslot]
  exact hdeps

/-- What a Prepare reply shows of a record. -/
theorem handlePrepare (h : Sound n id inner) {req : PrepareRequest}
    (hstatus : (handlePrepareInner inner req).status ≠ .none) :
    DepsFor n (asUsize req.replica, req.slot) (handlePrepareInner inner req).deps := by
  rw [handlePrepareInner] at hstatus ⊢
  cases hrecord : inner.record? (asUsize req.replica) req.slot with
  | none =>
      rw [hrecord] at hstatus
      exact absurd rfl hstatus
  | some inst =>
      rw [record?] at hrecord
      split at hrecord
      · cases hrecord
      · have hfor := h.records _ _ inst hrecord
        rwa [Int.toNat_of_nonneg (by omega)] at hfor

/-- The check of a TryPreAccept runs through. -/
theorem exists_tryPreAccept (h : Sound n id inner) (req : Proposal) :
    ∃ reply, handleTryPreAcceptInner inner req = some reply := by
  have huncovered {known : List Int} (hknown : known.length = n) {rows : List Nat} (hrows : ∀ r ∈ rows, r < n) :
      ∃ conflict, uncovered req known rows = some conflict := by
    induction rows with
    | nil => exact ⟨none, rfl⟩
    | cons r rows ih =>
        have hrest := ih fun x hx => hrows x (List.mem_cons_of_mem r hx)
        have hr := hrows r List.mem_cons_self
        rw [uncovered, List.getElem?_eq_getElem (by rw [hknown]; exact hr)]
        dsimp only
        split
        · exact hrest
        · split
          · exact ⟨_, rfl⟩
          · exact hrest
  have hconflict (cmds : List Command) : ∃ conflict, conflictOf inner req cmds = some conflict := by
    induction cmds with
    | nil => exact ⟨none, rfl⟩
    | cons cmd cmds ih =>
        rw [conflictOf]
        split
        · exact ih
        · split
          · exact ih
          · rename_i entry hentry
            have hrows : ∀ r ∈ List.range inner.n, r < n := by
              rw [h.n_eq]
              exact fun r hr => List.mem_range.mp hr
            obtain ⟨conflict, hsome⟩ := huncovered ((h.shaped.known _ entry hentry).trans h.n_eq) hrows
            rw [hsome]
            cases conflict with
            | none => exact ih
            | some conflict => exact ⟨_, rfl⟩
  rw [handleTryPreAcceptInner]
  split
  · exact ⟨_, rfl⟩
  · obtain ⟨conflict, hsome⟩ := hconflict req.cmds
    rw [hsome]
    exact ⟨_, rfl⟩

end Sound

/-! ### Messages and calls -/

/-- The dependency vector of a message; a Prepare has none. -/
def Request.deps? : Request → Option (List Int)
  | .preAccept p | .accept p | .tryPreAccept p => some p.deps
  | .commit c => some c.deps
  | .prepare _ => none

/-- An instance that may exist. -/
def Valid (n : Nat) (key : Nat × Int) : Prop := key.1 < n ∧ 0 ≤ key.2

/-- A message about the instance `key`. A recovery may be asked for anything, and its messages then reach
no record; a PreAccept is about an instance that was started. -/
structure Request.Sound (n : Nat) (key : Nat × Int) (req : Request) : Prop where
  key_eq : req.key = key
  deps : Valid n key → ∀ deps, req.deps? = some deps → DepsFor n key deps
  valid : ∀ p, req = .preAccept p → Valid n key
  i32 : ∀ p, req = .preAccept p → p.slot < 2 ^ 31

def Reply.Sound (n : Nat) (key : Nat × Int) : Reply → Prop
  | .preAccept r => DepsFor n key r.deps
  | .prepare r => r.status ≠ .none → DepsFor n key r.deps
  | _ => True

def Phase.Sound (n : Nat) (key : Nat × Int) : Phase → Prop
  | .preAccepting _ _ deps replies => DepsFor n key deps ∧ ∀ r ∈ replies, DepsFor n key r.deps
  | .preparing replies => ∀ r ∈ replies, r.status ≠ .none → DepsFor n key r.deps
  | .tryPreAccepting v _ | .accepting v _ | .committing v _ | .notifying v _ => DepsFor n key v.deps
  | .done info => DepsFor n key info.deps
  | .failed => True

namespace Coordinator

/-- A call; with `strict`, its instance may exist. -/
structure Sound (strict : Prop) (n : Nat) (c : Coordinator) : Prop where
  valid : strict → Valid n c.key
  phase : Valid n c.key → c.phase.Sound n c.key
  size : ∀ replies, c.phase = .preparing replies → c.size = n
  outbox : ∀ e ∈ c.outbox, e.2.Sound n c.key

namespace Sound

variable {strict : Prop} {n : Nat} {c : Coordinator} {v : Value}

theorem setPhase (h : c.Sound strict n) {phase : Phase} (hphase : Valid n c.key → phase.Sound n c.key)
    (hnot : ∀ replies, phase ≠ .preparing replies) : Sound strict n { c with phase } :=
  ⟨h.valid, hphase, fun replies heq => absurd heq (hnot replies), h.outbox⟩

theorem fanOut (h : c.Sound strict n) (peers : List Nat) {req : Request} (hreq : req.Sound n c.key) :
    (c.fanOut peers req).Sound strict n := by
  refine ⟨h.valid, h.phase, h.size, fun e he => ?_⟩
  rcases List.mem_append.mp he with he | he
  · exact h.outbox e he
  · obtain ⟨p, -, rfl⟩ := List.mem_map.mp he
    exact hreq

theorem request (hdeps : Valid n c.key → DepsFor n c.key v.deps) (req : Request) (hkey : req.key = c.key)
    (hreq : req.deps? = some v.deps) (hnot : ∀ p, req ≠ .preAccept p) : req.Sound n c.key where
  key_eq := hkey
  deps hvalid deps heq := by
    rw [hreq] at heq
    cases heq
    exact hdeps hvalid
  valid p heq := absurd heq (hnot p)
  i32 p heq := absurd heq (hnot p)

theorem key_proposal (c : Coordinator) (v : Value) :
    (asUsize (c.proposal v).replica, (c.proposal v).slot) = c.key := by
  simp [proposal, key]

theorem accept (h : c.Sound strict n) (hdeps : Valid n c.key → DepsFor n c.key v.deps) :
    (c.accept v).Sound strict n :=
  (h.fanOut c.peers (request hdeps (.accept (c.proposal v)) (key_proposal c v) rfl nofun)).setPhase
    hdeps nofun

theorem commit (h : c.Sound strict n) (hdeps : Valid n c.key → DepsFor n c.key v.deps) (fastPath : Bool) :
    (c.commit v fastPath).Sound strict n := h.setPhase hdeps nofun

theorem fail (h : c.Sound strict n) : c.fail.Sound strict n := h.setPhase (fun _ => trivial) nofun

theorem conclude (h : c.Sound strict n) {analysis : Analysis}
    (hdeps : Valid n c.key → DepsFor n c.key analysis.value.deps) :
    (c.conclude analysis).Sound strict n := by
  cases analysis with
  | committed v => exact h.commit hdeps false
  | accepted v => exact h.accept hdeps
  | slow v => exact h.accept hdeps
  | tryFast v =>
      have hreq := request hdeps (.tryPreAccept (c.proposal v)) (key_proposal c v) rfl nofun
      exact (h.fanOut c.peers hreq).setPhase hdeps nofun

end Sound

end Coordinator

/-- The attributes a PreAccept round ends with. -/
theorem depsFor_preAcceptDecision {n fastQuorum slowQuorum : Nat} {key : Nat × Int} {seq seq' : Int}
    {deps deps' : List Int} {replies : List PreAcceptReply} {fastPath : Bool} (hdeps : DepsFor n key deps)
    (hreplies : ∀ r ∈ replies, DepsFor n key r.deps)
    (h : preAcceptDecision fastQuorum slowQuorum seq deps replies = some (seq', deps', fastPath)) :
    DepsFor n key deps' := by
  have hmerged : DepsFor n key (replies.foldl (fun deps r => mergeDeps deps r.deps) deps) := by
    clear h
    induction replies generalizing deps with
    | nil => exact hdeps
    | cons r replies ih =>
        exact ih (hdeps.mergeDeps (hreplies r List.mem_cons_self))
          fun x hx => hreplies x (List.mem_cons_of_mem r hx)
  simp only [preAcceptDecision] at h
  split at h
  · cases h
    exact hdeps
  · split at h
    · cases h
      exact hmerged
    · split at h
      · cases h
        exact hmerged
      · cases h

/-- The attributes a recovery goes on with. -/
theorem depsFor_analyze {n : Nat} {key : Nat × Int} (hnonneg : 0 ≤ key.2) {replies : List PrepareReply}
    (hreplies : ∀ r ∈ replies, r.status ≠ .none → DepsFor n key r.deps) :
    DepsFor n key (analyze n replies).value.deps := by
  by_cases hown : (analyze n replies).own
  · -- a preaccepted reply, or none at all
    rw [analyze] at hown ⊢
    split
    · rename_i r hr
      rw [hr] at hown
      cases hown
    · split
      · rename_i hnone _ r hr
        rw [hnone, hr] at hown
        cases hown
      · dsimp only
        have hvalue (p : Prop) [Decidable p] (v : Value) :
            (if p then Analysis.tryFast v else .slow v).value = v := by
          split <;> rfl
        rw [hvalue]
        split
        · rename_i first hfirst
          have hmem := List.mem_filter.mp (List.mem_of_mem_head? hfirst)
          refine hreplies first hmem.1 fun hnone => ?_
          have hstatus := hmem.2
          rw [hnone] at hstatus
          simp at hstatus
        · exact depsFor_replicate n key hnonneg
  · obtain ⟨r, hr, hsettled, hvalue⟩ := Coordinator.analyze_adopted (by simpa using hown)
    rw [hvalue]
    refine hreplies r hr fun hnone => ?_
    rw [hnone] at hsettled
    cases hsettled

namespace Coordinator.Sound

variable {strict : Prop} {n : Nat} {c : Coordinator}

theorem receive (h : c.Sound strict n) {reply : Reply} (hreply : Valid n c.key → reply.Sound n c.key) :
    (c.receive reply).1.Sound strict n := by
  have hphase := h.phase
  cases reply with
  | preAccept r =>
      simp only [Coordinator.receive]
      split
      · rename_i cmds seq deps replies heq
        rw [heq] at hphase
        have hreplies (hvalid : Valid n c.key) : ∀ x ∈ replies ++ [r], DepsFor n c.key x.deps := by
          intro x hx
          rcases List.mem_append.mp hx with hx | hx
          · exact (hphase hvalid).2 x hx
          · rw [List.mem_singleton.mp hx]
            exact hreply hvalid
        split
        · rename_i seq' deps' fastPath hdecision
          have hdeps (hvalid : Valid n c.key) : DepsFor n c.key deps' :=
            depsFor_preAcceptDecision (hphase hvalid).1 (hreplies hvalid) hdecision
          dsimp only
          split
          · exact h.commit (v := ⟨cmds, seq', deps'⟩) hdeps true
          · exact h.accept (v := ⟨cmds, seq', deps'⟩) hdeps
        · exact h.setPhase (fun hvalid => ⟨(hphase hvalid).1, hreplies hvalid⟩) (by rintro _ ⟨⟩)
      · exact h
  | prepare r =>
      simp only [Coordinator.receive]
      split
      · rename_i replies heq
        rw [heq] at hphase
        have hsize := h.size replies heq
        have hreplies (hvalid : Valid n c.key) :
            ∀ x ∈ replies ++ [r], x.status ≠ .none → DepsFor n c.key x.deps := by
          intro x hx
          rcases List.mem_append.mp hx with hx | hx
          · exact hphase hvalid x hx
          · rw [List.mem_singleton.mp hx]
            exact hreply hvalid
        split
        · rw [hsize]
          exact h.conclude fun hvalid => depsFor_analyze hvalid.2 (hreplies hvalid)
        · exact ⟨h.valid, hreplies, fun _ _ => hsize, h.outbox⟩
      · exact h
  | tryPreAccept r =>
      simp only [Coordinator.receive]
      split
      · rename_i v replies heq
        rw [heq] at hphase
        split
        · dsimp only
          split
          · exact h.commit hphase true
          · exact h.accept hphase
        · exact h.setPhase hphase (by rintro _ ⟨⟩)
      · exact h
  | accept r =>
      simp only [Coordinator.receive]
      split
      · rename_i v count heq
        rw [heq] at hphase
        split
        · exact h.commit hphase false
        · exact h.setPhase hphase (by rintro _ ⟨⟩)
      · exact h

theorem giveUp (h : c.Sound strict n) {next : Coordinator} (hnext : c.giveUp = some next) :
    next.Sound strict n := by
  have hphase := h.phase
  rw [Coordinator.giveUp] at hnext
  split at hnext
  · rename_i v replies heq
    rw [heq] at hphase
    cases hnext
    exact h.accept hphase
  all_goals cases hnext
  exact h.fail

end Coordinator.Sound

theorem sound_propose (strict : Prop) {n home : Nat} (cmds : List Command) (peers : List Nat) (thrifty : Bool)
    {slot : Int} (seq : Int) {deps : List Int} (hhome : home < n) (hslot : 0 ≤ slot) (hi32 : slot < 2 ^ 31)
    (hdeps : DepsFor n (home, slot) deps) :
    (Coordinator.propose home cmds peers thrifty slot seq deps).Sound strict n := by
  have hfresh (commitPeers : List Nat) : Coordinator.Sound strict n
      ⟨home, peers, commitPeers, home, slot, peers.length + 1, 0, .preAccepting cmds seq deps [], []⟩ :=
    ⟨fun _ => ⟨hhome, hslot⟩, fun _ => ⟨hdeps, by simp⟩, by simp, by simp⟩
  rw [Coordinator.propose]
  split
  · exact (hfresh _).fail
  · refine (hfresh _).fanOut peers ⟨?_, fun _ d hd => ?_, fun _ _ => ⟨hhome, hslot⟩, fun p hp => ?_⟩
    · simp [Request.key, Coordinator.proposal, Coordinator.key]
    · cases hd
      exact hdeps
    · cases hp
      exact hi32

theorem sound_recover {strict : Prop} {n replica : Nat} (home : Nat) {slot : Int} (peers : List Nat)
    (hvalid : strict → Valid n (replica, slot)) :
    (Coordinator.recover home n replica slot peers).Sound strict n := by
  have hfresh : Coordinator.Sound strict n ⟨home, peers, peers, replica, slot, n, 1, .preparing [], []⟩ :=
    ⟨hvalid, fun _ _ hmem => absurd hmem List.not_mem_nil, fun _ _ => rfl, by simp⟩
  rw [Coordinator.recover]
  split
  · exact hfresh.fail
  · exact hfresh.fanOut peers
      ⟨by simp [Request.key, Coordinator.key], by rintro _ _ ⟨⟩, by rintro _ ⟨⟩, by rintro _ ⟨⟩⟩

/-! ### The cluster -/

/-- What holds of each replica, each call and each message. -/
def wellFormedLocal (strict : Prop) (n : Nat) : Local where
  replica := Sound n
  call := Coordinator.Sound strict n
  request c _ req := req.Sound n c.key
  reply c _ reply := Valid n c.key → reply.Sound n c.key

/-- A proposal finds a slot; with `strict`, a recovery is about an instance that may exist. -/
def Targets (strict : Prop) (n : Nat) : Act → ReplicaInner → Prop
  | .propose _ _ _ _, inner => 0 ≤ inner.curSlot
  | .recover _ replica slot _, _ => strict → Valid n (replica, slot)
  | _, _ => True

namespace Sound

variable {rt : Runtime} {n id : Nat} {inner inner' : ReplicaInner}

/-- There is no room for a record of an instance that cannot exist. -/
theorem valid_of_ensureSlot (h : Sound n id inner) {r : Nat} {slot : Int}
    (hgrown : inner.ensureSlot r slot = some inner') : Valid n (r, slot) := by
  refine ⟨?_, nonneg_of_ensureSlot hgrown⟩
  rw [← h.n_eq]
  exact lt_of_ensureSlot h.shaped.framed hgrown

theorem valid_of_recordCommit (h : Sound n id inner) {r : Nat} {slot : Int} {v : Value} {duplicate : Bool}
    (hrecord : Epaxos.recordCommit inner r slot v = some (inner', duplicate)) : Valid n (r, slot) := by
  simp only [Epaxos.recordCommit, Option.bind_eq_bind, Option.bind_eq_some_iff] at hrecord
  obtain ⟨grown, hgrown, -⟩ := hrecord
  exact h.valid_of_ensureSlot hgrown

theorem commitRemains (h : Sound n id inner) {r : Nat} {slot : Int} {v : Value}
    (hdeps : Valid n (r, slot) → DepsFor n (r, slot) v.deps) :
    Sound n id (Epaxos.commitRemains inner r slot v) := by
  rw [Epaxos.commitRemains]
  cases hrecord : Epaxos.recordCommit inner r slot v with
  | none => exact h
  | some p =>
      have hvalid := h.valid_of_recordCommit hrecord
      obtain ⟨recorded, duplicate, hrecord', hsound⟩ := h.exists_recordCommit hvalid.1 hvalid.2 (hdeps hvalid)
      cases hrecord.symm.trans hrecord'
      exact hsound

theorem handle (h : Sound n id inner) {key : Nat × Int} {req : Request} {reply : Option Reply}
    (hreq : req.Sound n key) (hhandle : Epaxos.handle rt inner req = some (inner', reply)) :
    Sound n id inner' ∧ ∀ r, reply = some r → Valid n key → r.Sound n key := by
  obtain ⟨rfl, hdeps, hvalid, hi32⟩ := hreq
  cases req with
  | preAccept p =>
      obtain ⟨⟨served, r⟩, hinner, heq⟩ := Option.map_eq_some_iff.mp hhandle
      cases heq
      have hkey := hvalid p rfl
      obtain ⟨hsound, hreply⟩ := h.handlePreAccept hkey.2 (hi32 p rfl) (hdeps hkey _ rfl) hinner
      refine ⟨hsound, fun x hx _ => ?_⟩
      cases hx
      exact hreply
  | accept p =>
      obtain ⟨⟨served, r⟩, hinner, heq⟩ := Option.map_eq_some_iff.mp hhandle
      cases heq
      have hkey : Valid n (asUsize p.replica, p.slot) := by
        have hgrown := hinner
        simp only [handleAcceptInner, Option.bind_eq_bind, Option.bind_eq_some_iff] at hgrown
        obtain ⟨grown, hgrown, -⟩ := hgrown
        exact h.valid_of_ensureSlot hgrown
      refine ⟨h.handleAccept hkey.1 hkey.2 (hdeps hkey _ rfl) hinner, fun x hx _ => ?_⟩
      cases hx
      trivial
  | commit c =>
      obtain ⟨served, hinner, heq⟩ := Option.map_eq_some_iff.mp hhandle
      cases heq
      have hkey : Valid n (asUsize c.replica, c.slot) := by
        have hrecorded := hinner
        simp only [handleCommitInner, Option.bind_eq_bind, Option.bind_eq_some_iff] at hrecorded
        obtain ⟨p, hrecord, -⟩ := hrecorded
        exact h.valid_of_recordCommit hrecord
      obtain ⟨committed, hcommit, hsound⟩ := h.handleCommit rt hkey.1 hkey.2 (hdeps hkey _ rfl)
      cases hinner.symm.trans hcommit
      exact ⟨hsound, by rintro _ ⟨⟩⟩
  | prepare p =>
      cases hhandle
      refine ⟨h, fun x hx _ => ?_⟩
      cases hx
      exact h.handlePrepare
  | tryPreAccept p =>
      obtain ⟨r, -, heq⟩ := Option.map_eq_some_iff.mp hhandle
      cases heq
      refine ⟨h, fun x hx _ => ?_⟩
      cases hx
      trivial

end Sound

theorem kept_wellFormedLocal (strict : Prop) (rt : Runtime) (n : Nat) :
    (wellFormedLocal strict n).Kept rt (Targets strict n) where
  propose {i cmds peers thrifty inner inner' slot seq deps} hrep hok hstart := by
    obtain ⟨rfl, hsound, hdeps⟩ := Sound.startProposal hrep hok hstart
    refine ⟨hsound, ?_⟩
    rw [Sound.id_eq hrep]
    exact sound_propose strict cmds peers thrifty seq hrep.lt hok hrep.curSlot_lt hdeps
  recover {i replica slot peers inner} hrep hok := by
    rw [Sound.n_eq hrep]
    exact sound_recover _ peers hok
  send hcall he := Coordinator.Sound.outbox hcall _ he
  sent hcall := ⟨hcall.valid, hcall.phase, hcall.size,
    fun e he => hcall.outbox e (List.mem_of_mem_eraseIdx he)⟩
  handle hrep hreq hhandle := Sound.handle hrep hreq hhandle
  remains {call j inner req} hrep hreq := by
    cases req with
    | commit c =>
        refine Sound.commitRemains hrep fun hvalid => ?_
        rw [show (asUsize c.replica, c.slot) = call.key from Request.Sound.key_eq hreq] at hvalid ⊢
        exact Request.Sound.deps hreq hvalid _ rfl
    | _ => exact hrep
  receive hcall hreply := Coordinator.Sound.receive hcall hreply
  giveUp hcall hnext := Coordinator.Sound.giveUp hcall hnext
  commitLocal {call v fastPath inner inner'} hrep hcall hphase hcommit := by
    have hdeps := hcall.phase
    rw [hphase] at hdeps
    have hvalid : Valid n call.key := by
      have hrecorded := hcommit
      simp only [Epaxos.commitLocal, Option.bind_eq_bind, Option.bind_eq_some_iff] at hrecorded
      obtain ⟨p, hrecord, -⟩ := hrecorded
      exact Sound.valid_of_recordCommit hrep hrecord
    obtain ⟨committed, hcommit', hsound⟩ := Sound.commitLocal hrep rt hvalid.1 hvalid.2 (hdeps hvalid)
    cases hcommit.symm.trans hcommit'
    exact hsound
  commitRemains {call v fastPath inner} hrep hcall hphase := by
    have hdeps := hcall.phase
    rw [hphase] at hdeps
    exact Sound.commitRemains hrep hdeps
  notify {call v fastPath} hcall hphase := by
    have hdeps := hcall.phase
    rw [hphase] at hdeps
    have hreq := Coordinator.Sound.request hdeps (.commit (call.commitRequest v))
      (by simp [Request.key, Coordinator.commitRequest, Coordinator.key]) rfl (by rintro _ ⟨⟩)
    exact (Coordinator.Sound.fanOut hcall call.commitPeers hreq).setPhase hdeps (by rintro _ ⟨⟩)
  fail hcall := Coordinator.Sound.fail hcall
  finish {call v fastPath} hcall hphase := by
    have hdeps := hcall.phase
    rw [hphase] at hdeps
    exact Coordinator.Sound.setPhase hcall hdeps (by rintro _ ⟨⟩)

theorem sound_new {n i : Nat} (hi : i < n) : Sound n i (ReplicaInner.new i n) where
  id_eq := rfl
  lt := hi
  n_eq := rfl
  curSlot_lt := by
    show (0 : Int) < 2 ^ 31
    decide
  shaped := shaped_new i n
  records r s inst hinst := by
    obtain ⟨row, hrow, hs⟩ := Option.bind_eq_some_iff.mp hinst
    rw [(List.mem_replicate.mp (List.mem_of_getElem? hrow)).2] at hs
    cases hs
  known k entry hentry := by simp [ReplicaInner.new] at hentry

/-! ### Slots -/

def Act.proposes (i : Nat) : Act → Bool
  | .propose j _ _ _ => j = i
  | _ => false

/-- How many propose calls there are on the replica `i`. -/
def proposals (i : Nat) (acts : List Act) : Nat := acts.countP (Act.proposes i)

/-- The counter has slots for `k` more proposals; a build that checks arithmetic does not go beyond. -/
def Room (checked : Bool) (inner : ReplicaInner) (k : Nat) : Prop :=
  k = 0 ∨ (0 ≤ inner.curSlot ∧ (checked = true ∨ inner.curSlot + k ≤ 2 ^ 31))

theorem curSlot_startProposal {rt : Runtime} {inner inner' : ReplicaInner} {cmds : List Command}
    {slot seq : Int} {deps : List Int} (h : inner.startProposal rt cmds = some (inner', slot, seq, deps)) :
    slot = inner.curSlot ∧ rt.i32 (inner.curSlot + 1) = some inner'.curSlot := by
  simp only [startProposal, Option.bind_eq_bind, Option.bind_eq_some_iff] at h
  obtain ⟨next, hnext, attrs, -, conflicts, -, capped, -, hresult⟩ := h
  cases hresult
  exact ⟨rfl, hnext⟩

theorem Room.mono {checked : Bool} {inner inner' : ReplicaInner} {k k' : Nat} (h : Room checked inner k)
    (hk : k' ≤ k) (hcur : inner'.curSlot = inner.curSlot) : Room checked inner' k' := by
  rcases h with rfl | ⟨hnonneg, hroom⟩
  · exact Or.inl (Nat.le_zero.mp hk)
  · refine Or.inr ⟨by omega, hroom.imp_right fun hle => by omega⟩

theorem Room.changes {checked : Bool} {rt : Runtime} {s : State} {a : Act} {acts : List Act} {i : Nat}
    {inner inner' : ReplicaInner} (h : Room checked inner (proposals i (a :: acts)))
    (hrt : checked = true → rt.checked = true) (hchanges : Changes rt s a i inner inner') :
    Room checked inner' (proposals i acts) := by
  have hle : proposals i acts ≤ proposals i (a :: acts) := by
    rw [proposals, proposals, List.countP_cons]
    omega
  cases hchanges with
  | same => exact h.mono hle rfl
  | served _ hhandle => exact h.mono hle (curSlot_handle hhandle)
  | broke => exact h.mono hle (frame_remains inner _).curSlot_eq
  | committed _ _ hcommit => exact h.mono hle (frame_commitLocal hcommit).curSlot_eq
  | commitBroke => exact h.mono hle (frame_commitRemains inner _ _ _).curSlot_eq
  | @started _ cmds peers thrifty _ _ slot seq deps hstart =>
      have hcount : proposals i (.propose i cmds peers thrifty :: acts) = proposals i acts + 1 := by
        rw [proposals, proposals, List.countP_cons, if_pos (by simp [Act.proposes])]
      obtain ⟨-, hnext⟩ := curSlot_startProposal hstart
      rw [hcount] at h
      rcases h with h | ⟨hnonneg, hroom⟩
      · cases h
      · rw [Runtime.i32] at hnext
        split at hnext
        · have hcur := Option.some.inj hnext
          exact Or.inr ⟨by omega, hroom.imp_right fun hle => by push_cast at hle; omega⟩
        · -- the last slot was taken
          rename_i hrange
          rcases hroom with hchecked | hle
          · rw [if_pos (hrt hchecked)] at hnext
            cases hnext
          · push_cast at hle
            exact Or.inl (by omega)

theorem begins_of_room {strict : Prop} {checked : Bool} {n : Nat} {acts : List (Runtime × Act)} {s : State}
    (hchecked : checked = true → ∀ x ∈ acts, x.1.checked = true)
    (hroom : ∀ i rep, s.replicas[i]? = some rep → Room checked rep.inner (proposals i (acts.map Prod.snd)))
    (htargets : strict → ∀ i r slot peers, Act.recover i r slot peers ∈ acts.map Prod.snd → r < n ∧ 0 ≤ slot) :
    Transition.Within (Transition.mixed step) (fun s x => Begins (Targets strict n) s x.2) s acts := by
  induction acts generalizing s with
  | nil => trivial
  | cons x acts ih =>
      obtain ⟨rt, a⟩ := x
      refine ⟨?_, fun t hstep => ih (fun h y hy => hchecked h y (List.mem_cons_of_mem _ hy)) (fun i rep' hrep' => ?_)
        fun hstrict i r slot peers h => htargets hstrict i r slot peers (List.mem_cons_of_mem a h)⟩
      · cases a with
        | propose i cmds peers thrifty =>
            intro rep hrep
            rcases hroom i rep hrep with hzero | ⟨hnonneg, -⟩
            · rw [List.map_cons, proposals, List.countP_cons, if_pos (by simp [Act.proposes])] at hzero
              cases hzero
            · exact hnonneg
        | recover i r slot peers => exact fun _ _ hstrict => htargets hstrict i r slot peers List.mem_cons_self
        | _ => trivial
      · obtain ⟨rep, hrep, hchanges⟩ := changes_of_step hstep hrep'
        exact (hroom i rep hrep).changes (fun h => hchecked h _ List.mem_cons_self) hchanges

/-- Each action is taken under a runtime of its own. No slot counter wraps around: the builds check arithmetic,
or no replica proposes more often than there are slots. -/
def SlotsSuffice (acts : List (Runtime × Act)) : Prop :=
  (∀ x ∈ acts, x.1.checked = true) ∨ ∀ i, proposals i (acts.map Prod.snd) ≤ 2 ^ 31

/-- Every replica begins with all its slots. -/
theorem begins_of_slots {strict : Prop} {n : Nat} {acts : List (Runtime × Act)} (hslots : SlotsSuffice acts)
    (htargets : strict → ∀ i r slot peers, Act.recover i r slot peers ∈ acts.map Prod.snd → r < n ∧ 0 ≤ slot) :
    Transition.Within (Transition.mixed step) (fun s x => Begins (Targets strict n) s x.2) (init n) acts := by
  have hnew {checked : Bool} (h : checked = true ∨ ∀ i, proposals i (acts.map Prod.snd) ≤ 2 ^ 31) (i : Nat)
      (rep : Replica) (hrep : (init n).replicas[i]? = some rep) :
      Room checked rep.inner (proposals i (acts.map Prod.snd)) := by
    simp only [init, List.getElem?_map, Option.map_eq_some_iff] at hrep
    obtain ⟨id, -, rfl⟩ := hrep
    refine Or.inr ⟨le_rfl, h.imp_right fun hle => ?_⟩
    have := hle i
    show (0 : Int) + _ ≤ 2 ^ 31
    omega
  rcases hslots with hchecked | hle
  · exact begins_of_room (fun _ => hchecked) (hnew (Or.inl rfl)) htargets
  · exact begins_of_room (fun h : false = true => by cases h) (hnew (Or.inr hle)) htargets

theorem map_snd_mk (rt : Runtime) (acts : List Act) : (acts.map (Prod.mk rt)).map Prod.snd = acts := by
  rw [List.map_map]
  exact List.map_id _

/-- All actions are taken under one runtime. -/
theorem slotsSuffice_of_one {rt : Runtime} {acts : List Act}
    (hslots : rt.checked = true ∨ ∀ i, proposals i acts ≤ 2 ^ 31) : SlotsSuffice (acts.map (Prod.mk rt)) := by
  refine hslots.imp (fun hchecked x hx => ?_) fun hle i => ?_
  · obtain ⟨a, -, rfl⟩ := List.mem_map.mp hx
    exact hchecked
  · rw [map_snd_mk]
    exact hle i

theorem begins_of_proposals {strict : Prop} {rt : Runtime} {n : Nat} {acts : List Act}
    (hslots : rt.checked = true ∨ ∀ i, proposals i acts ≤ 2 ^ 31)
    (htargets : strict → ∀ i r slot peers, Act.recover i r slot peers ∈ acts → r < n ∧ 0 ≤ slot) :
    Transition.Within (step rt) (Begins (Targets strict n)) (init n) acts := by
  refine (Transition.within_mixed rt).mp (begins_of_slots (slotsSuffice_of_one hslots) ?_)
  rwa [map_snd_mk]

theorem sound_run {strict : Prop} {rt : Runtime} {n : Nat} {acts : List Act} {s : State}
    (hslots : rt.checked = true ∨ ∀ i, proposals i acts ≤ 2 ^ 31)
    (htargets : strict → ∀ i r slot peers, Act.recover i r slot peers ∈ acts → r < n ∧ 0 ≤ slot)
    (hrun : Transition.run (step rt) (init n) acts = some s) : s.Meets (wellFormedLocal strict n) :=
  meets_run (kept_wellFormedLocal strict rt n) (fun _ hi => sound_new hi) (begins_of_proposals hslots htargets) hrun

/-! ### Well-formed states -/

/-- Every record and every message has a well-formed dependency vector, every entry of a conflict map has
one of full length, and no handler that a message in flight may reach, nor a `commit_local` that is due,
fails, whatever becomes of the sequence numbers. -/
structure State.WellFormed (rt : Runtime) (n : Nat) (s : State) : Prop where
  records : ∀ rep ∈ s.replicas, ∀ r k inst, rep.inner.instance? r k = some inst →
    DepsFor n (r, (k : Int)) inst.deps
  known : ∀ rep ∈ s.replicas, ∀ key entry, rep.inner.conflicts.lookup key = some entry →
    entry.deps.length = n
  sent : ∀ call ∈ s.calls, ∀ p req deps, (p, req) ∈ call.outbox → req.deps? = some deps →
    DepsFor n req.key deps
  inFlight : ∀ e c req deps, (c, req) ∈ s.requests e → req.deps? = some deps → DepsFor n req.key deps
  handled : ∀ e c req, (c, req) ∈ s.requests e → ∀ rep ∈ s.replicas,
    (handle { rt with checked := false } rep.inner req).isSome
  committed : ∀ call ∈ s.calls, ∀ v fastPath, call.phase = .committing v fastPath → ∀ rep ∈ s.replicas,
    (commitLocal rt rep.inner call.replica call.slot v).isSome

/-- A handler fails on a well-formed message only when a sequence number overflows. -/
theorem Sound.isSome_handle {rt : Runtime} {n id : Nat} {inner : ReplicaInner} (h : Sound n id inner)
    (hrt : rt.checked = false) {key : Nat × Int} (hvalid : Valid n key) {req : Request}
    (hreq : req.Sound n key) : (Epaxos.handle rt inner req).isSome := by
  obtain ⟨rfl, hdeps, -, hi32⟩ := hreq
  obtain ⟨hlt, hnonneg⟩ := hvalid
  cases req with
  | preAccept p =>
      obtain ⟨inner', reply, hhandle⟩ := exists_handlePreAccept h.shaped (by rw [h.n_eq]; exact hlt) hnonneg
        (hi32 p rfl) (Or.inl hrt)
      rw [Epaxos.handle, hhandle]
      rfl
  | accept p =>
      obtain ⟨grown, -, hhandle⟩ := accept_eq h.shaped (by rw [h.n_eq]; exact hlt) hnonneg
      rw [Epaxos.handle, hhandle]
      rfl
  | commit c =>
      obtain ⟨inner', hhandle, -⟩ := h.handleCommit rt hlt hnonneg (hdeps ⟨hlt, hnonneg⟩ _ rfl)
      rw [Epaxos.handle, hhandle]
      rfl
  | prepare p => rfl
  | tryPreAccept p =>
      obtain ⟨reply, hhandle⟩ := h.exists_tryPreAccept p
      rw [Epaxos.handle, hhandle]
      rfl

theorem State.Meets.wellFormed {n : Nat} {s : State} (h : s.Meets (wellFormedLocal True n)) (rt : Runtime) :
    s.WellFormed rt n := by
  have hrep {rep : Replica} (hmem : rep ∈ s.replicas) : ∃ i, Sound n i rep.inner := by
    obtain ⟨i, hi⟩ := List.mem_iff_getElem?.mp hmem
    exact ⟨i, h.replicas i rep hi⟩
  have hcalls {call : Coordinator} (hmem : call ∈ s.calls) : call.Sound True n := h.calls call hmem
  have hreq {e : Nat × Nat} {c : Nat} {req : Request} (hmem : (c, req) ∈ s.requests e) :
      req.Sound n req.key ∧ Valid n req.key := by
    obtain ⟨call, hcall, -, hsound⟩ := h.requests e.1 e.2 (c, req) hmem
    rw [Request.Sound.key_eq hsound]
    exact ⟨hsound, (hcalls (List.mem_of_getElem? hcall)).valid trivial⟩
  refine ⟨fun rep hmem => ?_, fun rep hmem key entry hentry => ?_, fun call hcall p req deps hmem hdeps => ?_,
    fun e c req deps hmem hdeps => (hreq hmem).1.deps (hreq hmem).2 deps hdeps,
    fun e c req hmem rep hrepmem => ?_, fun call hcall v fastPath hphase rep hmem => ?_⟩
  · obtain ⟨i, hsound⟩ := hrep hmem
    exact hsound.records
  · obtain ⟨i, hsound⟩ := hrep hmem
    exact (hsound.shaped.known key entry hentry).trans hsound.n_eq
  · have hsound := (hcalls hcall).outbox _ hmem
    rw [hsound.key_eq]
    exact hsound.deps ((hcalls hcall).valid trivial) deps hdeps
  · obtain ⟨i, hsound⟩ := hrep hrepmem
    exact hsound.isSome_handle rfl (hreq hmem).2 (hreq hmem).1
  · obtain ⟨i, hsound⟩ := hrep hmem
    have hvalid := (hcalls hcall).valid trivial
    have hdeps := (hcalls hcall).phase hvalid
    rw [hphase] at hdeps
    obtain ⟨inner', hcommit, -⟩ := hsound.commitLocal rt hvalid.1 hvalid.2 hdeps
    exact Option.isSome_of_eq_some hcommit

/-- In every run in which the slot counters do not wrap around, the attributes stay well formed. -/
theorem attributes_wellFormed {rt : Runtime} {n : Nat} {acts : List Act} {s : State}
    (hslots : rt.checked = true ∨ ∀ i, proposals i acts ≤ 2 ^ 31)
    (htargets : ∀ i r slot peers, Act.recover i r slot peers ∈ acts → r < n ∧ 0 ≤ slot)
    (hrun : Transition.run (step rt) (init n) acts = some s) : s.WellFormed rt n :=
  (sound_run hslots (fun _ => htargets) hrun).wellFormed rt

theorem attributes_wellFormed_recoveredProposal : ∃ s,
    Transition.run (step plainRuntime) (init 3) recoveredProposal = some s ∧ s.WellFormed plainRuntime 3 := by
  obtain ⟨s, hrun⟩ : ∃ s, Transition.run (step plainRuntime) (init 3) recoveredProposal = some s := ⟨_, rfl⟩
  have htargets : ∀ i r slot peers, Act.recover i r slot peers ∈ recoveredProposal → r < 3 ∧ 0 ≤ slot := by
    intro i r slot peers hmem
    simp only [recoveredProposal, List.mem_cons, List.not_mem_nil, reduceCtorEq, or_false, false_or,
      Act.recover.injEq] at hmem
    omega
  exact ⟨s, hrun, attributes_wellFormed (Or.inl rfl) htargets hrun⟩

/-! ### A counter that wraps around -/

/-- The `i32` that an integer wraps around to. -/
def wrapped (x : Int) : Int := (x + 2 ^ 31) % 2 ^ 32 - 2 ^ 31

theorem i32_unchecked {rt : Runtime} (hrt : rt.checked = false) (x : Int) : rt.i32 x = some (wrapped x) := by
  rw [Runtime.i32, wrapped, hrt]
  split
  · congr 1
    omega
  · rfl

theorem wrapped_succ (x : Int) : wrapped (wrapped x + 1) = wrapped (x + 1) := by
  simp only [wrapped]
  omega

/-- An empty batch takes a slot and does nothing else. -/
theorem startProposal_nil {rt : Runtime} (hrt : rt.checked = false) {inner : ReplicaInner}
    (hid : inner.id < inner.n) : ∃ deps, inner.startProposal rt [] =
      some ({ inner with curSlot := wrapped (inner.curSlot + 1) }, inner.curSlot, 1, deps) ∧
      (inner.curSlot = -2 ^ 31 → deps[inner.id]? = some (2 ^ 31 - 1)) := by
  have hlt : inner.id < (List.replicate inner.n (-1 : Int)).length := by simpa using hid
  have hget : (List.replicate inner.n (-1 : Int))[inner.id]? = some (-1) := by
    rw [List.getElem?_replicate, if_pos hid]
  by_cases hneg : -1 ≥ inner.curSlot
  · refine ⟨(List.replicate inner.n (-1)).set inner.id (wrapped (inner.curSlot - 1)), ?_, fun hcur => ?_⟩
    · simp [startProposal, joinConflicts, touchConflicts, capSelf, i32_unchecked hrt, hneg, hid]
    · rw [List.getElem?_set_self hlt, hcur]
      rfl
  · refine ⟨List.replicate inner.n (-1), ?_, fun hcur => ?_⟩
    · simp [startProposal, joinConflicts, touchConflicts, capSelf, i32_unchecked hrt, hneg, hid]
    · omega

/-- Many empty batches on one replica. -/
def flood (i : Nat) (peers : List Nat) (k : Nat) : List Act := List.replicate k (.propose i [] peers false)

/-- A state in which the counter of the replica `i` has moved and calls were added. -/
def State.flooded (s : State) (i : Nat) (rep : Replica) (curSlot : Int) (more : List Coordinator) : State :=
  { s with
    replicas := s.replicas.set i { rep with inner := { rep.inner with curSlot := curSlot } }
    calls := s.calls ++ more }

theorem running?_flooded {s : State} {i : Nat} {rep : Replica} (hrep : s.running? i = some rep) (curSlot : Int)
    (more : List Coordinator) : (s.flooded i rep curSlot more).running? i =
      some { rep with inner := { rep.inner with curSlot := curSlot } } := by
  refine State.running?_of_getElem? ?_ (State.stopped_of_running? hrep :)
  exact ListUpdate.getElem?_set_of_some (State.running?_eq_some hrep)

theorem step_flooded {rt : Runtime} (hrt : rt.checked = false) {s : State} {i : Nat} {rep : Replica}
    (hrep : s.running? i = some rep) (hlock : rep.poisoned = false) (hid : rep.inner.id < rep.inner.n)
    (peers : List Nat) (curSlot : Int) (more : List Coordinator) : ∃ deps,
      step rt (s.flooded i rep curSlot more) (.propose i [] peers false) =
        some (s.flooded i rep (wrapped (curSlot + 1))
          (more ++ [Coordinator.propose rep.inner.id [] peers false curSlot 1 deps])) ∧
        (curSlot = -2 ^ 31 → deps[rep.inner.id]? = some (2 ^ 31 - 1)) := by
  have hid' : ReplicaInner.id { rep.inner with curSlot := curSlot } < rep.inner.n := hid
  obtain ⟨deps, hstart, hcap⟩ := startProposal_nil hrt hid'
  refine ⟨deps, ?_, hcap⟩
  rw [step, beginStep, running?_flooded hrep, Option.bind_some]
  dsimp only
  rw [if_neg (by simp [hlock]), hstart]
  simp only [State.flooded, List.set_set, List.append_assoc]

/-- Every empty batch moves the counter by one. -/
theorem run_flood {rt : Runtime} (hrt : rt.checked = false) {s : State} {i : Nat} {rep : Replica}
    (hrep : s.running? i = some rep) (hlock : rep.poisoned = false) (hid : rep.inner.id < rep.inner.n)
    (hcur : wrapped rep.inner.curSlot = rep.inner.curSlot) (peers : List Nat) (k : Nat) :
    ∃ more : List Coordinator, more.length = k ∧ Transition.run (step rt) s (flood i peers k) =
      some (s.flooded i rep (wrapped (rep.inner.curSlot + k)) more) := by
  induction k with
  | zero =>
      refine ⟨[], rfl, congrArg some ?_⟩
      have hsame : s.replicas.set i rep = s.replicas := by
        obtain ⟨hlt, hget⟩ := List.getElem?_eq_some_iff.mp (State.running?_eq_some hrep)
        rw [← hget, List.set_getElem_self]
      rw [State.flooded, Int.ofNat_zero, Int.add_zero, hcur, List.append_nil]
      show s = { s with replicas := s.replicas.set i rep }
      rw [hsame]
  | succ k ih =>
      obtain ⟨more, hlength, hrun⟩ := ih
      obtain ⟨deps, hstep, -⟩ := step_flooded hrt hrep hlock hid peers (wrapped (rep.inner.curSlot + k)) more
      rw [wrapped_succ, Int.add_assoc, ← Int.natCast_succ] at hstep
      have happend : flood i peers (k + 1) = flood i peers k ++ [.propose i [] peers false] :=
        List.replicate_succ'
      rw [happend]
      exact ⟨_, by rw [List.length_append, hlength, List.length_singleton], Transition.run_append_eq_some.mpr
        ⟨_, hrun, Transition.run_cons_eq_some.mpr ⟨_, hstep, rfl⟩⟩⟩

/-- A runtime with arithmetic that wraps around. -/
def wrappingRuntime : Runtime := { plainRuntime with checked := false }

/-- The first proposal after the counter has wrapped around sends a PreAccept for the slot `-2^31` that
depends on the slot `2^31 - 1` of the same row. -/
theorem not_wellFormed_flood : ∃ s,
    Transition.run (step wrappingRuntime) (init 2) (flood 0 [1] (2 ^ 31) ++ [.propose 0 [] [1] false]) = some s ∧
      ¬s.WellFormed wrappingRuntime 2 := by
  have hrep : (init 2).running? 0 = some ⟨ReplicaInner.new 0 2, false, false⟩ := rfl
  have hid : (ReplicaInner.new 0 2).id < (ReplicaInner.new 0 2).n := by decide
  have hrt : wrappingRuntime.checked = false := rfl
  obtain ⟨more, -, hrun⟩ := run_flood hrt hrep rfl hid (by decide) [1] (2 ^ 31)
  have hcur : wrapped ((ReplicaInner.new 0 2).curSlot + ((2 ^ 31 : Nat) : Int)) = -2 ^ 31 := by
    decide
  rw [hcur] at hrun
  obtain ⟨deps, hstep, hcap⟩ := step_flooded hrt hrep rfl hid [1] (-2 ^ 31) more
  refine ⟨_, Transition.run_append_eq_some.mpr ⟨_, hrun, Transition.run_cons_eq_some.mpr ⟨_, hstep, rfl⟩⟩,
    fun h => ?_⟩
  have hsent := h.sent _ (List.mem_append_right _ (List.mem_append_right _ (List.mem_singleton.mpr rfl))) 1 _ deps
    (List.mem_append_right _ (List.mem_singleton.mpr rfl)) rfl
  have hlt : (2 : Int) ^ 31 - 1 < -2 ^ 31 := hsent.self _ (hcap rfl)
  exact absurd hlt (by decide)

end Quorums.Epaxos
