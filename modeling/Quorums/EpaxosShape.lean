import Quorums.EpaxosHandlers

/-! The shape of a replica, and what the functions of `ReplicaInner` compute on one that has it: there is
a row of records for every replica, each with a mark whether it was executed, and every dependency
vector has one entry for each replica. -/

namespace Quorums.Epaxos

/-- The entry a key gets when it is first met. -/
def ConflictEntry.new (n : Nat) : ConflictEntry := ⟨0, List.replicate n (-1)⟩

/-- The entry once the instance `(r, slot)` is known to write the key. -/
def ConflictEntry.touch (entry : ConflictEntry) (r : Nat) (slot seq : Int) : ConflictEntry :=
  ⟨max entry.maxSeq seq, entry.deps.modify r (max · slot)⟩

namespace ReplicaInner

structure Shaped (inner : ReplicaInner) : Prop where
  rows : inner.instances.length = inner.n
  marks : inner.executed.map List.length = inner.instances.map List.length
  deps : ∀ r s inst, inner.instance? r s = some inst → inst.deps.length = inner.n
  known : ∀ key entry, inner.conflicts.lookup key = some entry → entry.deps.length = inner.n

/-- The part of the shape that holds whatever dependencies the messages carry. -/
structure Framed (inner : ReplicaInner) : Prop where
  rows : inner.instances.length = inner.n
  marks : inner.executed.map List.length = inner.instances.map List.length
  known : ∀ key entry, inner.conflicts.lookup key = some entry → entry.deps.length = inner.n

theorem Shaped.framed {inner : ReplicaInner} (h : inner.Shaped) : inner.Framed := ⟨h.rows, h.marks, h.known⟩

theorem shaped_new (id n : Nat) : (ReplicaInner.new id n).Shaped where
  rows := List.length_replicate
  marks := by simp [ReplicaInner.new]
  deps r s inst h := by
    rw [instance?] at h
    obtain ⟨row, hrow, hs⟩ := Option.bind_eq_some_iff.mp h
    rw [(List.mem_replicate.mp (List.mem_of_getElem? hrow)).2] at hs
    cases hs
  known key entry h := by
    simp [ReplicaInner.new] at h

variable {rt : Runtime} {inner inner' : ReplicaInner}

/-! ### Records -/

theorem instance?_setInstance_eq (inner : ReplicaInner) (r s : Nat) (inst : Instance) (r' s' : Nat) :
    (inner.setInstance r s inst).instance? r' s' =
      if r = r' ∧ s = s' then (inner.instance? r s).map fun _ => inst else inner.instance? r' s' := by
  rw [instance?, setInstance, List.getElem?_modify]
  by_cases hr : r = r'
  · subst hr
    cases hrow : inner.instances[r]? with
    | none => simp [instance?, hrow]
    | some row =>
        by_cases hs : s = s'
        · subst hs
          simp only [instance?, hrow, Option.map_eq_map, Option.map_some, if_true, Option.bind_some,
            true_and, List.getElem?_set]
          by_cases hlt : s < row.length <;> simp [hlt]
        · simp [instance?, hrow, hs]
  · simp [instance?, hr]

theorem instance?_setInstance_self {r s : Nat} {old : Instance} (h : inner.instance? r s = some old)
    (inst : Instance) : (inner.setInstance r s inst).instance? r s = some inst := by
  rw [instance?_setInstance_eq, if_pos ⟨rfl, rfl⟩, h, Option.map_some]

theorem Framed.setInstance (h : inner.Framed) (r s : Nat) (inst : Instance) :
    (inner.setInstance r s inst).Framed where
  rows := by rw [ReplicaInner.setInstance, List.length_modify, h.rows]
  marks := by
    refine h.marks.trans ?_
    rw [ReplicaInner.setInstance]
    refine List.ext_getElem? fun i => ?_
    rw [List.getElem?_map, List.getElem?_map, List.getElem?_modify, Option.map_eq_map, Option.map_map]
    cases inner.instances[i]? with
    | none => rfl
    | some row =>
        simp only [Option.map_some, Function.comp]
        split <;> simp
  known := h.known

theorem Shaped.setInstance (h : inner.Shaped) {r s : Nat} {inst : Instance}
    (hdeps : inst.deps.length = inner.n) : (inner.setInstance r s inst).Shaped where
  rows := (h.framed.setInstance r s inst).rows
  marks := (h.framed.setInstance r s inst).marks
  deps r' s' x hx := by
    rcases instance?_setInstance hx with ⟨-, -, rfl⟩ | hold
    · exact hdeps
    · exact h.deps r' s' x hold
  known := h.known

theorem Framed.setConflicts (h : inner.Framed) {conflicts : Conflicts}
    (hknown : ∀ key entry, conflicts.lookup key = some entry → entry.deps.length = inner.n) :
    Framed { inner with conflicts } :=
  ⟨h.rows, h.marks, hknown⟩

theorem Shaped.setConflicts (h : inner.Shaped) {conflicts : Conflicts}
    (hknown : ∀ key entry, conflicts.lookup key = some entry → entry.deps.length = inner.n) :
    Shaped { inner with conflicts } :=
  ⟨h.rows, h.marks, h.deps, hknown⟩

theorem framed_execute (h : inner.Framed) (key : Nat × Int) : (inner.execute key).Framed := by
  rw [execute]
  dsimp only
  split
  · exact h
  · refine ⟨h.rows, Eq.trans (List.ext_getElem? fun i => ?_) h.marks, h.known⟩
    rw [List.getElem?_map, List.getElem?_map]
    simp only [applyCmds, List.getElem?_modify]
    cases inner.executed[i]? with
    | none => rfl
    | some marks =>
        simp only [Option.map_eq_map, Option.map_some]
        split <;> simp

theorem framed_executeAllReady (h : inner.Framed) (hresult : inner.executeAllReady rt = some inner') :
    inner'.Framed := by
  have hfold (keys : List (Nat × Int)) (inner : ReplicaInner) (h : inner.Framed) :
      (keys.foldl execute inner).Framed := by
    induction keys generalizing inner with
    | nil => exact h
    | cons key keys ih => exact ih _ (framed_execute h key)
  rw [executeAllReady, Option.bind_eq_bind, Option.bind_eq_some_iff] at hresult
  obtain ⟨ready, -, hresult⟩ := hresult
  cases hresult
  exact hfold _ inner h

/-- What `ensure_slot` does: the record of the slot is there afterwards, with those before it. -/
structure Grown (r : Nat) (slot : Int) (inner inner' : ReplicaInner) : Prop where
  id_eq : inner'.id = inner.id
  n_eq : inner'.n = inner.n
  curSlot_eq : inner'.curSlot = inner.curSlot
  conflicts_eq : inner'.conflicts = inner.conflicts
  store_eq : inner'.store = inner.store
  shaped : inner'.Shaped
  records : ∀ r' s, inner'.instance? r' s =
    (inner.instance? r' s).or (if r' = r ∧ (s : Int) ≤ slot then some (Instance.new inner.n) else none)
  executed : ∀ r' s, inner'.isExecuted r' s = inner.isExecuted r' s

/-- The same on a replica whose records may have dependency vectors of any length. -/
structure Opens (r : Nat) (slot : Int) (inner inner' : ReplicaInner) : Prop where
  id_eq : inner'.id = inner.id
  n_eq : inner'.n = inner.n
  curSlot_eq : inner'.curSlot = inner.curSlot
  conflicts_eq : inner'.conflicts = inner.conflicts
  store_eq : inner'.store = inner.store
  framed : inner'.Framed
  records : ∀ r' s, inner'.instance? r' s =
    (inner.instance? r' s).or (if r' = r ∧ (s : Int) ≤ slot then some (Instance.new inner.n) else none)
  executed : ∀ r' s, inner'.isExecuted r' s = inner.isExecuted r' s

theorem Opens.grown {r : Nat} {slot : Int} (h : Opens r slot inner inner') (hshaped : inner.Shaped) :
    Grown r slot inner inner' where
  id_eq := h.id_eq
  n_eq := h.n_eq
  curSlot_eq := h.curSlot_eq
  conflicts_eq := h.conflicts_eq
  store_eq := h.store_eq
  shaped := by
    refine ⟨h.framed.rows, h.framed.marks, fun r' s inst hinst => ?_, h.framed.known⟩
    rw [h.records] at hinst
    rw [h.n_eq]
    rcases Option.or_eq_some_iff.mp hinst with hold | ⟨-, hnew⟩
    · exact hshaped.deps r' s inst hold
    · split at hnew
      · cases hnew
        exact List.length_replicate
      · cases hnew
  records := h.records
  executed := h.executed

theorem Opens.exists_record {r : Nat} {slot : Int} (h : Opens r slot inner inner') (hslot : 0 ≤ slot) :
    ∃ inst, inner'.instance? r slot.toNat = some inst := by
  rw [h.records, if_pos ⟨rfl, by omega⟩]
  cases inner.instance? r slot.toNat with
  | none => exact ⟨_, rfl⟩
  | some inst => exact ⟨inst, rfl⟩

theorem Grown.opens {r : Nat} {slot : Int} (h : Grown r slot inner inner') : Opens r slot inner inner' :=
  ⟨h.id_eq, h.n_eq, h.curSlot_eq, h.conflicts_eq, h.store_eq, h.shaped.framed, h.records, h.executed⟩

theorem Grown.exists_record {r : Nat} {slot : Int} (h : Grown r slot inner inner') (hslot : 0 ≤ slot) :
    ∃ inst, inner'.instance? r slot.toNat = some inst := h.opens.exists_record hslot

theorem getElem?_append_replicate {α : Type} (row : List α) (x : α) (slot s : Nat) :
    (row ++ List.replicate (slot + 1 - row.length) x)[s]? =
      row[s]?.or (if s ≤ slot then some x else none) := by
  rw [List.getElem?_append]
  by_cases hs : s < row.length
  · rw [if_pos hs, List.getElem?_eq_getElem hs, Option.some_or]
  · rw [if_neg hs, List.getElem?_eq_none (l := row) (Nat.le_of_not_lt hs), Option.none_or, List.getElem?_replicate]
    by_cases hle : s ≤ slot
    · rw [if_pos hle, if_pos (by omega)]
    · rw [if_neg hle, if_neg (by omega)]

theorem Framed.ensureSlot (h : inner.Framed) {r : Nat} {slot : Int} (hr : r < inner.n)
    (hslot : 0 ≤ slot) : ∃ inner', inner.ensureSlot r slot = some inner' ∧ Opens r slot inner inner' := by
  have hlt : r < inner.instances.length := by rw [h.rows]; exact hr
  have hrow := List.getElem?_eq_getElem hlt
  have hlen : (inner.executed[r]?).map List.length = some inner.instances[r].length := by
    rw [← List.getElem?_map, h.marks, List.getElem?_map, hrow, Option.map_some]
  obtain ⟨marks, hmarks, hmarkslen⟩ := Option.map_eq_some_iff.mp hlen
  have hrecords (r' s : Nat) :
      ((inner.instances.modify r (· ++ List.replicate (slot.toNat + 1 - inner.instances[r].length)
        (Instance.new inner.n)))[r']?).bind (·[s]?) =
      (inner.instance? r' s).or (if r' = r ∧ (s : Int) ≤ slot then some (Instance.new inner.n) else none) := by
    rw [List.getElem?_modify]
    by_cases hrr : r = r'
    · subst hrr
      have hle : (s : Int) ≤ slot ↔ s ≤ slot.toNat := by omega
      simp only [instance?, hrow, hle, true_and, Option.map_eq_map, Option.map_some, if_true,
        Option.bind_some]
      exact getElem?_append_replicate ..
    · rw [if_neg (fun hc => hrr hc.1.symm), Option.or_none]
      simp [instance?, hrr]
  refine ⟨{ inner with
      instances := inner.instances.modify r
        (· ++ List.replicate (slot.toNat + 1 - inner.instances[r].length) (Instance.new inner.n))
      executed := inner.executed.modify r
        (· ++ List.replicate (slot.toNat + 1 - inner.instances[r].length) false) },
    ?_, rfl, rfl, rfl, rfl, rfl, ⟨?_, ?_, h.known⟩, hrecords, ?_⟩
  · rw [ReplicaInner.ensureSlot, hrow]
    dsimp only
    rw [if_neg (by omega)]
  · exact (List.length_modify ..).trans h.rows
  · refine List.ext_getElem? fun i => ?_
    have hi := congrArg (·[i]?) h.marks
    simp only [List.getElem?_map] at hi
    rw [List.getElem?_map, List.getElem?_map, List.getElem?_modify, List.getElem?_modify]
    by_cases hri : r = i
    · subst hri
      simp [hrow, hmarks, hmarkslen]
    · simpa [hri] using hi
  · intro r' s
    simp only [isExecuted, List.getElem?_modify]
    by_cases hrr : r = r'
    · subst hrr
      simp only [hmarks, Option.map_eq_map, Option.map_some, if_true, Option.bind_some]
      rw [← hmarkslen, getElem?_append_replicate]
      cases marks[s]? with
      | some b => rfl
      | none =>
          rw [Option.none_or]
          split <;> rfl
    · simp [hrr]

/-! ### Attributes -/

/-- Pointwise maximum. -/
theorem joinDeps_eq {n : Nat} {deps known : List Int} (hdeps : deps.length = n) (hknown : known.length = n) :
    joinDeps n deps known = some (List.zipWith max deps known) := by
  -- after `m` passes the first `m` entries are joined
  have hpasses (m : Nat) (hm : m ≤ n) : (List.range m).foldlM (fun acc i => do
      let d ← acc[i]?
      let k ← known[i]?
      return acc.set i (max d k)) deps =
        some (List.zipWith max (deps.take m) (known.take m) ++ deps.drop m) := by
    induction m with
    | zero => simp
    | succ m ih =>
        have hmd : m < deps.length := by omega
        have hmk : m < known.length := by omega
        have hlen : (List.zipWith max (deps.take m) (known.take m)).length = m := by simp; omega
        rw [List.range_succ, List.foldlM_append, ih (by omega)]
        simp only [Option.bind_eq_bind, Option.bind_some, List.foldlM_cons, List.foldlM_nil]
        rw [List.getElem?_append_right (by omega), hlen, Nat.sub_self, List.getElem?_drop, Nat.add_zero,
          List.getElem?_eq_getElem hmd, List.getElem?_eq_getElem hmk]
        simp only [Option.bind_some, pure, Option.some.injEq]
        rw [List.set_append_right _ _ (by omega), hlen, Nat.sub_self,
          List.drop_eq_getElem_cons hmd, List.set_cons_zero, List.take_succ_eq_append_getElem hmd,
          List.take_succ_eq_append_getElem hmk, List.zipWith_append (by simp; omega)]
        simp
  have hall := hpasses n le_rfl
  rwa [List.take_of_length_le (by omega), List.take_of_length_le (by omega), List.drop_of_length_le (by omega),
    List.append_nil] at hall

/-- The dependencies a batch gets from the known keys. -/
def joinedDeps (conflicts : Conflicts) (cmds : List Command) (deps : List Int) : List Int :=
  cmds.foldl (fun deps cmd =>
    if cmd.key.isEmpty then deps
    else
      match conflicts.lookup cmd.key with
      | none => deps
      | some entry => List.zipWith max deps entry.deps) deps

/-- The sequence number a batch gets from the known keys. -/
def joinedSeq (rt : Runtime) (conflicts : Conflicts) (cmds : List Command) (seq : Int) : Option Int :=
  cmds.foldlM (fun seq cmd =>
    if cmd.key.isEmpty then some seq
    else
      match conflicts.lookup cmd.key with
      | none => some seq
      | some entry => (rt.i32 (entry.maxSeq + 1)).map (max seq)) seq

/-- A batch reads a `max_seq` whose successor is not an `i32`, in a build that checks. -/
def Overflows (rt : Runtime) (conflicts : Conflicts) (cmds : List Command) : Prop :=
  rt.checked = true ∧ ∃ cmd ∈ cmds, cmd.key ≠ "" ∧ ∃ entry, conflicts.lookup cmd.key = some entry ∧
    ¬(-2 ^ 31 ≤ entry.maxSeq + 1 ∧ entry.maxSeq + 1 < 2 ^ 31)

/-- The successor of every `max_seq` that a batch reads is in the range of `i32`. -/
def SeqFits (conflicts : Conflicts) (cmds : List Command) : Prop :=
  ∀ cmd ∈ cmds, ∀ entry, conflicts.lookup cmd.key = some entry →
    -2 ^ 31 ≤ entry.maxSeq + 1 ∧ entry.maxSeq + 1 < 2 ^ 31

section Attributes

variable {n r : Nat} {slot seq : Int} {conflicts : Conflicts} {cmds : List Command} {deps : List Int}

theorem joinedDeps_cons (cmd : Command) (cmds : List Command) (deps : List Int) :
    joinedDeps conflicts (cmd :: cmds) deps =
      joinedDeps conflicts cmds (joinedDeps conflicts [cmd] deps) := rfl

theorem length_joinedDeps
    (hknown : ∀ key entry, conflicts.lookup key = some entry → entry.deps.length = n)
    (hdeps : deps.length = n) : (joinedDeps conflicts cmds deps).length = n := by
  induction cmds generalizing deps with
  | nil => exact hdeps
  | cons cmd cmds ih =>
      rw [joinedDeps_cons]
      refine ih ?_
      simp only [joinedDeps, List.foldl_cons, List.foldl_nil]
      split
      · exact hdeps
      · split
        · exact hdeps
        · rename_i entry hentry
          rw [List.length_zipWith, hdeps, hknown _ entry hentry, Nat.min_self]

/-- A joined entry is the one there was, or that of a known key. -/
theorem joinedDeps_cases {i : Nat} {d : Int} (h : (joinedDeps conflicts cmds deps)[i]? = some d) :
    deps[i]? = some d ∨ ∃ cmd ∈ cmds, cmd.key ≠ "" ∧
      ∃ entry, conflicts.lookup cmd.key = some entry ∧ entry.deps[i]? = some d := by
  induction cmds generalizing deps with
  | nil => exact Or.inl h
  | cons cmd cmds ih =>
      rw [joinedDeps_cons] at h
      rcases ih h with hone | ⟨x, hx, hentry⟩
      · simp only [joinedDeps, List.foldl_cons, List.foldl_nil] at hone
        split at hone
        · exact Or.inl hone
        · rename_i hempty
          split at hone
          · exact Or.inl hone
          · rename_i entry hentry
            rw [List.getElem?_zipWith_eq_some] at hone
            obtain ⟨a, b, ha, hb, hab⟩ := hone
            rcases le_total b a with hle | hle
            · exact Or.inl (by rw [ha, ← hab, max_eq_left hle])
            · refine Or.inr ⟨cmd, List.mem_cons_self, fun hkey => hempty ?_, entry, hentry, ?_⟩
              · rw [hkey]
                rfl
              · rw [hb, ← hab, max_eq_right hle]
      · exact Or.inr ⟨x, List.mem_cons_of_mem cmd hx, hentry⟩

/-- Joining only raises entries. -/
theorem le_joinedDeps (cmds : List Command)
    (hknown : ∀ key entry, conflicts.lookup key = some entry → entry.deps.length = n)
    (hdeps : deps.length = n) {i : Nat} {d : Int} (h : deps[i]? = some d) :
    ∃ e, (joinedDeps conflicts cmds deps)[i]? = some e ∧ d ≤ e := by
  induction cmds generalizing deps d with
  | nil => exact ⟨d, h, le_rfl⟩
  | cons cmd cmds ih =>
      rw [joinedDeps_cons]
      have hlen : (joinedDeps conflicts [cmd] deps).length = n := length_joinedDeps hknown hdeps
      have hone : ∃ e, (joinedDeps conflicts [cmd] deps)[i]? = some e ∧ d ≤ e := by
        simp only [joinedDeps, List.foldl_cons, List.foldl_nil]
        split
        · exact ⟨d, h, le_rfl⟩
        · split
          · exact ⟨d, h, le_rfl⟩
          · rename_i entry hentry
            have hi : i < entry.deps.length := by
              rw [hknown _ entry hentry, ← hdeps]
              exact (List.getElem?_eq_some_iff.mp h).1
            exact ⟨max d entry.deps[i], List.getElem?_zipWith_eq_some.mpr
              ⟨d, entry.deps[i], h, List.getElem?_eq_getElem hi, rfl⟩, le_max_left ..⟩
      obtain ⟨e, he, hde⟩ := hone
      obtain ⟨f, hf, hef⟩ := ih hlen he
      exact ⟨f, hf, hde.trans hef⟩

/-- Every known key of the batch is joined. -/
theorem known_le_joinedDeps
    (hknown : ∀ key entry, conflicts.lookup key = some entry → entry.deps.length = n)
    (hdeps : deps.length = n) {cmd : Command} (hcmd : cmd ∈ cmds) (hkey : cmd.key ≠ "")
    {entry : ConflictEntry} (hentry : conflicts.lookup cmd.key = some entry) {i : Nat} {d : Int}
    (h : entry.deps[i]? = some d) : ∃ e, (joinedDeps conflicts cmds deps)[i]? = some e ∧ d ≤ e := by
  obtain ⟨pre, post, rfl⟩ := List.append_of_mem hcmd
  have happend : joinedDeps conflicts (pre ++ cmd :: post) deps =
      joinedDeps conflicts post (joinedDeps conflicts [cmd] (joinedDeps conflicts pre deps)) := by
    simp only [joinedDeps, List.foldl_append, List.foldl_cons, List.foldl_nil]
  have hpre : (joinedDeps conflicts pre deps).length = n := length_joinedDeps hknown hdeps
  have hone : joinedDeps conflicts [cmd] (joinedDeps conflicts pre deps) =
      List.zipWith max (joinedDeps conflicts pre deps) entry.deps := by
    simp only [joinedDeps, List.foldl_cons, List.foldl_nil, hentry]
    rw [if_neg fun hempty => hkey (String.isEmpty_iff.mp hempty)]
  have hi : i < (joinedDeps conflicts pre deps).length := by
    rw [hpre, ← hknown _ entry hentry]
    exact (List.getElem?_eq_some_iff.mp h).1
  have hjoined : (joinedDeps conflicts [cmd] (joinedDeps conflicts pre deps))[i]? =
      some (max (joinedDeps conflicts pre deps)[i] d) := by
    rw [hone]
    exact List.getElem?_zipWith_eq_some.mpr ⟨_, d, List.getElem?_eq_getElem hi, h, rfl⟩
  obtain ⟨e, he, hle⟩ := le_joinedDeps post hknown (length_joinedDeps hknown hpre) hjoined
  exact ⟨e, by rw [happend]; exact he, (le_max_right ..).trans hle⟩

/-- The loop over the known keys joins their sequence numbers and their dependencies. -/
theorem joinConflicts_eq
    (hknown : ∀ key entry, conflicts.lookup key = some entry → entry.deps.length = n)
    {attrs : Int × List Int} (hdeps : attrs.2.length = n) :
    joinConflicts rt n conflicts cmds attrs =
      (joinedSeq rt conflicts cmds attrs.1).map fun seq => (seq, joinedDeps conflicts cmds attrs.2) := by
  induction cmds generalizing attrs with
  | nil => rfl
  | cons cmd cmds ih =>
      rw [joinConflicts, joinedSeq, List.foldlM_cons, List.foldlM_cons, joinedDeps_cons]
      simp only [joinedDeps, List.foldl_cons, List.foldl_nil]
      by_cases hempty : cmd.key.isEmpty
      · simp only [if_pos hempty]
        exact ih hdeps
      · simp only [if_neg hempty]
        cases hentry : conflicts.lookup cmd.key with
        | none => exact ih hdeps
        | some entry =>
            have hlen := hknown _ entry hentry
            simp only [joinDeps_eq hdeps hlen, Option.bind_eq_bind, Option.bind_some]
            cases rt.i32 (entry.maxSeq + 1) with
            | none => rfl
            | some next =>
                refine ih ?_
                simp [hdeps, hlen]

theorem i32_eq_none_iff {x : Int} :
    rt.i32 x = none ↔ rt.checked = true ∧ ¬(-2 ^ 31 ≤ x ∧ x < 2 ^ 31) := by
  rw [Runtime.i32]
  by_cases hx : -2 ^ 31 ≤ x ∧ x < 2 ^ 31
  · rw [if_pos hx]
    exact iff_of_false nofun fun h => h.2 hx
  · rw [if_neg hx]
    cases rt.checked with
    | true => exact iff_of_true rfl ⟨rfl, hx⟩
    | false => exact iff_of_false nofun fun h => Bool.false_ne_true h.1

theorem joinedSeq_eq_none_iff {seq : Int} :
    joinedSeq rt conflicts cmds seq = none ↔ Overflows rt conflicts cmds := by
  induction cmds generalizing seq with
  | nil => simp [joinedSeq, Overflows, pure]
  | cons cmd cmds ih =>
      have hcons : Overflows rt conflicts (cmd :: cmds) ↔
          Overflows rt conflicts [cmd] ∨ Overflows rt conflicts cmds := by
        simp only [Overflows, List.mem_cons, List.not_mem_nil, or_false, exists_eq_or_imp, exists_eq_left,
          and_or_left]
      rw [hcons, joinedSeq, List.foldlM_cons]
      by_cases hempty : cmd.key.isEmpty
      · have hkey : cmd.key = "" := String.isEmpty_iff.mp hempty
        have hone : ¬Overflows rt conflicts [cmd] := by simp [Overflows, hkey]
        rw [if_pos hempty, or_iff_right hone]
        exact ih
      · have hkey : cmd.key ≠ "" := fun hkey => hempty (String.isEmpty_iff.mpr hkey)
        rw [if_neg hempty]
        cases hentry : conflicts.lookup cmd.key with
        | none =>
            have hone : ¬Overflows rt conflicts [cmd] := by simp [Overflows, hentry]
            rw [or_iff_right hone]
            exact ih
        | some entry =>
            have hone : Overflows rt conflicts [cmd] ↔ rt.i32 (entry.maxSeq + 1) = none := by
              simp [Overflows, hentry, hkey, i32_eq_none_iff]
            rw [hone]
            dsimp only
            cases rt.i32 (entry.maxSeq + 1) with
            | none => exact iff_of_true rfl (Or.inl rfl)
            | some next =>
                rw [or_iff_right nofun]
                exact ih

theorem exists_joinedSeq {seq : Int} (h : ¬Overflows rt conflicts cmds) :
    ∃ next, joinedSeq rt conflicts cmds seq = some next :=
  Option.ne_none_iff_exists'.mp fun hnone => h (joinedSeq_eq_none_iff.mp hnone)

theorem SeqFits.not_overflows (h : rt.checked = false ∨ SeqFits conflicts cmds) :
    ¬Overflows rt conflicts cmds := by
  rintro ⟨hchecked, cmd, hcmd, -, entry, hentry, hrange⟩
  rcases h with hwraps | hfits
  · rw [hwraps] at hchecked
    cases hchecked
  · exact hrange (hfits cmd hcmd entry hentry)

/-- The slot that an instance may depend on at most, in its own row. -/
theorem capSelf_eq (hr : r < deps.length) (hslot : 0 ≤ slot) (hi32 : slot < 2 ^ 31) :
    capSelf rt r slot deps = some (deps.modify r (min · (slot - 1))) := by
  have hmodify (x : Int) (hx : min deps[r] (slot - 1) = x) :
      deps.modify r (min · (slot - 1)) = deps.set r x := by
    rw [List.modify_eq_set_getElem? , List.getElem?_eq_getElem hr]
    simp [hx]
  rw [capSelf, List.getElem?_eq_getElem hr]
  simp only [Option.bind_eq_bind, Option.bind_some]
  by_cases hcap : deps[r] ≥ slot
  · rw [if_pos hcap, Runtime.i32, if_pos (by omega), hmodify (slot - 1) (by omega)]
    rfl
  · rw [if_neg hcap, hmodify deps[r] (by omega), List.set_getElem_self]
    rfl

/-- A batch of the instance `(r, slot)` was recorded. -/
def Touched (n r : Nat) (slot seq : Int) (cmds : List Command) (conflicts conflicts' : Conflicts) : Prop :=
  ∀ key, conflicts'.lookup key =
    if key ≠ "" ∧ key ∈ cmds.map Command.key then
      some (((conflicts.lookup key).getD (ConflictEntry.new n)).touch r slot seq)
    else conflicts.lookup key

theorem touch_idem (r : Nat) (slot seq : Int) (entry : ConflictEntry) :
    (entry.touch r slot seq).touch r slot seq = entry.touch r slot seq := by
  simp only [ConflictEntry.touch, List.modify_modify_eq, max_assoc, max_self, ConflictEntry.mk.injEq,
    true_and]
  congr 1
  funext d
  simp

theorem length_deps_touch (r : Nat) (slot seq : Int) (entry : ConflictEntry) :
    (entry.touch r slot seq).deps.length = entry.deps.length := List.length_modify ..

/-- The loop that records a batch touches the entries of its keys. -/
theorem touchConflicts_spec (slot seq : Int) (cmds : List Command) (hr : r < n)
    (hknown : ∀ key entry, conflicts.lookup key = some entry → entry.deps.length = n) :
    ∃ conflicts', touchConflicts n r slot seq conflicts cmds = some conflicts' ∧
      Touched n r slot seq cmds conflicts conflicts' := by
  induction cmds generalizing conflicts with
  | nil => exact ⟨conflicts, rfl, fun key => by simp⟩
  | cons cmd cmds ih =>
      rw [touchConflicts, List.foldlM_cons]
      by_cases hempty : cmd.key.isEmpty
      · rw [if_pos hempty]
        obtain ⟨conflicts', hrest, hlookup⟩ := ih hknown
        refine ⟨conflicts', hrest, fun key => ?_⟩
        rw [hlookup]
        have hkey : key ≠ "" → key ≠ cmd.key := by
          rintro hne rfl
          exact hne (String.isEmpty_iff.mp hempty)
        by_cases hne : key = ""
        · simp [hne]
        · simp [hne, hkey hne]
      · rw [if_neg hempty]
        have hlen : ((conflicts.lookup cmd.key).getD (ConflictEntry.new n)).deps.length = n := by
          cases hentry : conflicts.lookup cmd.key with
          | none => exact List.length_replicate
          | some entry => exact hknown _ entry hentry
        have hd : r < ((conflicts.lookup cmd.key).getD (ConflictEntry.new n)).deps.length := by omega
        have htouch : ConflictEntry.mk
            (max ((conflicts.lookup cmd.key).getD (ConflictEntry.new n)).maxSeq seq)
            (((conflicts.lookup cmd.key).getD (ConflictEntry.new n)).deps.set r
              (max (((conflicts.lookup cmd.key).getD (ConflictEntry.new n)).deps[r]) slot)) =
            ((conflicts.lookup cmd.key).getD (ConflictEntry.new n)).touch r slot seq := by
          rw [ConflictEntry.touch, List.modify_eq_set_getElem?, List.getElem?_eq_getElem hd]
          rfl
        have hknown' : ∀ key entry, (conflicts.insert cmd.key
            (((conflicts.lookup cmd.key).getD (ConflictEntry.new n)).touch r slot seq)).lookup key =
              some entry → entry.deps.length = n := by
          intro key entry hentry
          by_cases hk : key = cmd.key
          · subst hk
            rw [AList.lookup_insert] at hentry
            cases hentry
            rw [length_deps_touch, hlen]
          · rw [AList.lookup_insert_ne hk] at hentry
            exact hknown key entry hentry
        obtain ⟨conflicts', hrest, hlookup⟩ := ih hknown'
        refine ⟨conflicts', ?_, fun key => ?_⟩
        · rw [← hrest, ← htouch]
          change (do
            let d ← ((conflicts.lookup cmd.key).getD (ConflictEntry.new n)).deps[r]?
            return conflicts.insert cmd.key _) >>= _ = _
          rw [List.getElem?_eq_getElem hd]
          rfl
        · rw [hlookup]
          by_cases hk : key = cmd.key
          · subst hk
            rw [AList.lookup_insert, Option.getD_some, touch_idem, ite_self,
              if_pos ⟨fun h => hempty (by rw [h]; rfl), by simp⟩]
          · rw [AList.lookup_insert_ne hk]
            simp [hk]

theorem Touched.length_deps {conflicts' : Conflicts} (h : Touched n r slot seq cmds conflicts conflicts')
    (hknown : ∀ key entry, conflicts.lookup key = some entry → entry.deps.length = n) :
    ∀ key entry, conflicts'.lookup key = some entry → entry.deps.length = n := by
  intro key entry hentry
  rw [h] at hentry
  split at hentry
  · cases hentry
    rw [length_deps_touch]
    cases hold : conflicts.lookup key with
    | none => exact List.length_replicate
    | some old => exact hknown key old hold
  · exact hknown key entry hentry

end Attributes

end ReplicaInner

open ReplicaInner

variable {rt : Runtime} {inner inner' : ReplicaInner}

/-! ### Proposals -/

/-- What `start_proposal` does: the slot is taken, the attributes are joined from the known keys and
capped below the instance itself, and the keys of the batch are touched. -/
inductive Starts (rt : Runtime) (inner : ReplicaInner) (cmds : List Command) :
    ReplicaInner → Int → Int → List Int → Prop where
  | mk {conflicts : Conflicts} {next seq : Int} {deps : List Int}
      (hnext : rt.i32 (inner.curSlot + 1) = some next)
      (hdeps : deps = (joinedDeps inner.conflicts cmds (List.replicate inner.n (-1))).modify inner.id
        (min · (inner.curSlot - 1)))
      (htouched : Touched inner.n inner.id inner.curSlot seq cmds inner.conflicts conflicts) :
      Starts rt inner cmds { inner with curSlot := next, conflicts } inner.curSlot seq deps

theorem startProposal_eq (hknown : ∀ key entry, inner.conflicts.lookup key = some entry →
      entry.deps.length = inner.n) (cmds : List Command) :
    inner.startProposal rt cmds = do
      let next ← rt.i32 (inner.curSlot + 1)
      let seq ← joinedSeq rt inner.conflicts cmds 1
      let conflicts ← touchConflicts inner.n inner.id inner.curSlot seq inner.conflicts cmds
      let deps ← capSelf rt inner.id inner.curSlot
        (joinedDeps inner.conflicts cmds (List.replicate inner.n (-1)))
      return ({ inner with curSlot := next, conflicts }, inner.curSlot, seq, deps) := by
  have hjoin : joinConflicts rt inner.n inner.conflicts cmds (1, List.replicate inner.n (-1)) = _ :=
    joinConflicts_eq hknown List.length_replicate
  simp only [startProposal, hjoin]
  cases rt.i32 (inner.curSlot + 1) with
  | none => rfl
  | some next =>
      cases joinedSeq rt inner.conflicts cmds 1 with
      | none => rfl
      | some seq => rfl

theorem starts_of_startProposal (h : inner.Shaped) (hid : inner.id < inner.n) (hslot : 0 ≤ inner.curSlot)
    (hi32 : inner.curSlot < 2 ^ 31) {cmds : List Command} {slot seq : Int} {deps : List Int}
    (hstart : inner.startProposal rt cmds = some (inner', slot, seq, deps)) :
    Starts rt inner cmds inner' slot seq deps := by
  have hlen : (joinedDeps inner.conflicts cmds (List.replicate inner.n (-1))).length = inner.n :=
    length_joinedDeps h.known List.length_replicate
  simp only [startProposal_eq h.known, capSelf_eq (hid.trans_eq hlen.symm) hslot hi32, Option.bind_eq_bind,
    Option.bind_eq_some_iff] at hstart
  obtain ⟨next, hnext, seq', -, conflicts, htouch, capped, hcap, hresult⟩ := hstart
  obtain ⟨conflicts', htouch', hspec⟩ := touchConflicts_spec inner.curSlot seq' cmds hid h.known
  rw [htouch] at htouch'
  cases htouch'
  cases hcap
  cases hresult
  exact .mk hnext rfl hspec

/-! ### Handlers -/

theorem length_resize (n : Nat) (v : List Int) : (resize n v).length = n := by
  rw [resize, List.length_append, List.length_take, List.length_replicate]
  omega

theorem resize_eq_self {n : Nat} {v : List Int} (h : v.length = n) : resize n v = v := by
  rw [resize, List.take_of_length_le (by omega), h, Nat.sub_self, List.replicate_zero, List.append_nil]

/-- What a PreAccept does to a replica: the record is written with the joined attributes, capped below
the instance itself, and the keys of the batch are touched. -/
inductive PreAccepts (inner : ReplicaInner) (req : Proposal) : ReplicaInner → PreAcceptReply → Prop where
  | mk {grown : ReplicaInner} {conflicts : Conflicts} {seq : Int} {deps : List Int} {reply : PreAcceptReply}
      (hgrown : Grown (asUsize req.replica) req.slot inner grown)
      (hdeps : deps = (joinedDeps inner.conflicts req.cmds (resize inner.n req.deps)).modify
        (asUsize req.replica) (min · (req.slot - 1)))
      (htouched : Touched inner.n (asUsize req.replica) req.slot seq req.cmds inner.conflicts conflicts)
      (hreply : reply = ⟨inner.id, req.slot,
        if seq = req.seq ∧ deps = resize inner.n req.deps then .preacceptedEq else .preaccepted,
        req.ballot, seq, deps, List.replicate inner.n (-1)⟩) :
      PreAccepts inner req
        ({ grown with conflicts }.setInstance (asUsize req.replica) req.slot.toNat
          ⟨req.cmds, seq, deps, .preaccepted, req.ballot⟩) reply

theorem lt_of_ensureSlot (h : inner.Framed) {r : Nat} {slot : Int}
    (hopened : inner.ensureSlot r slot = some inner') : r < inner.n := by
  rw [ReplicaInner.ensureSlot] at hopened
  split at hopened
  · cases hopened
  · rename_i row hrow
    rw [← h.rows]
    exact (List.getElem?_eq_some_iff.mp hrow).1

theorem opens_of_ensureSlot (h : inner.Framed) {r : Nat} {slot : Int}
    (hopened : inner.ensureSlot r slot = some inner') : Opens r slot inner inner' := by
  obtain ⟨opened, hsome, hspec⟩ := h.ensureSlot (lt_of_ensureSlot h hopened) (nonneg_of_ensureSlot hopened)
  rw [hopened] at hsome
  cases hsome
  exact hspec

theorem grown_of_ensureSlot (h : inner.Shaped) {r : Nat} {slot : Int}
    (hgrown : inner.ensureSlot r slot = some inner') : Grown r slot inner inner' :=
  (opens_of_ensureSlot h.framed hgrown).grown h

/-- The dependencies that a PreAccept records and returns. -/
def preAcceptDeps (inner : ReplicaInner) (req : Proposal) : List Int :=
  (joinedDeps inner.conflicts req.cmds (resize inner.n req.deps)).modify (asUsize req.replica)
    (min · (req.slot - 1))

/-- What a PreAccept does, and returns, on a replica whose records may have dependency vectors of any
length. -/
inductive Registers (rt : Runtime) (inner : ReplicaInner) (req : Proposal) :
    ReplicaInner → PreAcceptReply → Prop where
  | mk {opened : ReplicaInner} {conflicts : Conflicts} {seq : Int} {reply : PreAcceptReply}
      (hopens : Opens (asUsize req.replica) req.slot inner opened)
      (hseq : joinedSeq rt inner.conflicts req.cmds req.seq = some seq)
      (htouch : touchConflicts inner.n (asUsize req.replica) req.slot seq inner.conflicts req.cmds =
        some conflicts)
      (htouched : Touched inner.n (asUsize req.replica) req.slot seq req.cmds inner.conflicts conflicts)
      (hreply : reply = ⟨inner.id, req.slot,
        if seq = req.seq ∧ preAcceptDeps inner req = resize inner.n req.deps then .preacceptedEq
        else .preaccepted,
        req.ballot, seq, preAcceptDeps inner req, List.replicate inner.n (-1)⟩) :
      Registers rt inner req
        ({ opened with conflicts }.setInstance (asUsize req.replica) req.slot.toNat
          ⟨req.cmds, seq, preAcceptDeps inner req, .preaccepted, req.ballot⟩) reply

theorem Registers.fits {req : Proposal} {reply : PreAcceptReply} (h : Registers rt inner req inner' reply) :
    ¬Overflows rt inner.conflicts req.cmds := by
  cases h with
  | mk _ hseq =>
      intro hover
      rw [joinedSeq_eq_none_iff.mpr hover] at hseq
      cases hseq

/-- A PreAccept for a place of the replica is answered, unless a sequence number overflows. -/
theorem exists_registers (h : inner.Framed) {req : Proposal} (hr : asUsize req.replica < inner.n)
    (hslot : 0 ≤ req.slot) (hi32 : req.slot < 2 ^ 31) {seq : Int}
    (hseq : joinedSeq rt inner.conflicts req.cmds req.seq = some seq) :
    ∃ inner' reply, handlePreAcceptInner rt inner req = some (inner', reply) ∧
      Registers rt inner req inner' reply := by
  obtain ⟨opened, hensure, hopens⟩ := h.ensureSlot hr hslot
  have hjoin : joinConflicts rt inner.n inner.conflicts req.cmds (req.seq, resize inner.n req.deps) = _ :=
    joinConflicts_eq h.known (length_resize ..)
  rw [hseq, Option.map_some] at hjoin
  have hlen : (joinedDeps inner.conflicts req.cmds (resize inner.n req.deps)).length = inner.n :=
    length_joinedDeps h.known (length_resize ..)
  have hcap : capSelf rt _ req.slot _ = _ := capSelf_eq (hr.trans_eq hlen.symm) hslot hi32
  obtain ⟨conflicts, htouch, htouched⟩ := touchConflicts_spec req.slot seq req.cmds hr h.known
  refine ⟨_, _, ?_, .mk hopens hseq htouch htouched rfl⟩
  rw [← hopens.n_eq, ← hopens.conflicts_eq] at hjoin htouch
  simp only [handlePreAcceptInner, hensure, hjoin, htouch, Option.bind_eq_bind, Option.bind_some]
  rw [hopens.n_eq, hopens.conflicts_eq, hcap, Option.bind_some, hopens.id_eq]
  rfl

theorem registers_of_handle (h : inner.Framed) {req : Proposal} {reply : PreAcceptReply}
    (hi32 : req.slot < 2 ^ 31) (hhandle : handlePreAcceptInner rt inner req = some (inner', reply)) :
    asUsize req.replica < inner.n ∧ 0 ≤ req.slot ∧ Registers rt inner req inner' reply := by
  have hsteps := hhandle
  simp only [handlePreAcceptInner, Option.bind_eq_bind, Option.bind_eq_some_iff] at hsteps
  obtain ⟨opened, hensure, attrs, hjoin, -⟩ := hsteps
  have hopens := opens_of_ensureSlot h hensure
  have hr := lt_of_ensureSlot h hensure
  have hslot := nonneg_of_ensureSlot hensure
  rw [hopens.n_eq, hopens.conflicts_eq, joinConflicts_eq h.known (length_resize ..)] at hjoin
  obtain ⟨seq, hseq, -⟩ := Option.map_eq_some_iff.mp hjoin
  obtain ⟨next, reply', hhandle', hregisters⟩ := exists_registers h hr hslot hi32 hseq
  rw [hhandle] at hhandle'
  cases hhandle'
  exact ⟨hr, hslot, hregisters⟩

theorem preAccepts_of_handle (h : inner.Shaped) {req : Proposal} {reply : PreAcceptReply}
    (hi32 : req.slot < 2 ^ 31) (hhandle : handlePreAcceptInner rt inner req = some (inner', reply)) :
    PreAccepts inner req inner' reply := by
  obtain ⟨-, -, hregisters⟩ := registers_of_handle h.framed hi32 hhandle
  cases hregisters with
  | mk hopens _ _ htouched hreply => exact .mk (hopens.grown h) rfl htouched hreply

theorem PreAccepts.shaped (h : inner.Shaped) {req : Proposal} {reply : PreAcceptReply}
    (hpre : PreAccepts inner req inner' reply) : inner'.Shaped := by
  cases hpre with
  | mk hgrown hdeps htouched =>
      refine (hgrown.shaped.setConflicts ?_).setInstance ?_
      · rw [hgrown.n_eq]
        exact htouched.length_deps h.known
      · show List.length _ = _
        rw [hdeps, List.length_modify, hgrown.n_eq]
        exact length_joinedDeps h.known (length_resize _ _)

/-- A PreAccept is answered, if the sequence numbers it needs fit. -/
theorem exists_handlePreAccept (h : inner.Shaped) {req : Proposal} (hr : asUsize req.replica < inner.n)
    (hslot : 0 ≤ req.slot) (hi32 : req.slot < 2 ^ 31)
    (hfits : rt.checked = false ∨ SeqFits inner.conflicts req.cmds) :
    ∃ inner' reply, handlePreAcceptInner rt inner req = some (inner', reply) := by
  obtain ⟨seq, hseq⟩ : ∃ seq, joinedSeq rt inner.conflicts req.cmds req.seq = some seq :=
    exists_joinedSeq (SeqFits.not_overflows hfits)
  obtain ⟨inner', reply, hhandle, -⟩ := exists_registers h.framed hr hslot hi32 hseq
  exact ⟨inner', reply, hhandle⟩

/-- An Accept for a place of the replica is answered. -/
theorem accept_opens (h : inner.Framed) {req : Proposal} (hr : asUsize req.replica < inner.n)
    (hslot : 0 ≤ req.slot) : ∃ opened, Opens (asUsize req.replica) req.slot inner opened ∧
      handleAcceptInner inner req =
        some (opened.setInstance (asUsize req.replica) req.slot.toNat
          ⟨req.cmds, req.seq, req.deps, .accepted, req.ballot⟩,
          ⟨inner.id, req.slot, true, req.ballot⟩) := by
  obtain ⟨opened, hensure, hopens⟩ := h.ensureSlot hr hslot
  refine ⟨opened, hopens, ?_⟩
  simp only [handleAcceptInner, hensure, Option.bind_eq_bind, Option.bind_some, ← hopens.id_eq]
  rfl

theorem accept_eq (h : inner.Shaped) {req : Proposal} (hr : asUsize req.replica < inner.n)
    (hslot : 0 ≤ req.slot) : ∃ grown, Grown (asUsize req.replica) req.slot inner grown ∧
      handleAcceptInner inner req =
        some (grown.setInstance (asUsize req.replica) req.slot.toNat
          ⟨req.cmds, req.seq, req.deps, .accepted, req.ballot⟩,
          ⟨inner.id, req.slot, true, req.ballot⟩) := by
  obtain ⟨opened, hopens, heq⟩ := accept_opens h.framed hr hslot
  exact ⟨opened, hopens.grown h, heq⟩

/-- What becomes of the record of an instance that is committed with value `v`. -/
inductive RecordsCommit (inner : ReplicaInner) (r : Nat) (slot : Int) (v : Value) :
    ReplicaInner → Bool → Prop where
  | duplicate {grown : ReplicaInner} {inst : Instance} (hgrown : Grown r slot inner grown)
      (hinst : grown.instance? r slot.toNat = some inst) (hstatus : inst.status = .committed) :
      RecordsCommit inner r slot v grown true
  | written {grown : ReplicaInner} {inst : Instance} (hgrown : Grown r slot inner grown)
      (hinst : grown.instance? r slot.toNat = some inst) (hstatus : inst.status ≠ .committed) :
      RecordsCommit inner r slot v
        (grown.setInstance r slot.toNat ⟨v.cmds, v.seq, v.deps, .committed, inst.ballot⟩) false

/-- The same on a replica whose records may have dependency vectors of any length. -/
inductive Settles (inner : ReplicaInner) (r : Nat) (slot : Int) (v : Value) :
    ReplicaInner → Bool → Prop where
  | duplicate {opened : ReplicaInner} {inst : Instance} (hopens : Opens r slot inner opened)
      (hinst : opened.instance? r slot.toNat = some inst) (hstatus : inst.status = .committed) :
      Settles inner r slot v opened true
  | written {opened : ReplicaInner} {inst : Instance} (hopens : Opens r slot inner opened)
      (hinst : opened.instance? r slot.toNat = some inst) (hstatus : inst.status ≠ .committed) :
      Settles inner r slot v
        (opened.setInstance r slot.toNat ⟨v.cmds, v.seq, v.deps, .committed, inst.ballot⟩) false

theorem exists_settles (h : inner.Framed) {r : Nat} {slot : Int} (hr : r < inner.n)
    (hslot : 0 ≤ slot) (v : Value) : ∃ inner' duplicate,
      recordCommit inner r slot v = some (inner', duplicate) ∧ Settles inner r slot v inner' duplicate := by
  obtain ⟨opened, hensure, hopens⟩ := h.ensureSlot hr hslot
  obtain ⟨inst, hinst⟩ := hopens.exists_record hslot
  by_cases hstatus : inst.status = .committed
  · refine ⟨opened, true, ?_, .duplicate hopens hinst hstatus⟩
    simp only [recordCommit, hensure, hinst, Option.bind_eq_bind, Option.bind_some, if_pos hstatus]
    rfl
  · refine ⟨_, false, ?_, .written hopens hinst hstatus⟩
    simp only [recordCommit, hensure, hinst, Option.bind_eq_bind, Option.bind_some, if_neg hstatus]
    rfl

theorem settles_of_recordCommit (h : inner.Framed) {r : Nat} {slot : Int} {v : Value} {duplicate : Bool}
    (hrecord : recordCommit inner r slot v = some (inner', duplicate)) :
    r < inner.n ∧ 0 ≤ slot ∧ Settles inner r slot v inner' duplicate := by
  have hsteps := hrecord
  simp only [recordCommit, Option.bind_eq_bind, Option.bind_eq_some_iff] at hsteps
  obtain ⟨opened, hensure, -⟩ := hsteps
  have hr := lt_of_ensureSlot h hensure
  have hslot := nonneg_of_ensureSlot hensure
  obtain ⟨next, duplicate', hrecord', hsettles⟩ := exists_settles h hr hslot v
  rw [hrecord] at hrecord'
  cases hrecord'
  exact ⟨hr, hslot, hsettles⟩

theorem exists_recordCommit (h : inner.Shaped) {r : Nat} {slot : Int} (hr : r < inner.n)
    (hslot : 0 ≤ slot) (v : Value) : ∃ inner' duplicate,
      recordCommit inner r slot v = some (inner', duplicate) ∧
        RecordsCommit inner r slot v inner' duplicate := by
  obtain ⟨inner', duplicate, hrecord, hsettles⟩ := exists_settles h.framed hr hslot v
  refine ⟨inner', duplicate, hrecord, ?_⟩
  cases hsettles with
  | duplicate hopens hinst hstatus => exact .duplicate (hopens.grown h) hinst hstatus
  | written hopens hinst hstatus => exact .written (hopens.grown h) hinst hstatus

theorem RecordsCommit.shaped {r : Nat} {slot : Int} {v : Value} {duplicate : Bool}
    (h : RecordsCommit inner r slot v inner' duplicate) (hv : v.deps.length = inner.n) :
    inner'.Shaped := by
  cases h with
  | duplicate hgrown => exact hgrown.shaped
  | written hgrown => exact hgrown.shaped.setInstance (by rw [hgrown.n_eq]; exact hv)

end Quorums.Epaxos
