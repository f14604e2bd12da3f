import Mathlib.Data.List.AList
import Mathlib.Data.List.Sort
import Quorums.BaseList

/-! The state of an EPaxos replica and its executor (`examples/epaxos/replica.rs`): `ReplicaInner`, the
conflict map, and `execute_all_ready`. An operation that panics, or that asks for more memory than there
is, has no result. -/

namespace Quorums.Epaxos

/-- What the code takes from outside: whether the build checks `i32` arithmetic, the order in which a
hash set is listed, and `petgraph::algo::tarjan_scc` on the nodes `0..n` with the given edges. -/
structure Runtime where
  checked : Bool
  order : List (Nat × Int) → List (Nat × Int)
  tarjanScc : Nat → List (Nat × Nat) → List (List Nat)

/-- The result of an `i32` operation whose exact value is `x`. -/
def Runtime.i32 (rt : Runtime) (x : Int) : Option Int :=
  if -2 ^ 31 ≤ x ∧ x < 2 ^ 31 then some x
  else if rt.checked then none
  else some ((x + 2 ^ 31) % 2 ^ 32 - 2 ^ 31)

/-- `x as usize` for an `x : i32`. -/
def asUsize (x : Int) : Nat := if 0 ≤ x then x.toNat else (x + 2 ^ 64).toNat

inductive Operation where
  | nop
  | put
  | get
  deriving DecidableEq, Repr

structure Command where
  op : Int
  key : String
  value : String
  deriving DecidableEq, Repr

/-- `cmd.op()`: a number outside the enumeration reads as its default. -/
def Command.operation (cmd : Command) : Operation :=
  match cmd.op with
  | 1 => .put
  | 2 => .get
  | _ => .nop

/-- The constants of `mod status`, in their order. -/
inductive Status where
  | none
  | preaccepted
  | preacceptedEq
  | accepted
  | committed
  deriving DecidableEq, Repr

/-- `status >= ACCEPTED`. -/
def Status.settled : Status → Bool
  | .accepted | .committed => true
  | _ => false

/-- What is agreed upon for an instance. -/
structure Value where
  cmds : List Command
  seq : Int
  deps : List Int
  deriving DecidableEq, Repr

structure Instance where
  cmds : List Command
  seq : Int
  deps : List Int
  status : Status
  ballot : Int
  deriving DecidableEq, Repr

namespace Instance

def new (n : Nat) : Instance := ⟨[], 0, List.replicate n (-1), .none, 0⟩

def value (inst : Instance) : Value := ⟨inst.cmds, inst.seq, inst.deps⟩

end Instance

structure ConflictEntry where
  maxSeq : Int
  deps : List Int
  deriving DecidableEq, Repr

abbrev Conflicts := AList fun _ : String => ConflictEntry

structure ReplicaInner where
  id : Nat
  n : Nat
  curSlot : Int
  instances : List (List Instance)
  executed : List (List Bool)
  conflicts : Conflicts
  store : AList fun _ : String => String

namespace ReplicaInner

def new (id n : Nat) : ReplicaInner :=
  ⟨id, n, 0, List.replicate n [], List.replicate n [], ∅, ∅⟩

/-- `instances[r][s]`. -/
def instance? (inner : ReplicaInner) (r s : Nat) : Option Instance := inner.instances[r]?.bind (·[s]?)

/-- The record of an instance. A negative slot is an index near `2^64`, and no vector is that long. -/
def record? (inner : ReplicaInner) (r : Nat) (slot : Int) : Option Instance :=
  if slot < 0 then none else inner.instance? r slot.toNat

/-- `executed[r][s]`. -/
def isExecuted (inner : ReplicaInner) (r s : Nat) : Bool :=
  (inner.executed[r]?.bind (·[s]?)).getD false

def setInstance (inner : ReplicaInner) (r s : Nat) (inst : Instance) : ReplicaInner :=
  { inner with instances := inner.instances.modify r (·.set s inst) }

/-- A negative slot is a length near `2^64`: the loop runs out of memory. -/
def ensureSlot (inner : ReplicaInner) (r : Nat) (slot : Int) : Option ReplicaInner :=
  match inner.instances[r]? with
  | none => none
  | some row =>
      if slot < 0 then none
      else
        let missing := slot.toNat + 1 - row.length
        some { inner with
          instances := inner.instances.modify r (· ++ List.replicate missing (Instance.new inner.n))
          executed := inner.executed.modify r (· ++ List.replicate missing false) }

/-- `for i in 0..n { deps[i] = deps[i].max(known[i]) }`. -/
def joinDeps (n : Nat) (deps known : List Int) : Option (List Int) :=
  (List.range n).foldlM (fun acc i => do
    let d ← acc[i]?
    let k ← known[i]?
    return acc.set i (max d k)) deps

/-- The loop of `start_proposal` and `handle_pre_accept_inner` over the known keys of a batch. -/
def joinConflicts (rt : Runtime) (n : Nat) (conflicts : Conflicts) (cmds : List Command)
    (attrs : Int × List Int) : Option (Int × List Int) :=
  cmds.foldlM (fun attrs cmd =>
    if cmd.key.isEmpty then some attrs
    else
      match conflicts.lookup cmd.key with
      | none => some attrs
      | some entry => do
          let next ← rt.i32 (entry.maxSeq + 1)
          let deps ← joinDeps n attrs.2 entry.deps
          return (max attrs.1 next, deps)) attrs

/-- The loop of both that records the batch in the conflict map. -/
def touchConflicts (n r : Nat) (slot seq : Int) (conflicts : Conflicts) (cmds : List Command) :
    Option Conflicts :=
  cmds.foldlM (fun conflicts cmd =>
    if cmd.key.isEmpty then some conflicts
    else do
      let entry := (conflicts.lookup cmd.key).getD ⟨0, List.replicate n (-1)⟩
      let d ← entry.deps[r]?
      return conflicts.insert cmd.key ⟨max entry.maxSeq seq, entry.deps.set r (max d slot)⟩) conflicts

/-- A command must not depend on itself. -/
def capSelf (rt : Runtime) (r : Nat) (slot : Int) (deps : List Int) : Option (List Int) := do
  let d ← deps[r]?
  if d ≥ slot then
    let cap ← rt.i32 (slot - 1)
    return deps.set r cap
  else return deps

/-- The new slot with its initial attributes. -/
def startProposal (rt : Runtime) (inner : ReplicaInner) (cmds : List Command) :
    Option (ReplicaInner × Int × Int × List Int) := do
  let slot := inner.curSlot
  let curSlot ← rt.i32 (inner.curSlot + 1)
  let (seq, deps) ← joinConflicts rt inner.n inner.conflicts cmds (1, List.replicate inner.n (-1))
  let conflicts ← touchConflicts inner.n inner.id slot seq inner.conflicts cmds
  let deps ← capSelf rt inner.id slot deps
  return ({ inner with curSlot, conflicts }, slot, seq, deps)

def applyCmds (inner : ReplicaInner) (cmds : List Command) : ReplicaInner :=
  { inner with
    store := cmds.foldl (fun store cmd =>
      match cmd.operation with
      | .put => store.insert cmd.key cmd.value
      | .get | .nop => store) inner.store }

/-! ### The executor -/

/-- The committed instances that were not executed. -/
def pending (inner : ReplicaInner) : List (Nat × Int) :=
  (List.range inner.n).flatMap fun r =>
    ((List.range (inner.instances[r]?.getD []).length).filter fun s =>
      !inner.isExecuted r s ∧ (inner.instance? r s).map Instance.status = some .committed).map
        fun s => (r, (s : Int))

/-- The loop of the readiness search; the last element pushed is at the head of the stack. The answer
says whether nothing missing or uncommitted was met. The loop is not entered more often than `fuel`
says: every pass pops an element, and an instance pushes its dependencies once. -/
def search (inner : ReplicaInner) : Nat → List (Nat × Int) → List (Nat × Int) → Option Bool
  | 0, _, _ => none
  | _ + 1, [], _ => some true
  | fuel + 1, (dr, ds) :: stack, visited =>
      if ds < 0 then search inner fuel stack visited
      else if (dr, ds) ∈ visited then search inner fuel stack visited
      else if inner.isExecuted dr ds.toNat then search inner fuel stack ((dr, ds) :: visited)
      else
        match inner.instance? dr ds.toNat with
        | none => some false
        | some inst =>
            if inst.status ≠ .committed then some false
            else do
              let stack ← (List.range inner.n).foldlM (fun stack r => do
                let d ← inst.deps[r]?
                return if d ≥ 0 then (r, d) :: stack else stack) stack
              search inner fuel stack ((dr, ds) :: visited)

def searchFuel (inner : ReplicaInner) : Nat := inner.n * (inner.instances.map List.length).sum + 2

/-- The pending instances whose whole dependency closure is committed or executed. -/
def ready (inner : ReplicaInner) : Option (List (Nat × Int)) := do
  let verdicts ← inner.pending.mapM fun key => do
    let ok ← search inner inner.searchFuel [key] []
    return (key, ok)
  return (verdicts.filter Prod.snd).map Prod.fst

/-- The edges of the graph on the ready instances, by their places in the list. -/
def edges (inner : ReplicaInner) (readyVec : List (Nat × Int)) : List (Nat × Nat) :=
  readyVec.flatMap fun key =>
    let deps := ((inner.instance? key.1 key.2.toNat).map Instance.deps).getD []
    (List.range inner.n).filterMap fun r =>
      let dep := (r, deps[r]?.getD (-1))
      if dep.2 ≥ 0 ∧ dep ∈ readyVec then some (readyVec.idxOf key, readyVec.idxOf dep) else none

def seqOf (inner : ReplicaInner) (key : Nat × Int) : Int :=
  ((inner.instance? key.1 key.2.toNat).map Instance.seq).getD 0

def execute (inner : ReplicaInner) (key : Nat × Int) : ReplicaInner :=
  let s := key.2.toNat
  if inner.isExecuted key.1 s then inner
  else
    let cmds := ((inner.instance? key.1 s).map Instance.cmds).getD []
    let inner := inner.applyCmds cmds
    { inner with executed := inner.executed.modify key.1 (·.set s true) }

/-- The groups are executed in the order of `tarjan_scc`, each by ascending `seq`. -/
def executeAllReady (rt : Runtime) (inner : ReplicaInner) : Option ReplicaInner := do
  let ready ← inner.ready
  let readyVec := rt.order ready
  let sccs := rt.tarjanScc readyVec.length (inner.edges readyVec)
  let groups := sccs.map fun scc =>
    (scc.filterMap fun i => readyVec[i]?).insertionSort fun a b => inner.seqOf a ≤ inner.seqOf b
  return groups.flatten.foldl execute inner

/-! ### The records -/

variable {rt : Runtime} {inner inner' : ReplicaInner}

theorem instances_execute (inner : ReplicaInner) (key : Nat × Int) :
    (inner.execute key).instances = inner.instances := by
  rw [execute]
  dsimp only
  split <;> rfl

/-- The executor writes no record. -/
theorem instances_executeAllReady (h : inner.executeAllReady rt = some inner') :
    inner'.instances = inner.instances := by
  have hfold (keys : List (Nat × Int)) (inner : ReplicaInner) :
      (keys.foldl execute inner).instances = inner.instances := by
    induction keys generalizing inner with
    | nil => rfl
    | cons key keys ih => rw [List.foldl_cons, ih, instances_execute]
  rw [executeAllReady, Option.bind_eq_bind, Option.bind_eq_some_iff] at h
  obtain ⟨ready, -, hresult⟩ := h
  cases hresult
  exact hfold _ inner

theorem instance?_setInstance {r s r' s' : Nat} {inst x : Instance}
    (h : (inner.setInstance r s inst).instance? r' s' = some x) :
    (r' = r ∧ s' = s ∧ x = inst) ∨ inner.instance? r' s' = some x := by
  obtain ⟨row, hrow, hx⟩ := Option.bind_eq_some_iff.mp h
  rw [setInstance, List.getElem?_modify] at hrow
  obtain ⟨old, hold, hrow⟩ := Option.map_eq_some_iff.mp hrow
  by_cases hr : r = r'
  · subst hr
    rw [if_pos rfl] at hrow
    subst hrow
    rcases ListUpdate.getElem?_set_cases hx with ⟨rfl, rfl⟩ | ⟨-, hx⟩
    · exact Or.inl ⟨rfl, rfl, rfl⟩
    · refine Or.inr ?_
      rw [instance?, hold, Option.bind_some]
      exact hx
  · rw [if_neg hr] at hrow
    refine Or.inr ?_
    rw [instance?, hold, Option.bind_some]
    exact hrow ▸ hx

/-- A record that `ensure_slot` adds is empty. -/
theorem instance?_ensureSlot {r : Nat} {slot : Int} (h : inner.ensureSlot r slot = some inner')
    {r' s : Nat} {inst : Instance} (hinst : inner'.instance? r' s = some inst) :
    inner.instance? r' s = some inst ∨ inst.status = .none := by
  rw [ensureSlot] at h
  split at h
  · cases h
  · split at h
    · cases h
    · cases h
      obtain ⟨row, hrow, hx⟩ := Option.bind_eq_some_iff.mp hinst
      rw [List.getElem?_modify] at hrow
      obtain ⟨old, hold, hrow⟩ := Option.map_eq_some_iff.mp hrow
      rw [instance?, hold, Option.bind_some]
      split at hrow
      · subst hrow
        rcases Nat.lt_or_ge s old.length with hlt | hge
        · rw [List.getElem?_append_left hlt] at hx
          exact Or.inl hx
        · rw [List.getElem?_append_right hge] at hx
          refine Or.inr ?_
          rw [(List.mem_replicate.mp (List.mem_of_getElem? hx)).2]
          rfl
      · exact Or.inl (hrow ▸ hx)

theorem nonneg_of_ensureSlot {r : Nat} {slot : Int} (h : inner.ensureSlot r slot = some inner') :
    0 ≤ slot := by
  rw [ensureSlot] at h
  split at h
  · cases h
  · split at h
    · cases h
    · omega

end ReplicaInner

end Quorums.Epaxos
