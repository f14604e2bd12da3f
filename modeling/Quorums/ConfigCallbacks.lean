import Quorums.ConfigPool

/-! The status callbacks of a manager (`on_status_change`, `spawn_watcher`). A callback that is registered
gets a task for every node of the pool, and a node that is added gets one for every callback. A node is
told apart from an earlier node with its ID: the tasks of the earlier one go on as long as somebody has a
handle of it. -/

namespace Quorums.Config

/-- A task of `spawn_watcher`: the ID it reports, the node it watches, by the order in which nodes were
created, and the callback, by the order of registration. -/
structure Watcher where
  nodeId : UInt32
  object : Nat
  callback : Nat
  deriving DecidableEq, Repr

/-- A manager with its callbacks. `objects` says which node the pool has under an ID, `created` and
`callbacks` count what was created and registered so far. -/
structure WatchedManager where
  manager : Manager
  objects : AList fun _ : UInt32 => Nat
  created : Nat
  callbacks : Nat
  watchers : List Watcher

namespace WatchedManager

def new : WatchedManager := ⟨Manager.new, ∅, 0, 0, []⟩

section

variable (parse : String → Option String) (checks : Bool)

/-- `add_node`: the tasks are started before the node is put into the pool. -/
def addNode (w : WatchedManager) (id : UInt32) (addr : String) : WatchedManager × Except Failure Unit :=
  match w.manager.addNode parse checks id addr with
  | (m, .error (.error text)) => ({ w with manager := m }, .error (.error text))
  | (m, result) =>
      ({ manager := m
         objects := w.objects.insert id w.created
         created := w.created + 1
         callbacks := w.callbacks
         watchers := w.watchers ++ (List.range w.callbacks).map fun k => ⟨id, w.created, k⟩ },
        result)

/-- The loop of `add_node_list` and `with_new_nodes`. -/
def addAll (w : WatchedManager) : List String → WatchedManager × Except Failure (List Node)
  | [] => (w, .ok [])
  | addr :: addrs =>
      match w.addNode parse checks w.manager.nextId addr with
      | (w', .error e) => (w', .error e)
      | (w', .ok ()) =>
          match w'.manager.nodes.lookup w.manager.nextId with
          | none => (w', .error .panic)
          | some node =>
              match w'.addAll addrs with
              | (w'', .error e) => (w'', .error e)
              | (w'', .ok nodes) => (w'', .ok (node :: nodes))

end

def removeNode (w : WatchedManager) (id : UInt32) : WatchedManager :=
  { w with manager := (w.manager.removeNode id).1, objects := w.objects.erase id }

/-- `on_status_change`. -/
def onStatusChange (w : WatchedManager) : WatchedManager :=
  { w with
    callbacks := w.callbacks + 1
    watchers := w.watchers ++ w.objects.entries.map fun e => ⟨e.1, e.2, w.callbacks⟩ }

/-- The calls that change the pool, and the registration of a callback. -/
inductive Op where
  | pool (call : Manager.Call)
  | onStatusChange

def Op.apply (parse : String → Option String) (checks : Bool) (w : WatchedManager) : Op → WatchedManager
  | .pool (.addNode id addr) => (w.addNode parse checks id addr).1
  | .pool (.addNodeList addrs) => (w.addAll parse checks addrs).1
  | .pool (.withNewNodes _ addrs) => (w.addAll parse checks addrs).1
  | .pool (.removeNode id) => w.removeNode id
  | .onStatusChange => w.onStatusChange

def after (parse : String → Option String) (checks : Bool) (ops : List Op) : WatchedManager :=
  ops.foldl (Op.apply parse checks) new

/-! ### The pool underneath -/

variable {parse : String → Option String} {checks : Bool} {w w' : WatchedManager}

/-- `add_node` does to the pool what it does without callbacks. -/
theorem addNode_manager (w : WatchedManager) (id : UInt32) (addr : String) :
    (w.addNode parse checks id addr).1.manager = (w.manager.addNode parse checks id addr).1 ∧
      (w.addNode parse checks id addr).2 = (w.manager.addNode parse checks id addr).2 := by
  rw [addNode]
  split
  · rename_i heq
    rw [heq]
    exact ⟨rfl, rfl⟩
  · rename_i heq
    rw [heq]
    exact ⟨rfl, rfl⟩

theorem addAll_manager (w : WatchedManager) (addrs : List String) :
    (w.addAll parse checks addrs).1.manager = (w.manager.addAll parse checks addrs).1 ∧
      (w.addAll parse checks addrs).2 = (w.manager.addAll parse checks addrs).2 := by
  induction addrs generalizing w with
  | nil => exact ⟨rfl, rfl⟩
  | cons addr addrs ih =>
      have hnode := @addNode_manager parse checks w w.manager.nextId addr
      rw [addAll, Manager.addAll]
      cases h : w.addNode parse checks w.manager.nextId addr with
      | mk w₁ result =>
          cases h' : w.manager.addNode parse checks w.manager.nextId addr with
          | mk m₁ result' =>
              rw [h, h'] at hnode
              obtain ⟨rfl, rfl⟩ : w₁.manager = m₁ ∧ result = result' := hnode
              cases result with
              | error e => exact ⟨rfl, rfl⟩
              | ok =>
                  dsimp only
                  cases w₁.manager.nodes.lookup w.manager.nextId with
                  | none => exact ⟨rfl, rfl⟩
                  | some node =>
                      dsimp only
                      obtain ⟨hmanager, hresult⟩ := ih w₁
                      generalize w₁.addAll parse checks addrs = r at hmanager hresult ⊢
                      generalize w₁.manager.addAll parse checks addrs = r' at hmanager hresult ⊢
                      obtain ⟨w₂, result⟩ := r
                      obtain ⟨m₂, result'⟩ := r'
                      obtain ⟨rfl, rfl⟩ : w₂.manager = m₂ ∧ result = result' := ⟨hmanager, hresult⟩
                      cases result <;> exact ⟨rfl, rfl⟩

/-! ### What an operation adds -/

/-- Node `object` is in the pool under `id`, and callback `k` is registered. -/
def Present (w : WatchedManager) (id : UInt32) (object k : Nat) : Prop :=
  w.objects.lookup id = some object ∧ k < w.callbacks

/-- Every node in the pool has one task for every callback, no two tasks are for one node and one callback,
and what is counted was created. -/
structure Covered (w : WatchedManager) : Prop where
  keys : w.objects.keys = w.manager.nodes.keys
  object_lt : ∀ id b, w.objects.lookup id = some b → b < w.created
  object_inj : ∀ i j b, w.objects.lookup i = some b → w.objects.lookup j = some b → i = j
  watcher_lt : ∀ x ∈ w.watchers, x.object < w.created ∧ x.callback < w.callbacks
  nodup : (w.watchers.map fun x => (x.object, x.callback)).Nodup
  covers : ∀ id b k, w.Present id b k → ⟨id, b, k⟩ ∈ w.watchers

/-- `w'` has the tasks of `w` and those for what is present in it. -/
def Extends (w w' : WatchedManager) : Prop :=
  ∀ id b k, ⟨id, b, k⟩ ∈ w'.watchers ↔ ⟨id, b, k⟩ ∈ w.watchers ∨ w'.Present id b k

/-- A node is added. -/
def push (w : WatchedManager) (m : Manager) (id : UInt32) : WatchedManager where
  manager := m
  objects := w.objects.insert id w.created
  created := w.created + 1
  callbacks := w.callbacks
  watchers := w.watchers ++ (List.range w.callbacks).map fun k => ⟨id, w.created, k⟩

theorem covered_new : Covered new where
  keys := rfl
  object_lt id b h := by rw [new, AList.lookup_empty] at h; cases h
  object_inj i j b h := by rw [new, AList.lookup_empty] at h; cases h
  watcher_lt x h := (List.not_mem_nil h).elim
  nodup := List.nodup_nil
  covers id b k h := (Nat.not_lt_zero k h.2).elim

theorem lookup_push (w : WatchedManager) (m : Manager) (id x : UInt32) :
    (w.push m id).objects.lookup x = if x = id then some w.created else w.objects.lookup x := by
  unfold push
  split
  · rename_i h
    subst h
    exact AList.lookup_insert _
  · rename_i h
    exact AList.lookup_insert_ne h

theorem mem_push {m : Manager} {id : UInt32} {x : Watcher} :
    x ∈ (w.push m id).watchers ↔
      x ∈ w.watchers ∨ x.nodeId = id ∧ x.object = w.created ∧ x.callback < w.callbacks := by
  unfold push
  rw [List.mem_append, List.mem_map]
  refine or_congr_right ⟨?_, ?_⟩
  · rintro ⟨k, hk, rfl⟩
    exact ⟨rfl, rfl, List.mem_range.mp hk⟩
  · obtain ⟨i, b, k⟩ := x
    rintro ⟨rfl, rfl, hk⟩
    exact ⟨k, List.mem_range.mpr hk, rfl⟩

theorem Covered.push (h : w.Covered) {m : Manager} {id : UInt32}
    (hkeys : (w.push m id).objects.keys = m.nodes.keys) : (w.push m id).Covered where
  keys := hkeys
  object_lt x b hx := by
    rw [lookup_push] at hx
    show b < w.created + 1
    split at hx
    · cases hx
      omega
    · have := h.object_lt x b hx
      omega
  object_inj i j b hi hj := by
    rw [lookup_push] at hi hj
    split at hi <;> split at hj
    · rename_i h₁ h₂
      exact h₁.trans h₂.symm
    · cases hi
      exact absurd (h.object_lt j _ hj) (Nat.lt_irrefl _)
    · cases hj
      exact absurd (h.object_lt i _ hi) (Nat.lt_irrefl _)
    · exact h.object_inj i j b hi hj
  watcher_lt x hx := by
    show x.object < w.created + 1 ∧ x.callback < w.callbacks
    rcases mem_push.mp hx with hold | ⟨-, hobject, hcallback⟩
    · have := h.watcher_lt x hold
      omega
    · omega
  nodup := by
    unfold WatchedManager.push
    rw [List.map_append, List.nodup_append, List.map_map]
    refine ⟨h.nodup, ?_, ?_⟩
    · refine List.Nodup.map (fun j k hjk => ?_) List.nodup_range
      exact (Prod.mk.inj hjk).2
    · intro p hp q hq hpq
      obtain ⟨x, hx, rfl⟩ := List.mem_map.mp hp
      obtain ⟨k, -, rfl⟩ := List.mem_map.mp hq
      have hlt := (h.watcher_lt x hx).1
      have heq : x.object = w.created := (Prod.mk.inj hpq).1
      omega
  covers x b k hx := by
    obtain ⟨hlookup, hk⟩ := hx
    rw [lookup_push] at hlookup
    rw [mem_push]
    split at hlookup
    · rename_i hid
      cases hlookup
      exact Or.inr ⟨hid, rfl, hk⟩
    · exact Or.inl (h.covers x b k ⟨hlookup, hk⟩)

/-- An addition: what was present stays, and the new tasks are those of what is present. -/
structure Grows (w w' : WatchedManager) : Prop where
  covered : w'.Covered
  ext : w.Extends w'
  mono : ∀ id b k, w.Present id b k → w'.Present id b k

theorem Grows.refl (h : w.Covered) : Grows w w where
  covered := h
  ext id b k := ⟨Or.inl, fun hx => hx.elim (fun hmem => hmem) (h.covers id b k)⟩
  mono _ _ _ hx := hx

theorem Grows.trans {w'' : WatchedManager} (h : Grows w w') (h' : Grows w' w'') : Grows w w'' where
  covered := h'.covered
  ext id b k := by
    rw [h'.ext, h.ext, or_assoc]
    exact or_congr_right ⟨fun hx => hx.elim (h'.mono id b k) fun hx => hx, Or.inr⟩
  mono id b k hx := h'.mono id b k (h.mono id b k hx)

theorem grows_push (h : w.Covered) {m : Manager} {id : UInt32} (hfree : w.objects.lookup id = none)
    (hkeys : (w.push m id).objects.keys = m.nodes.keys) : Grows w (w.push m id) := by
  have hcovered := h.push hkeys
  refine ⟨hcovered, fun x b k => ⟨fun hx => ?_, fun hx => ?_⟩, fun x b k hx => ⟨?_, hx.2⟩⟩
  · rcases mem_push.mp hx with hold | ⟨rfl, rfl, hk⟩
    · exact Or.inl hold
    · exact Or.inr ⟨by rw [lookup_push, if_pos rfl], hk⟩
  · rcases hx with hold | hpresent
    · exact mem_push.mpr (Or.inl hold)
    · exact hcovered.covers x b k hpresent
  · rw [lookup_push, if_neg]
    · exact hx.1
    · rintro rfl
      rw [hx.1] at hfree
      cases hfree

theorem Covered.lookup_eq_none (h : w.Covered) {id : UInt32} :
    w.objects.lookup id = none ↔ w.manager.nodes.lookup id = none := by
  rw [AList.lookup_eq_none, AList.lookup_eq_none, AList.mem_keys, AList.mem_keys, h.keys]

theorem addNode_of_admits {id : UInt32} {addr norm : String} (h : Manager.Admits parse w.manager id addr norm) :
    (w.addNode parse checks id addr).1 = w.push (w.manager.addNode parse checks id addr).1 id ∧
      (w.manager.addNode parse checks id addr).1.nodes = w.manager.nodes.insert id ⟨id, norm⟩ := by
  rw [addNode, Manager.addNode_of_admits h]
  -- whatever becomes of the counter, the node is in the pool
  split_ifs <;> exact ⟨rfl, rfl⟩

theorem grows_addNode (h : w.Covered) (id : UInt32) (addr : String) :
    Grows w (w.addNode parse checks id addr).1 := by
  by_cases hadmits : ∃ norm, Manager.Admits parse w.manager id addr norm
  · obtain ⟨norm, hadmits⟩ := hadmits
    obtain ⟨hpush, hnodes⟩ := @addNode_of_admits parse checks w id addr norm hadmits
    rw [hpush]
    refine grows_push h (h.lookup_eq_none.mpr hadmits.free) ?_
    rw [hnodes]
    show (w.objects.insert id w.created).keys = _
    rw [AList.keys_insert, AList.keys_insert, h.keys]
  · obtain ⟨text, heq⟩ := Manager.addNode_of_not_admits checks (not_exists.mp hadmits)
    rw [addNode, heq]
    exact Grows.refl h

theorem grows_addAll (h : w.Covered) (addrs : List String) : Grows w (w.addAll parse checks addrs).1 := by
  induction addrs generalizing w with
  | nil => exact Grows.refl h
  | cons addr addrs ih =>
      have hnode := @grows_addNode parse checks w h w.manager.nextId addr
      rw [addAll]
      generalize w.addNode parse checks w.manager.nextId addr = r at hnode ⊢
      obtain ⟨w₁, result⟩ := r
      cases result with
      | error e => exact hnode
      | ok =>
          dsimp only
          cases w₁.manager.nodes.lookup w.manager.nextId with
          | none => exact hnode
          | some node =>
              have hrest : Grows w (w₁.addAll parse checks addrs).1 := hnode.trans (ih hnode.covered)
              dsimp only
              generalize w₁.addAll parse checks addrs = r at hrest ⊢
              obtain ⟨w₂, result⟩ := r
              cases result <;> exact hrest

theorem nodup_entries (objects : AList fun _ : UInt32 => Nat) : objects.entries.Nodup :=
  List.Nodup.of_map Sigma.fst objects.nodupKeys

/-- A callback that is registered watches the nodes that are in the pool. -/
theorem mem_onStatusChange {id : UInt32} {b k : Nat} :
    ⟨id, b, k⟩ ∈ w.onStatusChange.watchers ↔
      ⟨id, b, k⟩ ∈ w.watchers ∨ w.objects.lookup id = some b ∧ k = w.callbacks := by
  unfold onStatusChange
  rw [List.mem_append, List.mem_map]
  refine or_congr_right ⟨?_, ?_⟩
  · rintro ⟨e, he, heq⟩
    cases heq
    exact ⟨AList.mem_lookup_iff.mpr he, rfl⟩
  · rintro ⟨hlookup, rfl⟩
    exact ⟨⟨id, b⟩, AList.mem_lookup_iff.mp hlookup, rfl⟩

theorem covered_onStatusChange (h : w.Covered) : w.onStatusChange.Covered where
  keys := h.keys
  object_lt := h.object_lt
  object_inj := h.object_inj
  watcher_lt x hx := by
    show x.object < w.created ∧ x.callback < w.callbacks + 1
    obtain ⟨id, b, k⟩ := x
    rcases mem_onStatusChange.mp hx with hold | ⟨hlookup, rfl⟩
    · obtain ⟨hb, hk⟩ := h.watcher_lt _ hold
      exact ⟨hb, Nat.lt_succ_of_lt hk⟩
    · exact ⟨h.object_lt id b hlookup, Nat.lt_succ_self _⟩
  nodup := by
    unfold onStatusChange
    rw [List.map_append, List.nodup_append, List.map_map]
    refine ⟨h.nodup, ?_, ?_⟩
    · refine List.Nodup.map_on (fun d hd e he hde => ?_) (nodup_entries w.objects)
      obtain ⟨i, b⟩ := d
      obtain ⟨j, c⟩ := e
      obtain rfl : b = c := (Prod.mk.inj hde).1
      rw [h.object_inj i j b (AList.mem_lookup_iff.mpr hd) (AList.mem_lookup_iff.mpr he)]
    · intro p hp q hq hpq
      obtain ⟨x, hx, rfl⟩ := List.mem_map.mp hp
      obtain ⟨e, -, rfl⟩ := List.mem_map.mp hq
      have hlt := (h.watcher_lt x hx).2
      have heq : x.callback = w.callbacks := (Prod.mk.inj hpq).2
      omega
  covers id b k hx := by
    obtain ⟨hlookup, hk⟩ := hx
    have hk : k < w.callbacks + 1 := hk
    rw [mem_onStatusChange]
    rcases Nat.lt_or_ge k w.callbacks with hlt | hge
    · exact Or.inl (h.covers id b k ⟨hlookup, hlt⟩)
    · exact Or.inr ⟨hlookup, by omega⟩

theorem covered_removeNode (h : w.Covered) (id : UInt32) : (w.removeNode id).Covered := by
  have hsub (x : UInt32) (b : Nat) (hx : (w.removeNode id).objects.lookup x = some b) :
      w.objects.lookup x = some b := by
    by_cases hid : x = id
    · subst hid
      rw [removeNode, AList.lookup_erase] at hx
      cases hx
    · rwa [removeNode, AList.lookup_erase_ne hid] at hx
  refine ⟨?_, fun x b hx => h.object_lt x b (hsub x b hx),
    fun i j b hi hj => h.object_inj i j b (hsub i b hi) (hsub j b hj), h.watcher_lt, h.nodup,
    fun x b k hx => h.covers x b k ⟨hsub x b hx.1, hx.2⟩⟩
  show (w.objects.erase id).keys = (w.manager.nodes.erase id).keys
  rw [AList.keys_erase, AList.keys_erase, h.keys]

/-- An operation starts the tasks of what is present after it, and no others. -/
theorem covered_apply (h : w.Covered) (op : Op) :
    (op.apply parse checks w).Covered ∧ w.Extends (op.apply parse checks w) := by
  cases op with
  | pool call =>
      cases call with
      | addNode id addr =>
          have hgrows := @grows_addNode parse checks w h id addr
          exact ⟨hgrows.covered, hgrows.ext⟩
      | addNodeList addrs | withNewNodes _ addrs =>
          have hgrows := @grows_addAll parse checks w h addrs
          exact ⟨hgrows.covered, hgrows.ext⟩
      | removeNode id =>
          have hcovered := covered_removeNode h id
          exact ⟨hcovered, fun x b k => ⟨Or.inl, fun hx => hx.elim (fun hmem => hmem) (hcovered.covers x b k)⟩⟩
  | onStatusChange =>
      have hcovered := covered_onStatusChange h
      refine ⟨hcovered, fun x b k => ⟨fun hx => ?_, fun hx => ?_⟩⟩
      · rcases mem_onStatusChange.mp hx with hold | ⟨hlookup, rfl⟩
        · exact Or.inl hold
        · exact Or.inr ⟨hlookup, Nat.lt_succ_self _⟩
      · rcases hx with hold | hpresent
        · exact mem_onStatusChange.mpr (Or.inl hold)
        · exact hcovered.covers x b k hpresent

theorem after_concat (parse : String → Option String) (checks : Bool) (ops : List Op) (op : Op) :
    after parse checks (ops ++ [op]) = op.apply parse checks (after parse checks ops) :=
  List.foldl_concat ..

theorem covered_after (parse : String → Option String) (checks : Bool) (ops : List Op) :
    (after parse checks ops).Covered := by
  induction ops using List.reverseRecOn with
  | nil => exact covered_new
  | append_singleton ops op ih =>
      rw [after_concat]
      exact (covered_apply ih op).1

/-- The pool calls among the operations. -/
def Op.call? : Op → Option Manager.Call
  | .pool call => some call
  | .onStatusChange => none

theorem manager_after (parse : String → Option String) (checks : Bool) (ops : List Op) :
    (after parse checks ops).manager = Manager.after parse checks (ops.filterMap Op.call?) := by
  induction ops using List.reverseRecOn with
  | nil => rfl
  | append_singleton ops op ih =>
      rw [after_concat, List.filterMap_append, Manager.after, List.foldl_append, ← Manager.after, ← ih]
      cases op with
      | onStatusChange => rfl
      | pool call =>
          show _ = call.apply parse checks _
          cases call with
          | addNode id addr => exact (addNode_manager _ id addr).1
          | addNodeList addrs => exact (addAll_manager _ addrs).1
          | withNewNodes base addrs => exact (addAll_manager _ addrs).1
          | removeNode id => rfl

/-- After any calls on a manager the pool is what it would be without callbacks, and a callback has a task
for a node exactly if it was registered at a moment at which the node was in the pool. No callback has two
tasks for one node. -/
theorem watchers_after (parse : String → Option String) (checks : Bool) (ops : List Op) :
    (after parse checks ops).manager = Manager.after parse checks (ops.filterMap Op.call?) ∧
    (∀ id, ((after parse checks ops).objects.lookup id).isSome ↔
      ((after parse checks ops).manager.nodes.lookup id).isSome) ∧
    ((after parse checks ops).watchers.map fun x => (x.object, x.callback)).Nodup ∧
    ∀ id b k, ⟨id, b, k⟩ ∈ (after parse checks ops).watchers ↔
      ∃ pre, pre <+: ops ∧ (after parse checks pre).Present id b k := by
  have hcovered := covered_after parse checks ops
  refine ⟨manager_after parse checks ops, fun id => ?_, hcovered.nodup, fun id b k => ?_⟩
  · rw [AList.lookup_isSome, AList.lookup_isSome, AList.mem_keys, AList.mem_keys, hcovered.keys]
  · induction ops using List.reverseRecOn with
    | nil =>
        refine ⟨fun h => (List.not_mem_nil h).elim, ?_⟩
        rintro ⟨pre, hpre, hpresent⟩
        obtain rfl := List.prefix_nil.mp hpre
        exact (Nat.not_lt_zero k hpresent.2).elim
    | append_singleton ops op ih =>
        rw [after_concat, (covered_apply (covered_after parse checks ops) op).2 id b k,
          ih (covered_after parse checks ops)]
        constructor
        · rintro (⟨pre, hpre, hpresent⟩ | hpresent)
          · exact ⟨pre, hpre.trans (List.prefix_append ops [op]), hpresent⟩
          · exact ⟨ops ++ [op], List.prefix_refl _, by rwa [after_concat]⟩
        · rintro ⟨pre, hpre, hpresent⟩
          rcases List.prefix_concat_iff.mp hpre with rfl | hpre
          · exact Or.inr (by rwa [after_concat] at hpresent)
          · exact Or.inl ⟨pre, hpre, hpresent⟩

/-- A node is removed and its ID taken again: the callback that was registered in between watches the
second node only, the earlier one both. -/
example : (after World.parseLoopback true [.onStatusChange, .pool (.addNode 7 "127.0.0.1:5001"),
    .pool (.removeNode 7), .onStatusChange, .pool (.addNode 7 "127.0.0.1:5002")]).watchers =
      [⟨7, 0, 0⟩, ⟨7, 1, 0⟩, ⟨7, 1, 1⟩] := by decide

end WatchedManager

end Quorums.Config
