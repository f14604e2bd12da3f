import Quorums.HandleCounts

/-! What the `threshold` and `quorum` loops of `Responses` and `OrderedResponses` compute, as functions
of the arrivals. The two `threshold` loops leave at the same arrival and fail with the same errors; a
`quorum` loop with the matching function differs from `threshold` in the errors it records. -/

namespace Quorums

variable {T : Type}

/-- The responses without their positions. -/
def OrderedResponses.plain (arrivals : List (OrderedNodeResponse T)) : List (NodeResponse T) :=
  arrivals.map fun nr => ⟨nr.nodeId, nr.result⟩

namespace Responses

/-- The values of the successes among the arrivals. -/
def values (arrivals : List (NodeResponse T)) : List T :=
  arrivals.filterMap fun r => r.result.toOption

/-- The errors of the failed nodes as `threshold` records them. -/
def failures (arrivals : List (NodeResponse T)) : List NodeError :=
  arrivals.flatMap fun r =>
    match r.result with
    | .error e => [thresholdError r.nodeId e]
    | .ok _ => []

/-- The errors of the failed nodes as `quorum` records them. -/
def transportFailures (arrivals : List (NodeResponse T)) : List NodeError :=
  arrivals.flatMap fun r =>
    match r.result with
    | .error e => transportErrors r.nodeId e
    | .ok _ => []

@[simp] theorem values_nil : values ([] : List (NodeResponse T)) = [] := rfl

theorem values_append (arrivals more : List (NodeResponse T)) :
    values (arrivals ++ more) = values arrivals ++ values more := List.filterMap_append ..

theorem values_singleton_ok {nr : NodeResponse T} {v : T} (h : nr.result = .ok v) : values [nr] = [v] := by
  simp [values, h, Except.toOption]

theorem values_singleton_error {nr : NodeResponse T} {e : Error} (h : nr.result = .error e) :
    values [nr] = [] := by
  simp [values, h, Except.toOption]

theorem failures_append (arrivals more : List (NodeResponse T)) :
    failures (arrivals ++ more) = failures arrivals ++ failures more := List.flatMap_append ..

theorem failures_singleton_ok {nr : NodeResponse T} {v : T} (h : nr.result = .ok v) :
    failures [nr] = [] := by
  simp [failures, h]

theorem failures_singleton_error {nr : NodeResponse T} {e : Error} (h : nr.result = .error e) :
    failures [nr] = [thresholdError nr.nodeId e] := by
  simp [failures, h]

theorem transportFailures_append (arrivals more : List (NodeResponse T)) :
    transportFailures (arrivals ++ more) = transportFailures arrivals ++ transportFailures more :=
  List.flatMap_append ..

theorem transportFailures_singleton_ok {nr : NodeResponse T} {v : T} (h : nr.result = .ok v) :
    transportFailures [nr] = [] := by
  simp [transportFailures, h]

theorem transportFailures_singleton_error {nr : NodeResponse T} {e : Error} (h : nr.result = .error e) :
    transportFailures [nr] = transportErrors nr.nodeId e := by
  simp [transportFailures, h]

/-- The IDs of the nodes that failed. -/
def failedNodes (arrivals : List (NodeResponse T)) : List UInt32 :=
  (arrivals.filter fun r => !r.result.isOk).map NodeResponse.nodeId

theorem failedNodes_append (arrivals more : List (NodeResponse T)) :
    failedNodes (arrivals ++ more) = failedNodes arrivals ++ failedNodes more := by
  rw [failedNodes, List.filter_append, List.map_append]
  rfl

/-- `threshold` records one error per failed node, in the order of the arrivals. -/
theorem map_nodeId_failures (arrivals : List (NodeResponse T)) :
    (failures arrivals).map NodeError.nodeId = failedNodes arrivals := by
  induction arrivals with
  | nil => rfl
  | cons nr arrivals ih =>
      rw [← List.singleton_append, failures_append, failedNodes_append, List.map_append, ih]
      cases h : nr.result with
      | ok v => simp [failures_singleton_ok h, failedNodes, h]
      | error e => cases e <;> simp [failures_singleton_error h, failedNodes, h, thresholdError]

/-- All errors among the arrivals are transport errors. -/
def TransportOnly (arrivals : List (NodeResponse T)) : Prop :=
  ∀ r ∈ arrivals, ∀ e, r.result = .error e → ∃ s, e = .transport s

theorem length_transportFailures_le (arrivals : List (NodeResponse T)) :
    (transportFailures arrivals).length ≤ (failures arrivals).length := by
  induction arrivals with
  | nil => exact le_rfl
  | cons nr arrivals ih =>
      rw [← List.singleton_append, failures_append, transportFailures_append, List.length_append,
        List.length_append]
      refine Nat.add_le_add ?_ ih
      cases h : nr.result with
      | ok v => simp [transportFailures_singleton_ok h]
      | error e =>
          rw [failures_singleton_error h, transportFailures_singleton_error h]
          cases e <;> simp [transportErrors]

/-- The two ways to record errors agree on transport errors only. -/
theorem transportFailures_eq_iff (arrivals : List (NodeResponse T)) :
    transportFailures arrivals = failures arrivals ↔ TransportOnly arrivals := by
  induction arrivals with
  | nil => simp [TransportOnly, failures, transportFailures]
  | cons nr arrivals ih =>
      have hle := length_transportFailures_le arrivals
      have hcons : TransportOnly (nr :: arrivals) ↔
          (∀ e, nr.result = .error e → ∃ s, e = .transport s) ∧ TransportOnly arrivals :=
        List.forall_mem_cons
      rw [hcons, ← ih, ← List.singleton_append, failures_append, transportFailures_append]
      cases h : nr.result with
      | ok v => simp [transportFailures_singleton_ok h, failures_singleton_ok h]
      | error e =>
          rw [failures_singleton_error h, transportFailures_singleton_error h]
          cases e with
          | transport s => simp [transportErrors, thresholdError]
          | _ =>
              -- `quorum` is one error short
              refine iff_of_false (fun heq => ?_) (by simp)
              have := congrArg List.length heq
              simp [transportErrors] at this
              omega

theorem length_values (arrivals : List (NodeResponse T)) :
    (values arrivals).length = (oks arrivals).length := by
  induction arrivals with
  | nil => rfl
  | cons nr arrivals ih =>
      rw [← List.singleton_append, values_append, oks_append, List.length_append, List.length_append, ih]
      cases h : nr.result with
      | error e => rw [values_singleton_error h, oks_singleton_of_error h]; rfl
      | ok v => rw [values_singleton_ok h, oks_cons_of_ok h]; rfl

theorem length_values_eq_iff (arrivals : List (NodeResponse T)) :
    (values arrivals).length = arrivals.length ↔ ∀ r ∈ arrivals, r.result.isOk := by
  rw [length_values, oks, List.length_filter_eq_length_iff]

/-- The `threshold` loop after the arrivals: it goes on while fewer than `max k 1` of them are
successes, and then leaves with the first one. -/
theorem after_threshold (k : Nat) (arrivals : List (NodeResponse T)) :
    (threshold k).after arrivals =
      if (values arrivals).length < max k 1 then
        .ok ⟨(values arrivals).length, (values arrivals).head?, failures arrivals⟩
      else .error (.okUnwrap (values arrivals).head?) := by
  induction arrivals using List.reverseRecOn with
  | nil => exact (if_pos (by simp)).symm
  | append_singleton arrivals nr ih =>
      rw [ReceiveLoop.after_append_singleton, ih, values_append, failures_append]
      cases h : nr.result with
      | error e =>
          rw [values_singleton_error h, failures_singleton_error h, List.append_nil]
          split
          · simp only [Except.bind, threshold, thresholdTake, h]
          · rfl
      | ok v =>
          rw [values_singleton_ok h, failures_singleton_ok h, List.append_nil]
          have hfirst : (values arrivals ++ [v]).head? =
              if (values arrivals).head?.isNone then some v else (values arrivals).head? := by
            cases values arrivals <;> rfl
          by_cases hlt : (values arrivals).length < max k 1
          · rw [if_pos hlt, List.length_append, hfirst]
            simp only [Except.bind, threshold, thresholdTake, h, List.length_singleton]
            by_cases hk : k ≤ (values arrivals).length + 1
            · rw [if_pos hk, if_neg (show ¬(values arrivals).length + 1 < max k 1 by omega)]
            · rw [if_neg hk, if_pos (show (values arrivals).length + 1 < max k 1 by omega)]
          · have hne : values arrivals ≠ [] := by
              intro hnil
              rw [hnil] at hlt
              exact hlt (by simp)
            rw [if_neg hlt, if_neg (by rw [List.length_append]; omega),
              List.head?_append_of_ne_nil _ hne]
            rfl

/-- A `threshold` call whose channel closes after the arrivals. -/
theorem result_threshold (k : Nat) (arrivals : List (NodeResponse T)) :
    (threshold k).result arrivals =
      if (values arrivals).length < max k 1 then .incomplete (failures arrivals)
      else .okUnwrap (values arrivals).head? :=
  ReceiveLoop.result_of_after (after_threshold k arrivals)

/-- The slices that `f` is called with, one call per success. -/
def slices (vals : List T) : List (List T) :=
  (List.range vals.length).map fun i => vals.take (i + 1)

theorem slices_append (vals : List T) (v : T) : slices (vals ++ [v]) = slices vals ++ [vals ++ [v]] := by
  rw [slices, List.length_append, List.length_singleton, List.range_succ, List.map_append,
    List.map_singleton, List.take_of_length_le (by simp)]
  congr 1
  refine List.map_congr_left fun i hi => ?_
  rw [List.take_append_of_le_length (List.mem_range.mp hi)]

theorem mem_slices {vals slice : List T} : slice ∈ slices vals ↔ slice ≠ [] ∧ slice <+: vals := by
  rw [slices, List.mem_map]
  constructor
  · rintro ⟨i, hi, rfl⟩
    have hlt := List.mem_range.mp hi
    refine ⟨fun hnil => ?_, List.take_prefix ..⟩
    have hlen := congrArg List.length hnil
    rw [List.length_take, List.length_nil] at hlen
    omega
  · rintro ⟨hne, hpre⟩
    have hpos := List.length_pos_iff.mpr hne
    have hle := hpre.length_le
    refine ⟨slice.length - 1, List.mem_range.mpr (by omega), ?_⟩
    rw [show slice.length - 1 + 1 = slice.length by omega]
    exact (List.prefix_iff_eq_take.mp hpre).symm

/-- The slice on which `f` ends the `quorum` loop. -/
def resolving (f : List T → Option T) (arrivals : List (NodeResponse T)) : Option (List T) :=
  (slices (values arrivals)).find? fun slice => (f slice).isSome

theorem resolving_spec {f : List T → Option T} {arrivals : List (NodeResponse T)} {slice : List T}
    (h : resolving f arrivals = some slice) :
    slice ≠ [] ∧ slice <+: values arrivals ∧ (f slice).isSome := by
  obtain ⟨hne, hpre⟩ := mem_slices.mp (List.mem_of_find?_eq_some h)
  rw [resolving] at h
  exact ⟨hne, hpre, by simpa using List.find?_some h⟩

theorem resolving_isSome {f : List T → Option T} {arrivals : List (NodeResponse T)} :
    (resolving f arrivals).isSome ↔
      ∃ slice, slice ≠ [] ∧ slice <+: values arrivals ∧ (f slice).isSome := by
  rw [resolving, List.find?_isSome]
  simp only [mem_slices, and_assoc]

theorem resolving_append_ok (f : List T → Option T) (arrivals : List (NodeResponse T))
    {nr : NodeResponse T} {v : T} (h : nr.result = .ok v) :
    resolving f (arrivals ++ [nr]) = (resolving f arrivals).or
      (if (f (values arrivals ++ [v])).isSome then some (values arrivals ++ [v]) else none) := by
  rw [resolving, values_append, values_singleton_ok h, slices_append, List.find?_append]
  congr 1
  cases hf : f (values arrivals ++ [v]) <;> simp [hf]

theorem resolving_append_error (f : List T → Option T) (arrivals : List (NodeResponse T))
    {nr : NodeResponse T} {e : Error} (h : nr.result = .error e) :
    resolving f (arrivals ++ [nr]) = resolving f arrivals := by
  rw [resolving, resolving, values_append, values_singleton_error h, List.append_nil]

/-- The `quorum` loop after the arrivals: it goes on until `f` answers. -/
theorem after_quorum (f : List T → Option T) (arrivals : List (NodeResponse T)) :
    (quorum f).after arrivals =
      match resolving f arrivals with
      | some slice => .error (.okUnwrap (f slice))
      | none => .ok ⟨values arrivals, transportFailures arrivals⟩ := by
  induction arrivals using List.reverseRecOn with
  | nil => rfl
  | append_singleton arrivals nr ih =>
      rw [ReceiveLoop.after_append_singleton, ih, values_append, transportFailures_append]
      cases h : nr.result with
      | error e =>
          rw [resolving_append_error f arrivals h, values_singleton_error h,
            transportFailures_singleton_error h, List.append_nil]
          cases resolving f arrivals with
          | some slice => rfl
          | none => simp only [Except.bind, quorum, quorumTake, h]
      | ok v =>
          rw [resolving_append_ok f arrivals h, values_singleton_ok h, transportFailures_singleton_ok h,
            List.append_nil]
          cases resolving f arrivals with
          | some slice => rfl
          | none =>
              simp only [Except.bind, quorum, quorumTake, h, Option.none_or]
              cases hf : f (values arrivals ++ [v]) with
              | none => simp
              | some w => simp [hf, Outcome.okUnwrap]

/-- A `quorum` call whose channel closes after the arrivals. -/
theorem result_quorum (f : List T → Option T) (arrivals : List (NodeResponse T)) :
    (quorum f).result arrivals =
      match resolving f arrivals with
      | some slice => .okUnwrap (f slice)
      | none => .incomplete (transportFailures arrivals) := by
  rw [ReceiveLoop.result, after_quorum]
  cases resolving f arrivals <;> rfl

/-- A function that needs `k` replies and answers then resolves on the first `k`. -/
theorem resolving_eq_ite {f : List T → Option T} {k : Nat} (hk : 1 ≤ k)
    (hf : ∀ slice : List T, slice ≠ [] → ((f slice).isSome ↔ k ≤ slice.length))
    (arrivals : List (NodeResponse T)) :
    resolving f arrivals =
      if (values arrivals).length < k then none else some ((values arrivals).take k) := by
  induction arrivals using List.reverseRecOn with
  | nil => exact (if_pos (by simp; omega)).symm
  | append_singleton arrivals nr ih =>
      cases h : nr.result with
      | error e =>
          rw [resolving_append_error f arrivals h, ih, values_append, values_singleton_error h,
            List.append_nil]
      | ok v =>
          have hlast := hf (values arrivals ++ [v]) (by simp)
          rw [resolving_append_ok f arrivals h, ih, values_append, values_singleton_ok h]
          rw [List.length_append, List.length_singleton] at hlast ⊢
          by_cases hlt : (values arrivals).length < k
          · rw [if_pos hlt, Option.none_or]
            by_cases hreach : k ≤ (values arrivals).length + 1
            · rw [if_pos (hlast.mpr hreach), if_neg (by omega),
                List.take_of_length_le (by rw [List.length_append, List.length_singleton]; omega)]
            · rw [if_neg (fun hsome => hreach (hlast.mp hsome)), if_pos (by omega)]
          · rw [if_neg hlt, Option.some_or, if_neg (by omega), List.take_append_of_le_length (by omega)]

/-- The function that answers the first reply once there are `k`. -/
def firstOf (k : Nat) (slice : List T) : Option T := if k ≤ slice.length then slice.head? else none

/-- The `quorum` loop with `firstOf k` leaves as `threshold k` does; the errors it records are the
transport errors only. -/
theorem after_quorum_firstOf {k : Nat} (hk : 1 ≤ k) (arrivals : List (NodeResponse T)) :
    (quorum (firstOf k)).after arrivals =
      if (values arrivals).length < k then .ok ⟨values arrivals, transportFailures arrivals⟩
      else .error (.okUnwrap (values arrivals).head?) := by
  have hsome : ∀ slice : List T, slice ≠ [] → ((firstOf k slice).isSome ↔ k ≤ slice.length) := by
    intro slice hne
    obtain ⟨first, rest, rfl⟩ := List.exists_cons_of_ne_nil hne
    rw [firstOf]
    split <;> simp_all
  rw [after_quorum, resolving_eq_ite hk hsome]
  by_cases hlt : (values arrivals).length < k
  · rw [if_pos hlt, if_pos hlt]
  · rw [if_neg hlt, if_neg hlt]
    have hfirst : firstOf k ((values arrivals).take k) = (values arrivals).head? := by
      rw [firstOf, if_pos (by rw [List.length_take]; omega), List.head?_take, if_neg (by omega)]
    simp only [hfirst]

end Responses

namespace OrderedResponses

open Responses (failures transportFailures)

theorem plain_append (arrivals : List (OrderedNodeResponse T)) (nr : OrderedNodeResponse T) :
    plain (arrivals ++ [nr]) = plain arrivals ++ [⟨nr.nodeId, nr.result⟩] := List.map_append ..

/-- The slots after the arrivals. -/
def slotsOf (size : Nat) (arrivals : List (OrderedNodeResponse T)) : List (Option T) :=
  arrivals.foldl (fun slots r =>
    match r.result with
    | .ok v => slots.set r.position (some v)
    | .error _ => slots) (List.replicate size none)

theorem slotsOf_append_ok (size : Nat) (arrivals : List (OrderedNodeResponse T))
    {nr : OrderedNodeResponse T} {v : T} (h : nr.result = .ok v) :
    slotsOf size (arrivals ++ [nr]) = (slotsOf size arrivals).set nr.position (some v) := by
  simp only [slotsOf, List.foldl_append, List.foldl_cons, List.foldl_nil, h]

theorem slotsOf_append_error (size : Nat) (arrivals : List (OrderedNodeResponse T))
    {nr : OrderedNodeResponse T} {e : Error} (h : nr.result = .error e) :
    slotsOf size (arrivals ++ [nr]) = slotsOf size arrivals := by
  simp only [slotsOf, List.foldl_append, List.foldl_cons, List.foldl_nil, h]

theorem length_slotsOf (size : Nat) (arrivals : List (OrderedNodeResponse T)) :
    (slotsOf size arrivals).length = size := by
  induction arrivals using List.reverseRecOn with
  | nil => exact List.length_replicate
  | append_singleton arrivals nr ih =>
      cases h : nr.result with
      | error e => rw [slotsOf_append_error size arrivals h, ih]
      | ok v => rw [slotsOf_append_ok size arrivals h, List.length_set, ih]

/-- With one response per position a slot holds the success of its position. -/
theorem getElem?_slotsOf {size : Nat} {arrivals : List (OrderedNodeResponse T)}
    (hnodup : (arrivals.map OrderedNodeResponse.position).Nodup)
    (hlt : ∀ r ∈ arrivals, r.position < size) (p : Nat) (v : T) :
    (slotsOf size arrivals)[p]? = some (some v) ↔
      ∃ r ∈ arrivals, r.position = p ∧ r.result = .ok v := by
  induction arrivals using List.reverseRecOn with
  | nil => simp [slotsOf, List.getElem?_replicate]
  | append_singleton arrivals nr ih =>
      rw [List.map_append, List.nodup_append] at hnodup
      have hold := ih hnodup.1 fun r hr => hlt r (List.mem_append_left _ hr)
      have hfresh : ∀ r ∈ arrivals, r.position ≠ nr.position := fun r hr =>
        hnodup.2.2 _ (List.mem_map_of_mem hr) _ (List.mem_singleton.mpr rfl)
      simp only [List.mem_append, List.mem_singleton, or_and_right, exists_or, exists_eq_left]
      cases h : nr.result with
      | error e => simp [slotsOf_append_error size arrivals h, hold]
      | ok w =>
          rw [slotsOf_append_ok size arrivals h]
          by_cases hp : nr.position = p
          · have hin : nr.position < (slotsOf size arrivals).length := by
              rw [length_slotsOf]
              exact hlt nr (by simp)
            rw [← hp, List.getElem?_set_self hin]
            constructor
            · intro heq
              cases heq
              exact Or.inr ⟨rfl, rfl⟩
            · rintro (⟨r, hr, hrp, -⟩ | ⟨-, hv⟩)
              · exact absurd hrp (hfresh r hr)
              · cases hv
                rfl
          · rw [List.getElem?_set_ne hp, hold]
            simp [hp]

/-- The first filled slot belongs to the lowest position with a success. -/
theorem findSome?_slotsOf {size : Nat} {arrivals : List (OrderedNodeResponse T)}
    (hnodup : (arrivals.map OrderedNodeResponse.position).Nodup)
    (hlt : ∀ r ∈ arrivals, r.position < size) {v : T}
    (h : (slotsOf size arrivals).findSome? id = some v) :
    ∃ r ∈ arrivals, r.result = .ok v ∧ ∀ r' ∈ oks arrivals, r.position ≤ r'.position := by
  obtain ⟨before, slot, rest, hslots, hslot, hnone⟩ := List.findSome?_eq_some_iff.mp h
  have hget : (slotsOf size arrivals)[before.length]? = some (some v) := by
    rw [hslots, List.getElem?_append_right le_rfl, Nat.sub_self]
    exact congrArg some hslot
  obtain ⟨r, hr, hpos, hres⟩ := (getElem?_slotsOf hnodup hlt _ v).mp hget
  refine ⟨r, hr, hres, fun r' hr' => ?_⟩
  by_contra hless
  obtain ⟨hmem, hok⟩ := List.mem_filter.mp hr'
  cases hres' : r'.result with
  | error e => simp [hres'] at hok
  | ok w =>
      have hget' := (getElem?_slotsOf hnodup hlt _ w).mpr ⟨r', hmem, rfl, hres'⟩
      have hbefore : r'.position < before.length := by omega
      rw [hslots, List.getElem?_append_left hbefore] at hget'
      exact absurd (hnone _ (List.mem_of_getElem? hget')) (by simp)

/-- A response that fills a slot leaves one to be found. -/
theorem exists_findSome?_set {slots : List (Option T)} {p : Nat} (hp : p < slots.length)
    (v : T) : ∃ w, (slots.set p (some v)).findSome? id = some w := by
  rw [← Option.isSome_iff_exists, List.findSome?_isSome_iff]
  exact ⟨some v, List.mem_set hp (some v), rfl⟩

/-- The `threshold` loop after the arrivals: it goes on while fewer than `max k 1` of them are
successes, and then leaves with the first slot filled by those. -/
theorem after_threshold {size : Nat} (k : Nat) {arrivals : List (OrderedNodeResponse T)}
    (hlt : ∀ r ∈ arrivals, r.position < size) :
    (threshold size k).after arrivals =
      if (oks arrivals).length < max k 1 then
        .ok ⟨slotsOf size (oks arrivals), (oks arrivals).length,
          failures (plain arrivals)⟩
      else .error (.okUnwrap ((slotsOf size ((oks arrivals).take (max k 1))).findSome? id)) := by
  induction arrivals using List.reverseRecOn with
  | nil => exact (if_pos (by simp [oks])).symm
  | append_singleton arrivals nr ih =>
      rw [ReceiveLoop.after_append_singleton, ih fun r hr => hlt r (List.mem_append_left _ hr),
        plain_append, Responses.failures_append, oks_append]
      cases h : nr.result with
      | error e =>
          rw [oks_singleton_of_error h, Responses.failures_singleton_error rfl, List.append_nil]
          split
          · simp only [Except.bind, threshold, thresholdTake, h]
          · rfl
      | ok v =>
          have hnr : oks [nr] = [nr] := oks_cons_of_ok h []
          rw [hnr, Responses.failures_singleton_ok rfl, List.append_nil, List.length_append,
            List.length_singleton]
          by_cases hcount : (oks arrivals).length < max k 1
          · have hin : nr.position < (slotsOf size (oks arrivals)).length := by
              rw [length_slotsOf]
              exact hlt nr (by simp)
            rw [if_pos hcount]
            simp only [Except.bind, threshold, thresholdTake, h, if_pos hin]
            by_cases hk : k ≤ (oks arrivals).length + 1
            · obtain ⟨w, hw⟩ := exists_findSome?_set hin v
              rw [if_pos hk, if_neg (by omega),
                List.take_of_length_le (by rw [List.length_append, List.length_singleton]; omega),
                slotsOf_append_ok size _ h, hw]
              rfl
            · rw [if_neg hk, if_pos (by omega), slotsOf_append_ok size _ h]
          · rw [if_neg hcount, if_neg (by omega), List.take_append_of_le_length (by omega)]
            rfl

/-- The function that answers the first filled slot once `k` slots are filled. -/
def firstFilledOf (k : Nat) (calls : List (List (Option T))) : Option T :=
  calls.getLast?.bind fun slots =>
    if k ≤ slots.countP Option.isSome then slots.findSome? id else none

/-- The slots of the calls of the function, one call per success. -/
def callsOf (size : Nat) (successes : List (OrderedNodeResponse T)) : List (List (Option T)) :=
  (List.range successes.length).map fun i => slotsOf size (successes.take (i + 1))

theorem callsOf_eq (size : Nat) (successes : List (OrderedNodeResponse T)) :
    callsOf size successes = (Responses.slices successes).map (slotsOf size) := by
  rw [callsOf, Responses.slices, List.map_map]
  rfl

theorem callsOf_append (size : Nat) (successes : List (OrderedNodeResponse T))
    (nr : OrderedNodeResponse T) :
    callsOf size (successes ++ [nr]) = callsOf size successes ++ [slotsOf size (successes ++ [nr])] := by
  rw [callsOf_eq, callsOf_eq, Responses.slices_append, List.map_append, List.map_singleton]

/-- With one success per position as many slots are filled as successes arrived. -/
theorem countP_slotsOf {size : Nat} {successes : List (OrderedNodeResponse T)}
    (hnodup : (successes.map OrderedNodeResponse.position).Nodup)
    (hlt : ∀ r ∈ successes, r.position < size) (hok : ∀ r ∈ successes, r.result.isOk) :
    (slotsOf size successes).countP Option.isSome = successes.length := by
  induction successes using List.reverseRecOn with
  | nil => simp [slotsOf, List.countP_replicate]
  | append_singleton successes nr ih =>
      rw [List.map_append, List.nodup_append] at hnodup
      have hlt' : ∀ r ∈ successes, r.position < size := fun r hr => hlt r (List.mem_append_left _ hr)
      have hold := ih hnodup.1 hlt' fun r hr => hok r (List.mem_append_left _ hr)
      cases h : nr.result with
      | error e =>
          have := hok nr (by simp)
          simp [h] at this
      | ok v =>
          have hin : nr.position < (slotsOf size successes).length := by
            rw [length_slotsOf]
            exact hlt nr (by simp)
          have hempty : (slotsOf size successes)[nr.position] = none := by
            cases hslot : (slotsOf size successes)[nr.position] with
            | none => rfl
            | some w =>
                obtain ⟨r, hr, hpos, -⟩ := (getElem?_slotsOf hnodup.1 hlt' nr.position w).mp
                  (List.getElem?_eq_some_iff.mpr ⟨hin, hslot⟩)
                exact absurd hpos (hnodup.2.2 _ (List.mem_map_of_mem hr) _ (List.mem_singleton.mpr rfl))
          rw [slotsOf_append_ok size successes h, List.countP_set hin, hold, hempty, List.length_append]
          rfl

theorem nodup_oks {arrivals : List (OrderedNodeResponse T)}
    (hnodup : (arrivals.map OrderedNodeResponse.position).Nodup) :
    ((oks arrivals).map OrderedNodeResponse.position).Nodup :=
  hnodup.sublist (List.filter_sublist.map _)

/-- The `quorum` loop with `firstFilledOf k` leaves as `threshold k` does; the errors it records are
the transport errors only. -/
theorem after_quorum_firstFilledOf {size k : Nat} (hk : 1 ≤ k) {arrivals : List (OrderedNodeResponse T)}
    (hnodup : (arrivals.map OrderedNodeResponse.position).Nodup)
    (hlt : ∀ r ∈ arrivals, r.position < size) :
    (quorum size (firstFilledOf k)).after arrivals =
      if (oks arrivals).length < k then
        .ok ⟨(slotsOf size (oks arrivals), callsOf size (oks arrivals)),
          transportFailures (plain arrivals)⟩
      else .error (.okUnwrap ((slotsOf size ((oks arrivals).take k)).findSome? id)) := by
  induction arrivals using List.reverseRecOn with
  | nil => exact (if_pos (by simp [oks]; omega)).symm
  | append_singleton arrivals nr ih =>
      have hsuccesses := countP_slotsOf (nodup_oks hnodup) (fun r hr => hlt r (List.mem_of_mem_filter hr))
        fun r hr => (List.mem_filter.mp hr).2
      rw [List.map_append] at hnodup
      rw [ReceiveLoop.after_append_singleton,
        ih (List.nodup_append.mp hnodup).1 fun r hr => hlt r (List.mem_append_left _ hr),
        plain_append, Responses.transportFailures_append, oks_append]
      rw [oks_append] at hsuccesses
      cases h : nr.result with
      | error e =>
          rw [oks_singleton_of_error h, Responses.transportFailures_singleton_error rfl, List.append_nil]
          split
          · simp only [Except.bind, quorum, quorumTake, h]
          · rfl
      | ok v =>
          have hnr : oks [nr] = [nr] := oks_cons_of_ok h []
          rw [hnr, slotsOf_append_ok size _ h, List.length_append, List.length_singleton] at hsuccesses
          rw [hnr, Responses.transportFailures_singleton_ok rfl, List.append_nil, List.length_append,
            List.length_singleton]
          by_cases hcount : (oks arrivals).length < k
          · have hin : nr.position < (slotsOf size (oks arrivals)).length := by
              rw [length_slotsOf]
              exact hlt nr (by simp)
            rw [if_pos hcount, callsOf_append]
            simp only [Except.bind, quorum, quorumTake, h, if_pos hin, firstFilledOf,
              List.getLast?_concat, Option.bind_some, hsuccesses]
            by_cases hreach : k ≤ (oks arrivals).length + 1
            · obtain ⟨w, hw⟩ := exists_findSome?_set hin v
              rw [if_pos hreach, if_neg (by omega),
                List.take_of_length_le (by rw [List.length_append, List.length_singleton]; omega),
                slotsOf_append_ok size _ h, hw]
              rfl
            · rw [if_neg hreach, if_pos (by omega), slotsOf_append_ok size _ h]
          · rw [if_neg hcount, if_neg (by omega), List.take_append_of_le_length (by omega)]
            rfl

end OrderedResponses

/-- Every position of a configuration of `n` nodes responds exactly once. -/
def EachOnce (n : Nat) (arrivals : List (OrderedNodeResponse T)) : Prop :=
  (arrivals.map OrderedNodeResponse.position).Perm (List.range n)

namespace EachOnce

variable {n : Nat} {arrivals : List (OrderedNodeResponse T)}

theorem nodup (h : EachOnce n arrivals) : (arrivals.map OrderedNodeResponse.position).Nodup :=
  h.nodup_iff.mpr List.nodup_range

theorem position_lt (h : EachOnce n arrivals) : ∀ r ∈ arrivals, r.position < n := fun _ hr =>
  List.mem_range.mp (h.subset (List.mem_map_of_mem hr))

theorem length_eq (h : EachOnce n arrivals) : arrivals.length = n := by
  have hlen := List.Perm.length_eq h
  rwa [List.length_map, List.length_range] at hlen

theorem exists_first (h : EachOnce n arrivals) (hn : 0 < n) : ∃ r ∈ arrivals, r.position = 0 :=
  List.mem_map.mp (h.symm.subset (List.mem_range.mpr hn))

end EachOnce

namespace OrderedResponses

open Responses (failures)

theorem length_oks_eq (arrivals : List (OrderedNodeResponse T)) :
    (Responses.values (plain arrivals)).length = (oks arrivals).length := by
  rw [Responses.length_values, Responses.oks, plain, List.filter_map, List.length_map]
  rfl

/-- The first success is the first value. -/
theorem head?_values (arrivals : List (OrderedNodeResponse T)) (h : 0 < (oks arrivals).length) :
    ∃ r v, (oks arrivals).head? = some r ∧ r.result = .ok v ∧
      (Responses.values (plain arrivals)).head? = some v := by
  induction arrivals with
  | nil => cases h
  | cons nr arrivals ih =>
      cases hres : nr.result with
      | error e =>
          simp only [oks, Responses.values, List.filter_cons, List.map_cons, List.filterMap_cons, hres,
            plain, Except.toOption, isOk_error] at h ih ⊢
          exact ih h
      | ok v =>
          refine ⟨nr, v, ?_, hres, ?_⟩
          · rw [oks_cons_of_ok hres, List.head?_cons]
          · simp [Responses.values, plain, hres, Except.toOption]

theorem result_threshold {size : Nat} (k : Nat) {arrivals : List (OrderedNodeResponse T)}
    (hlt : ∀ r ∈ arrivals, r.position < size) :
    (threshold size k).result arrivals =
      if (oks arrivals).length < max k 1 then
        .incomplete (failures (plain arrivals))
      else .okUnwrap ((slotsOf size ((oks arrivals).take (max k 1))).findSome? id) :=
  ReceiveLoop.result_of_after (after_threshold k hlt)

/-- Enough successes: the loop returns the success of the lowest position among the first ones. -/
theorem result_threshold_of_le {size k : Nat} {arrivals : List (OrderedNodeResponse T)}
    (hnodup : (arrivals.map OrderedNodeResponse.position).Nodup)
    (hlt : ∀ r ∈ arrivals, r.position < size) (henough : max k 1 ≤ (oks arrivals).length) :
    ∃ r ∈ (oks arrivals).take (max k 1), ∃ v, r.result = .ok v ∧
      (∀ r' ∈ (oks arrivals).take (max k 1), r.position ≤ r'.position) ∧
      (threshold size k).result arrivals = .ok v := by
  have hsub : ((oks arrivals).take (max k 1)).Sublist (oks arrivals) := List.take_sublist ..
  have hnodup' := (nodup_oks hnodup).sublist (hsub.map OrderedNodeResponse.position)
  have hlt' : ∀ r ∈ (oks arrivals).take (max k 1), r.position < size := fun r hr =>
    hlt r (List.mem_of_mem_filter (hsub.subset hr))
  have hok : ∀ r ∈ (oks arrivals).take (max k 1), r.result.isOk := fun r hr =>
    (List.mem_filter.mp (hsub.subset hr)).2
  -- a slot is filled, so one is found
  have hfilled := countP_slotsOf hnodup' hlt' hok
  have hfound : ((slotsOf size ((oks arrivals).take (max k 1))).findSome? id).isSome := by
    rw [List.findSome?_isSome_iff]
    refine (List.countP_pos_iff (p := Option.isSome)).mp ?_
    rw [hfilled, List.length_take]
    omega
  obtain ⟨v, hv⟩ := Option.isSome_iff_exists.mp hfound
  obtain ⟨r, hr, hres, hmin⟩ := findSome?_slotsOf hnodup' hlt' hv
  refine ⟨r, hr, v, hres, fun r' hr' => hmin r' (List.mem_filter.mpr ⟨hr', hok r' hr'⟩), ?_⟩
  rw [result_threshold k hlt, if_neg (by omega), hv]
  rfl

end OrderedResponses

open OrderedResponses in
/-- The plain and the ordered `threshold` leave at the same arrival with the same verdict; they fail
with the same errors, and return the first success to arrive and the one at the lowest position. -/
theorem thresholds_agree (k : Nat) {n : Nat} {arrivals : List (OrderedNodeResponse T)}
    (h : EachOnce n arrivals) :
    (∀ i, (((Responses.threshold k).exit? (plain (arrivals.take i))).isSome ↔
        max k 1 ≤ (oks (arrivals.take i)).length) ∧
      (((threshold n k).exit? (arrivals.take i)).isSome ↔ max k 1 ≤ (oks (arrivals.take i)).length)) ∧
    (max k 1 ≤ (oks arrivals).length →
      (∃ r v, (oks arrivals).head? = some r ∧ r.result = .ok v ∧
        (Responses.threshold k).result (plain arrivals) = .ok v) ∧
      ∃ r ∈ (oks arrivals).take (max k 1), ∃ v, r.result = .ok v ∧
        (∀ r' ∈ (oks arrivals).take (max k 1), r.position ≤ r'.position) ∧
        (threshold n k).result arrivals = .ok v) ∧
    (¬max k 1 ≤ (oks arrivals).length →
      (Responses.threshold k).result (plain arrivals) =
          .incomplete (Responses.failures (plain arrivals)) ∧
        (threshold n k).result arrivals =
          .incomplete (Responses.failures (plain arrivals)) ∧
        (Responses.failures (plain arrivals)).map NodeError.nodeId =
          Responses.failedNodes (plain arrivals)) ∧
    (0 < n → (∀ r ∈ arrivals, r.result.isOk) →
      ∃ r ∈ arrivals, r.position = 0 ∧ ∃ v, r.result = .ok v ∧ (all n).result arrivals = .ok v) := by
  refine ⟨fun i => ⟨?_, ?_⟩, fun henough => ⟨?_, ?_⟩, fun hfew => ⟨?_, ?_, ?_⟩, fun hn hok => ?_⟩
  · rw [ReceiveLoop.exit?_of_after (Responses.after_threshold k _), length_oks_eq, ← not_lt]
    split <;> simp [*]
  · have hlt : ∀ r ∈ arrivals.take i, r.position < n := fun r hr =>
      h.position_lt r (List.mem_of_mem_take hr)
    rw [ReceiveLoop.exit?_of_after (after_threshold k hlt), ← not_lt]
    split <;> simp [*]
  · obtain ⟨r, v, hr, hres, hv⟩ := head?_values arrivals (by omega)
    refine ⟨r, v, hr, hres, ?_⟩
    rw [Responses.result_threshold, length_oks_eq, if_neg (by omega), hv]
    rfl
  · exact result_threshold_of_le h.nodup h.position_lt henough
  · rw [Responses.result_threshold, length_oks_eq, if_pos (by omega)]
  · rw [result_threshold k h.position_lt, if_pos (by omega)]
  · exact Responses.map_nodeId_failures _
  · have hall : oks arrivals = arrivals := List.filter_eq_self.mpr hok
    obtain ⟨r, hr, v, hres, hmin, hv⟩ := result_threshold_of_le (k := n) h.nodup h.position_lt
      (by rw [hall, h.length_eq]; omega)
    rw [hall, List.take_of_length_le (by rw [h.length_eq]; omega)] at hr hmin
    obtain ⟨first, hfirst, hzero⟩ := h.exists_first hn
    exact ⟨r, hr, by have := hmin first hfirst; omega, v, hres, hv⟩

theorem thresholds_agree_three :
    ∃ v, (OrderedResponses.threshold 3 2).result
      [⟨2, 30, .ok 7⟩, ⟨1, 20, .error .streamDown⟩, ⟨0, 10, .ok 5⟩] = .ok v := by
  have honce : EachOnce 3 [⟨2, 30, .ok (7 : Nat)⟩, ⟨1, 20, .error .streamDown⟩, ⟨0, 10, .ok 5⟩] := by
    unfold EachOnce
    decide
  obtain ⟨-, hle, -⟩ := thresholds_agree 2 honce
  obtain ⟨-, r, hr, v, -, -, hv⟩ := hle (by decide)
  exact ⟨v, hv⟩

@[simp] theorem Outcome.incomplete_inj {errors errors' : List NodeError} :
    (Outcome.incomplete errors : Outcome T) = .incomplete errors' ↔ errors = errors' := by
  simp [Outcome.incomplete, Outcome.err]

/-- The result of a `quorum` loop against that of the `threshold` loop it stands for: the same, with an
`Incomplete` error that names the failed nodes. -/
def SameResult (arrivals : List (NodeResponse T)) (quorum threshold : Outcome T) : Prop :=
  quorum = threshold ∧
    ∀ errors, quorum = .incomplete errors → errors.map NodeError.nodeId = Responses.failedNodes arrivals

theorem Outcome.okUnwrap_ne_incomplete (first : Option T) (errors : List NodeError) :
    Outcome.okUnwrap first ≠ .incomplete errors := by
  cases first <;> rintro ⟨⟩

/-- Both loops leave with one value, or both run dry with errors recorded in their own way. -/
theorem sameResult_iff {p : Prop} [Decidable p] (arrivals : List (NodeResponse T)) (first : Option T) :
    SameResult arrivals
        (if p then .incomplete (Responses.transportFailures arrivals) else .okUnwrap first)
        (if p then .incomplete (Responses.failures arrivals) else .okUnwrap first) ↔
      ¬p ∨ Responses.TransportOnly arrivals := by
  rw [← Responses.transportFailures_eq_iff]
  by_cases hp : p
  · rw [if_pos hp, if_pos hp]
    constructor
    · intro h
      exact Or.inr (Outcome.incomplete_inj.mp h.1)
    · intro h
      rw [h.resolve_left (not_not_intro hp)]
      refine ⟨rfl, fun errors herrors => ?_⟩
      rw [← Outcome.incomplete_inj.mp herrors, Responses.map_nodeId_failures]
  · rw [if_neg hp, if_neg hp]
    exact iff_of_true ⟨rfl, fun errors h => absurd h (Outcome.okUnwrap_ne_incomplete first errors)⟩
      (Or.inl hp)

/-- `quorum` with the function that stands for `threshold k` gives the result of `threshold k` if there
are `k` successes, or if no error but transport errors arrived: it drops the others. -/
theorem sameResult_quorum_threshold_iff {k : Nat} (hk : 1 ≤ k) :
    (∀ arrivals : List (NodeResponse T),
      SameResult arrivals ((Responses.quorum (Responses.firstOf k)).result arrivals)
          ((Responses.threshold k).result arrivals) ↔
        k ≤ (Responses.oks arrivals).length ∨ Responses.TransportOnly arrivals) ∧
    ∀ (size : Nat) (arrivals : List (OrderedNodeResponse T)),
      (arrivals.map OrderedNodeResponse.position).Nodup → (∀ r ∈ arrivals, r.position < size) →
      (SameResult (OrderedResponses.plain arrivals)
          ((OrderedResponses.quorum size (OrderedResponses.firstFilledOf k)).result arrivals)
          ((OrderedResponses.threshold size k).result arrivals) ↔
        k ≤ (OrderedResponses.oks arrivals).length ∨
          Responses.TransportOnly (OrderedResponses.plain arrivals)) := by
  have hmax : max k 1 = k := by omega
  refine ⟨fun arrivals => ?_, fun size arrivals hnodup hlt => ?_⟩
  · rw [Responses.result_threshold, hmax, ← Responses.length_values, ← not_lt,
      ReceiveLoop.result_of_after (Responses.after_quorum_firstOf hk arrivals)]
    exact sameResult_iff arrivals _
  · rw [OrderedResponses.result_threshold k hlt, hmax, ← not_lt,
      ReceiveLoop.result_of_after (OrderedResponses.after_quorum_firstFilledOf hk hnodup hlt)]
    exact sameResult_iff (OrderedResponses.plain arrivals) _

theorem sameResult_quorum_threshold_two :
    SameResult (OrderedResponses.plain [⟨1, 20, .error .streamDown⟩, ⟨0, 10, .ok 5⟩])
      ((OrderedResponses.quorum 2 (OrderedResponses.firstFilledOf 1)).result
        [⟨1, 20, .error .streamDown⟩, ⟨0, 10, .ok 5⟩])
      ((OrderedResponses.threshold 2 1).result [⟨1, 20, .error .streamDown⟩, ⟨0, 10, .ok 5⟩]) :=
  ((sameResult_quorum_threshold_iff (T := Nat) le_rfl).2 2 _ (by decide) (by decide)).mpr
    (Or.inl (by decide))

/-- A broken stream is recorded by `threshold` and dropped by `quorum`. -/
theorem not_sameResult_streamDown :
    ¬SameResult (T := Nat) [⟨1, .error .streamDown⟩]
      ((Responses.quorum (Responses.firstOf 1)).result [⟨1, .error .streamDown⟩])
      ((Responses.threshold 1).result [⟨1, .error .streamDown⟩]) := by
  rintro ⟨heq, -⟩
  cases heq

end Quorums
