import Quorums.HandleLoops

/-! What the loops of the terminal methods count. A `threshold` loop that returns `Ok` has read `k`
successes, the loop of `Correctable` successes of `k` distinct nodes; a `quorum` loop returns `Ok` only
with what its function makes of the successes read so far. -/

namespace Quorums

variable {T : Type}

@[simp] theorem isOk_ok (v : T) : (Except.ok v : Except Error T).isOk = true := rfl

@[simp] theorem isOk_error (e : Error) : (Except.error e : Except Error T).isOk = false := rfl

@[simp] theorem Outcome.incomplete_ne_ok (errors : List NodeError) (v : T) :
    Outcome.incomplete errors ≠ .ok v := by
  rintro ⟨⟩

namespace Responses

/-- The successes among the arrivals. -/
def oks (arrivals : List (NodeResponse T)) : List (NodeResponse T) :=
  arrivals.filter fun r => r.result.isOk

theorem oks_append (arrivals more : List (NodeResponse T)) :
    oks (arrivals ++ more) = oks arrivals ++ oks more := List.filter_append ..

theorem oks_cons_of_ok {nr : NodeResponse T} {v : T} (h : nr.result = .ok v)
    (more : List (NodeResponse T)) : oks (nr :: more) = nr :: oks more :=
  List.filter_cons_of_pos (by rw [h]; rfl)

theorem oks_singleton_of_error {nr : NodeResponse T} {e : Error} (h : nr.result = .error e) :
    oks [nr] = [] := by
  simp [oks, h]

theorem count_eq {k : Nat} {arrivals : List (NodeResponse T)} {s : Vars T}
    (h : (threshold k).after arrivals = .ok s) : s.count = (oks arrivals).length := by
  refine ReceiveLoop.after_invariant (P := fun arrivals s => s.count = (oks arrivals).length) rfl ?_ h
  intro arrivals s nr t hs htake
  rw [oks_append, List.length_append, ← hs]
  simp only [threshold, thresholdTake] at htake
  split at htake
  · rename_i e he
    cases htake
    rw [oks_singleton_of_error he, List.length_nil, Nat.add_zero]
  · rename_i val hval
    split at htake
    · cases htake
    · cases htake
      rw [oks_cons_of_ok hval]
      rfl

theorem le_length_oks {k : Nat} {arrivals : List (NodeResponse T)} {out : Outcome T}
    (h : (threshold k).exit? arrivals = some out) : k ≤ (oks arrivals).length := by
  obtain ⟨pre, x, post, s, rfl, hpre, htake⟩ := ReceiveLoop.exists_take_of_exit? h
  have hcount := count_eq hpre
  simp only [threshold, thresholdTake] at htake
  split at htake
  · cases htake
  · rename_i val hval
    split at htake
    · rename_i hk
      rw [oks_append, oks_cons_of_ok hval, List.length_append, List.length_cons, ← hcount]
      omega
    · cases htake

theorem seen_length_eq {f : List T → Option T} {arrivals : List (NodeResponse T)}
    {s : QuorumVars (List T)} (h : (quorum f).after arrivals = .ok s) :
    s.seen.length = (oks arrivals).length := by
  refine ReceiveLoop.after_invariant (P := fun arrivals (s : QuorumVars (List T)) =>
    s.seen.length = (oks arrivals).length) rfl ?_ h
  intro arrivals s nr t hs htake
  rw [oks_append, List.length_append, ← hs]
  simp only [quorum, quorumTake] at htake
  split at htake
  · rename_i e he
    cases htake
    rw [oks_singleton_of_error he, List.length_nil, Nat.add_zero]
  · rename_i val hval
    split at htake
    · cases htake
    · cases htake
      rw [oks_cons_of_ok hval, List.length_append]
      rfl

/-- A `quorum` loop that has left was told to by `f`, on no more values than successes arrived. -/
theorem exists_slice {f : List T → Option T} {arrivals : List (NodeResponse T)} {out : Outcome T}
    (h : (quorum f).exit? arrivals = some out) :
    ∃ slice v, f slice = some v ∧ slice.length ≤ (oks arrivals).length := by
  obtain ⟨pre, x, post, s, rfl, hpre, htake⟩ := ReceiveLoop.exists_take_of_exit? h
  have hlen := seen_length_eq hpre
  simp only [quorum, quorumTake] at htake
  split at htake
  · cases htake
  · rename_i val hval
    split at htake
    · rename_i v hv
      refine ⟨_, v, hv, ?_⟩
      rw [oks_append, oks_cons_of_ok hval, List.length_append, List.length_append, List.length_cons,
        ← hlen]
      simp
    · cases htake

end Responses

namespace OrderedResponses

/-- The successes among the arrivals. -/
def oks (arrivals : List (OrderedNodeResponse T)) : List (OrderedNodeResponse T) :=
  arrivals.filter fun r => r.result.isOk

theorem oks_append (arrivals more : List (OrderedNodeResponse T)) :
    oks (arrivals ++ more) = oks arrivals ++ oks more := List.filter_append ..

theorem oks_cons_of_ok {nr : OrderedNodeResponse T} {v : T} (h : nr.result = .ok v)
    (more : List (OrderedNodeResponse T)) : oks (nr :: more) = nr :: oks more :=
  List.filter_cons_of_pos (by rw [h]; rfl)

theorem oks_singleton_of_error {nr : OrderedNodeResponse T} {e : Error} (h : nr.result = .error e) :
    oks [nr] = [] := by
  simp [oks, h]

theorem count_eq {size k : Nat} {arrivals : List (OrderedNodeResponse T)} {s : Vars T}
    (h : (threshold size k).after arrivals = .ok s) : s.count = (oks arrivals).length := by
  refine ReceiveLoop.after_invariant (P := fun arrivals s => s.count = (oks arrivals).length) rfl ?_ h
  intro arrivals s nr t hs htake
  rw [oks_append, List.length_append, ← hs]
  simp only [threshold, thresholdTake] at htake
  split at htake
  · rename_i e he
    cases htake
    rw [oks_singleton_of_error he, List.length_nil, Nat.add_zero]
  · rename_i val hval
    rw [oks_cons_of_ok hval]
    split at htake
    · split at htake
      · split at htake <;> cases htake
        rfl
      · cases htake
        rfl
    · cases htake

theorem le_length_oks {size k : Nat} {arrivals : List (OrderedNodeResponse T)} {r : Except Error T}
    (h : (threshold size k).exit? arrivals = some (.returned r)) : k ≤ (oks arrivals).length := by
  obtain ⟨pre, x, post, s, rfl, hpre, htake⟩ := ReceiveLoop.exists_take_of_exit? h
  have hcount := count_eq hpre
  simp only [threshold, thresholdTake] at htake
  split at htake
  · cases htake
  · rename_i val hval
    split at htake
    · split at htake
      · rename_i hk
        rw [oks_append, oks_cons_of_ok hval, List.length_append, List.length_cons, ← hcount]
        omega
      · cases htake
    · cases htake

/-- A slot is filled only by a response of its position. -/
def SlotsFrom (size : Nat) (arrivals : List (OrderedNodeResponse T)) (slots : List (Option T)) : Prop :=
  slots.length = size ∧ ∀ (p : Nat) v, slots[p]? = some (some v) → ∃ r ∈ arrivals, r.position = p

theorem SlotsFrom.set {size : Nat} {arrivals : List (OrderedNodeResponse T)} {slots : List (Option T)}
    (h : SlotsFrom size arrivals slots) (nr : OrderedNodeResponse T) (val : T) :
    SlotsFrom size (arrivals ++ [nr]) (slots.set nr.position (some val)) := by
  refine ⟨by rw [List.length_set, h.1], fun p v hp => ?_⟩
  by_cases hpos : nr.position = p
  · exact ⟨nr, by simp, hpos⟩
  · rw [List.getElem?_set, if_neg hpos] at hp
    obtain ⟨r, hr, hrp⟩ := h.2 p v hp
    exact ⟨r, List.mem_append_left _ hr, hrp⟩

theorem SlotsFrom.append {size : Nat} {arrivals : List (OrderedNodeResponse T)}
    {slots : List (Option T)} (h : SlotsFrom size arrivals slots) (more : List (OrderedNodeResponse T)) :
    SlotsFrom size (arrivals ++ more) slots := by
  refine ⟨h.1, fun p v hp => ?_⟩
  obtain ⟨r, hr, hrp⟩ := h.2 p v hp
  exact ⟨r, List.mem_append_left _ hr, hrp⟩

theorem slotsFrom_quorum {size : Nat} {f : List (List (Option T)) → Option T}
    {arrivals : List (OrderedNodeResponse T)} {s : QuorumVars (List (Option T) × List (List (Option T)))}
    (h : (quorum size f).after arrivals = .ok s) : SlotsFrom size arrivals s.seen.1 := by
  refine ReceiveLoop.after_invariant
    (P := fun arrivals (s : QuorumVars (List (Option T) × List (List (Option T)))) =>
      SlotsFrom size arrivals s.seen.1) ⟨List.length_replicate, fun p v hp => ?_⟩ ?_ h
  · simp [quorum, List.getElem?_replicate] at hp
  · intro arrivals s nr t hs htake
    simp only [quorum, quorumTake] at htake
    split at htake
    · cases htake
      exact hs.append [nr]
    · split at htake
      · split at htake <;> cases htake
        exact hs.set nr _
      · cases htake

/-- A `quorum` loop that has returned was told to by `f`, on slots filled by the arrivals. -/
theorem exists_slots {size : Nat} {f : List (List (Option T)) → Option T}
    {arrivals : List (OrderedNodeResponse T)} {r : Except Error T}
    (h : (quorum size f).exit? arrivals = some (.returned r)) :
    ∃ calls slots v, f (calls ++ [slots]) = some v ∧ SlotsFrom size arrivals slots := by
  obtain ⟨pre, x, post, s, rfl, hpre, htake⟩ := ReceiveLoop.exists_take_of_exit? h
  have hslots := slotsFrom_quorum hpre
  simp only [quorum, quorumTake] at htake
  split at htake
  · cases htake
  · rename_i val hval
    split at htake
    · split at htake
      · rename_i v hv
        refine ⟨_, _, v, hv, ?_⟩
        have hall := (hslots.set x val).append post
        rwa [List.append_assoc] at hall
      · cases htake
    · cases htake

end OrderedResponses

namespace Correctable

/-- The nodes that sent one of the arrivals. -/
def senders (arrivals : List (NodeResponse T)) : Finset UInt32 :=
  (arrivals.map NodeResponse.nodeId).toFinset

@[simp] theorem senders_append (arrivals more : List (NodeResponse T)) :
    senders (arrivals ++ more) = senders arrivals ∪ senders more := by
  simp [senders]

@[simp] theorem senders_singleton (nr : NodeResponse T) : senders [nr] = {nr.nodeId} := by
  simp [senders]

/-- The two sets of a `threshold` loop: the nodes with a success so far, and nodes that have sent. -/
structure Tracks (arrivals : List (NodeResponse T)) (s : Vars) : Prop where
  responded : s.responded = senders (Responses.oks arrivals)
  failed : s.failed ⊆ senders arrivals

theorem tracks_threshold {checked : Bool} {size k : Nat} {arrivals : List (NodeResponse T)} {s : Vars}
    (h : (threshold checked size k).after arrivals = .ok s) : Tracks arrivals s := by
  refine ReceiveLoop.after_invariant (P := Tracks) ⟨rfl, Finset.empty_subset _⟩ ?_ h
  intro arrivals s nr t hs htake
  have hfailed : s.failed ⊆ senders (arrivals ++ [nr]) := by
    rw [senders_append]
    exact hs.failed.trans Finset.subset_union_left
  have hresponded {e : Error} (he : nr.result = .error e) :
      s.responded = senders (Responses.oks (arrivals ++ [nr])) := by
    rw [Responses.oks_append, Responses.oks_singleton_of_error he, List.append_nil]
    exact hs.responded
  simp only [threshold, thresholdTake] at htake
  split at htake
  · rename_i val hval
    split at htake
    · cases htake
    · cases htake
      refine ⟨?_, hfailed⟩
      rw [Responses.oks_append, Responses.oks_cons_of_ok hval, senders_append, ← hs.responded,
        Finset.insert_eq, Finset.union_comm]
      exact congrArg (s.responded ∪ ·) (senders_singleton nr).symm
  · rename_i status he
    split at htake
    · split at htake
      · cases htake
      · split at htake
        · cases htake
        · cases htake
          refine ⟨hresponded he, ?_⟩
          rw [senders_append, senders_singleton, Finset.insert_eq, Finset.union_comm]
          exact Finset.union_subset_union_left hs.failed
    · cases htake
      exact ⟨hresponded he, hfailed⟩
  · rename_i e _ he
    cases htake
    exact ⟨hresponded he, hfailed⟩

/-- How a `threshold` loop leaves: with `k` nodes that succeeded, or early, on a transport error. An
early exit for a `k` above the size needs the subtraction to wrap around and that many failures. -/
theorem threshold_exit {checked : Bool} {size k : Nat} {arrivals : List (NodeResponse T)}
    {r : Except Error T} (h : (threshold checked size k).exit? arrivals = some (.returned r)) :
    (r.isOk ∧ k ≤ (senders (Responses.oks arrivals)).card) ∨
      (r.isOk = false ∧ (∃ nr ∈ arrivals, ∃ status, nr.result = .error (.transport status)) ∧
        (k ≤ size ∨ size + 2 ^ 64 - k < (senders arrivals).card)) := by
  obtain ⟨pre, x, post, s, rfl, hpre, htake⟩ := ReceiveLoop.exists_take_of_exit? h
  have htracks := tracks_threshold hpre
  simp only [threshold, thresholdTake] at htake
  split at htake
  · rename_i val hval
    split at htake
    · rename_i hk
      cases htake
      refine Or.inl ⟨rfl, hk.2.trans (Finset.card_le_card ?_)⟩
      rw [Responses.oks_append, Responses.oks_cons_of_ok hval, ← List.singleton_append, senders_append,
        senders_append, senders_singleton, ← htracks.responded, Finset.insert_eq, Finset.union_comm]
      exact Finset.union_subset_union_right Finset.subset_union_left
    · cases htake
  · rename_i status he
    split at htake
    · split at htake
      · cases htake
      · rename_i spare hspare
        split at htake
        · rename_i hcard
          cases htake
          refine Or.inr ⟨rfl, ⟨x, by simp, status, he⟩, ?_⟩
          simp only [usizeSub] at hspare
          split at hspare
          · exact Or.inl ‹_›
          · split at hspare
            · cases hspare
            · cases hspare
              refine Or.inr (hcard.trans_le (Finset.card_le_card ?_))
              rw [← List.singleton_append, senders_append, senders_append, senders_singleton,
                Finset.insert_eq, Finset.union_comm, ← Finset.union_assoc]
              exact (Finset.union_subset_union_left htracks.failed).trans Finset.subset_union_left
        · cases htake
    · cases htake
  · cases htake

end Correctable

/-- The loop of `multicast` ends only when all its senders are gone. -/
theorem multicastLoop_exit? (unit : T) (arrivals : List (UInt32 × Except Error T)) :
    (multicastLoop unit).exit? arrivals = none := by
  cases h : (multicastLoop unit).exit? arrivals with
  | none => rfl
  | some out =>
      obtain ⟨pre, x, post, s, -, -, htake⟩ := ReceiveLoop.exists_take_of_exit? h
      simp only [multicastLoop] at htake
      split at htake <;> cases htake

end Quorums
