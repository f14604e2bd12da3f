import Quorums.HandleThresholds

/-! The `threshold` loop of `Correctable` on interleaved streams. The loop keeps the nodes that have
succeeded and the nodes whose transport error came before any success. On streams that end with the
error that ends them, its verdict does not depend on the interleaving; on every sequence of arrivals it
gives up in time exactly if no node is lost in another way than by a transport error. -/

namespace Quorums.Correctable

variable {T : Type}

open Responses (oks)

/-- The errors after which nothing more comes from a node. -/
def permanent : Error → Bool
  | .transport _ | .streamDown | .nodeClosed => true
  | _ => false

def isTransport : Error → Bool
  | .transport _ => true
  | _ => false

theorem permanent_of_isTransport {e : Error} (h : isTransport e = true) : permanent e = true := by
  cases e <;> simp_all [isTransport, permanent]

/-- What arrived from one node. -/
def streamOf (id : UInt32) (arrivals : List (NodeResponse T)) : List (Except Error T) :=
  (arrivals.filter fun r => r.nodeId = id).map NodeResponse.result

theorem streamOf_append (id : UInt32) (arrivals more : List (NodeResponse T)) :
    streamOf id (arrivals ++ more) = streamOf id arrivals ++ streamOf id more := by
  rw [streamOf, List.filter_append, List.map_append]
  rfl

theorem streamOf_singleton (id : UInt32) (nr : NodeResponse T) :
    streamOf id [nr] = if nr.nodeId = id then [nr.result] else [] := by
  by_cases h : nr.nodeId = id <;> simp [streamOf, h]

/-- An error of the given kind comes before any success. -/
def fails (p : Error → Bool) : List (Except Error T) → Bool
  | [] => false
  | .ok _ :: _ => false
  | .error e :: rest => p e || fails p rest

/-- The last item is an error of the given kind. -/
def failsWith (p : Error → Bool) : Except Error T → Bool
  | .ok _ => false
  | .error e => p e

theorem fails_append_singleton (p : Error → Bool) (stream : List (Except Error T)) (r : Except Error T) :
    fails p (stream ++ [r]) = (fails p stream || (!stream.any Except.isOk && failsWith p r)) := by
  induction stream with
  | nil => cases r <;> simp [fails, failsWith]
  | cons x stream ih =>
      cases x with
      | ok v => simp [fails]
      | error e => simp [fails, ih, Bool.or_assoc]

theorem fails_append {p : Error → Bool} {stream : List (Except Error T)} (h : fails p stream = true)
    (more : List (Except Error T)) : fails p (stream ++ more) = true := by
  induction stream with
  | nil => cases h
  | cons x stream ih =>
      cases x with
      | ok v => cases h
      | error e =>
          rw [fails, Bool.or_eq_true] at h
          rw [List.cons_append, fails, Bool.or_eq_true]
          exact h.imp id ih

/-- The nodes that an error of the given kind took away before any success of theirs. -/
def lostTo (p : Error → Bool) (arrivals : List (NodeResponse T)) : Finset UInt32 :=
  (senders arrivals).filter fun id => fails p (streamOf id arrivals)

/-- A node whose stream is not empty is one of the senders. -/
theorem mem_senders {id : UInt32} {arrivals : List (NodeResponse T)} :
    id ∈ senders arrivals ↔ streamOf id arrivals ≠ [] := by
  simp [senders, streamOf]

theorem mem_senders_oks {id : UInt32} {arrivals : List (NodeResponse T)} :
    id ∈ senders (oks arrivals) ↔ (streamOf id arrivals).any Except.isOk = true := by
  simp only [senders, oks, streamOf, List.mem_toFinset, List.mem_map, List.mem_filter, List.any_eq_true]
  constructor
  · rintro ⟨r, ⟨hr, hok⟩, rfl⟩
    exact ⟨r.result, ⟨r, ⟨hr, by simp⟩, rfl⟩, hok⟩
  · rintro ⟨_, ⟨r, ⟨hr, hid⟩, rfl⟩, hok⟩
    exact ⟨r, ⟨hr, hok⟩, of_decide_eq_true hid⟩

theorem mem_lostTo {p : Error → Bool} {id : UInt32} {arrivals : List (NodeResponse T)} :
    id ∈ lostTo p arrivals ↔ fails p (streamOf id arrivals) = true := by
  rw [lostTo, Finset.mem_filter, mem_senders, and_iff_right_iff_imp]
  intro h hnil
  rw [hnil] at h
  cases h

theorem lostTo_append_subset (p : Error → Bool) (arrivals more : List (NodeResponse T)) :
    lostTo p arrivals ⊆ lostTo p (arrivals ++ more) := by
  intro id h
  rw [mem_lostTo] at h ⊢
  rw [streamOf_append]
  exact fails_append h _

theorem lostTo_mono {p q : Error → Bool} (hpq : ∀ e, p e = true → q e = true)
    (arrivals : List (NodeResponse T)) : lostTo p arrivals ⊆ lostTo q arrivals := by
  have hstream : ∀ stream : List (Except Error T), fails p stream = true → fails q stream = true := by
    intro stream h
    induction stream with
    | nil => cases h
    | cons x stream ih =>
        cases x with
        | ok v => cases h
        | error e =>
            rw [fails, Bool.or_eq_true] at h ⊢
            exact h.imp (hpq e) ih
  intro id h
  rw [mem_lostTo] at h ⊢
  exact hstream _ h

/-- One more arrival: its node is lost if it brings the error and the node has not succeeded. -/
theorem lostTo_append_singleton (p : Error → Bool) (arrivals : List (NodeResponse T))
    (nr : NodeResponse T) :
    lostTo p (arrivals ++ [nr]) =
      if failsWith p nr.result ∧ nr.nodeId ∉ senders (oks arrivals) then
        insert nr.nodeId (lostTo p arrivals)
      else lostTo p arrivals := by
  ext id
  rw [mem_lostTo, streamOf_append, streamOf_singleton]
  by_cases hid : nr.nodeId = id
  · subst hid
    rw [if_pos rfl, fails_append_singleton, Bool.or_eq_true, Bool.and_eq_true, ← mem_lostTo]
    by_cases hlost : failsWith p nr.result ∧ nr.nodeId ∉ senders (oks arrivals)
    · rw [if_pos hlost]
      simp only [mem_senders_oks, Bool.not_eq_true] at hlost
      simp [hlost]
    · rw [if_neg hlost, or_iff_left_iff_imp]
      rintro ⟨hnone, hfails⟩
      refine absurd ⟨hfails, ?_⟩ hlost
      rw [mem_senders_oks]
      simpa using hnone
  · rw [if_neg hid, List.append_nil, ← mem_lostTo]
    split
    · rw [Finset.mem_insert]
      exact ⟨Or.inr, fun h => h.resolve_left fun heq => hid heq.symm⟩
    · rfl

theorem senders_oks_append_ok (arrivals : List (NodeResponse T)) {nr : NodeResponse T} {v : T}
    (h : nr.result = .ok v) :
    senders (oks (arrivals ++ [nr])) = insert nr.nodeId (senders (oks arrivals)) := by
  rw [Responses.oks_append, Responses.oks_cons_of_ok h, senders_append, Finset.insert_eq,
    Finset.union_comm]
  exact congrArg (· ∪ _) (senders_singleton nr)

theorem senders_oks_append_error (arrivals : List (NodeResponse T)) {nr : NodeResponse T} {e : Error}
    (h : nr.result = .error e) : senders (oks (arrivals ++ [nr])) = senders (oks arrivals) := by
  rw [Responses.oks_append, Responses.oks_singleton_of_error h, List.append_nil]

/-- The first success of a node adds it to the nodes that have succeeded. -/
theorem card_senders_oks_lt {pre : List (NodeResponse T)} {nr : NodeResponse T} {v : T}
    (post : List (NodeResponse T)) (hres : nr.result = .ok v) (hnew : nr.nodeId ∉ senders (oks pre)) :
    (senders (oks pre)).card < (senders (oks (pre ++ nr :: post))).card := by
  have hsub : insert nr.nodeId (senders (oks pre)) ⊆ senders (oks (pre ++ nr :: post)) := by
    rw [← List.singleton_append, ← List.append_assoc, Responses.oks_append, senders_append,
      senders_oks_append_ok pre hres]
    exact Finset.subset_union_left
  have hle := Finset.card_le_card hsub
  rwa [Finset.card_insert_of_notMem hnew] at hle

section Loop

variable {checked : Bool} {size k : Nat}

/-- The loop while it waits: it knows the nodes that succeeded and the nodes lost to a transport error,
names the latter in its errors, and has no reason to leave. -/
structure Waits (size k : Nat) (arrivals : List (NodeResponse T)) (s : Vars) : Prop where
  responded : s.responded = senders (oks arrivals)
  failed : s.failed = lostTo isTransport arrivals
  named : (s.nodeErrors.map NodeError.nodeId).toFinset = s.failed
  wanting : s.responded.card < k
  spare : s.failed.card ≤ size - k

/-- What a pass does in a loop that waits. -/
inductive Passes (checked : Bool) (size k : Nat) (arrivals : List (NodeResponse T)) (s : Vars)
    (nr : NodeResponse T) : Prop where
  | goesOn {t : Vars} (htake : (threshold checked size k).take s nr = .ok t)
      (hwaits : Waits size k (arrivals ++ [nr]) t)
  | succeeds {v : T} (hres : nr.result = .ok v) (hnew : nr.nodeId ∉ senders (oks arrivals))
      (hcard : (senders (oks arrivals)).card + 1 = k)
      (htake : (threshold checked size k).take s nr = .error (.ok v))
  | givesUp {errors : List NodeError} (htransport : failsWith isTransport nr.result = true)
      (hnamed : (errors.map NodeError.nodeId).toFinset = lostTo isTransport (arrivals ++ [nr]))
      (hcard : size - k < (lostTo isTransport (arrivals ++ [nr])).card)
      (htake : (threshold checked size k).take s nr = .error (.incomplete errors))

/-- An error that does not lose a node changes nothing. -/
theorem Waits.append_error {arrivals : List (NodeResponse T)} {s : Vars} (h : Waits size k arrivals s)
    {nr : NodeResponse T} {e : Error} (he : nr.result = .error e)
    (hkept : ¬(failsWith isTransport nr.result = true ∧ nr.nodeId ∉ senders (oks arrivals)) ∨
      nr.nodeId ∈ lostTo isTransport arrivals) : Waits size k (arrivals ++ [nr]) s := by
  have hlost : lostTo isTransport (arrivals ++ [nr]) = lostTo isTransport arrivals := by
    rw [lostTo_append_singleton]
    split
    · exact Finset.insert_eq_of_mem (hkept.resolve_left (not_not_intro ‹_›))
    · rfl
  exact ⟨by rw [senders_oks_append_error _ he, h.responded], by rw [hlost, h.failed], h.named, h.wanting,
    h.spare⟩

theorem Waits.passes (checked : Bool) (hkn : k ≤ size) {arrivals : List (NodeResponse T)} {s : Vars}
    (h : Waits size k arrivals s) (nr : NodeResponse T) : Passes checked size k arrivals s nr := by
  have hwanting := h.wanting
  cases hres : nr.result with
  | ok v =>
      have hlost : lostTo isTransport (arrivals ++ [nr]) = lostTo isTransport arrivals := by
        rw [lostTo_append_singleton, if_neg]
        simp [hres, failsWith]
      by_cases hleave : nr.nodeId ∉ s.responded ∧ (insert nr.nodeId s.responded).card ≥ k
      · rw [h.responded] at hwanting
        refine .succeeds hres (by rw [← h.responded]; exact hleave.1) ?_ ?_
        · have hcard := hleave.2
          rw [Finset.card_insert_of_notMem hleave.1, h.responded] at hcard
          omega
        · simp only [threshold, thresholdTake, hres]
          rw [if_pos (by simpa using hleave)]
      · refine .goesOn (t := { s with responded := insert nr.nodeId s.responded }) ?_ ?_
        · simp only [threshold, thresholdTake, hres]
          rw [if_neg (by simpa using hleave)]
        · refine ⟨?_, ?_, h.named, ?_, h.spare⟩
          · rw [senders_oks_append_ok _ hres, ← h.responded]
          · rw [hlost]
            exact h.failed
          · by_cases hnew : nr.nodeId ∈ s.responded
            · rwa [Finset.insert_eq_of_mem hnew]
            · exact not_le.mp fun hle => hleave ⟨hnew, hle⟩
  | error e =>
      by_cases htransport : isTransport e = true
      · obtain ⟨status, rfl⟩ : ∃ status, e = .transport status := by
          cases e <;> simp_all [isTransport]
        by_cases hfresh : nr.nodeId ∉ s.responded ∧ nr.nodeId ∉ s.failed
        · have hlost : lostTo isTransport (arrivals ++ [nr]) = insert nr.nodeId s.failed := by
            rw [lostTo_append_singleton, if_pos ⟨by rw [hres]; rfl, by rw [← h.responded]; exact hfresh.1⟩,
              h.failed]
          have hnamed : ((s.nodeErrors ++ [(⟨nr.nodeId, status⟩ : NodeError)]).map
              NodeError.nodeId).toFinset = insert nr.nodeId s.failed := by
            rw [List.map_append, List.toFinset_append, h.named, Finset.union_comm, Finset.insert_eq]
            rfl
          by_cases hcard : (insert nr.nodeId s.failed).card > size - k
          · refine .givesUp (by rw [hres]; rfl) (hnamed.trans hlost.symm) (by rw [hlost]; exact hcard) ?_
            simp only [threshold, thresholdTake, hres]
            rw [if_pos hfresh]
            simp only [usizeSub, if_pos hkn, if_pos hcard]
          · refine .goesOn (t := ⟨s.responded, insert nr.nodeId s.failed,
              s.nodeErrors ++ [⟨nr.nodeId, status⟩]⟩) ?_ ?_
            · simp only [threshold, thresholdTake, hres]
              rw [if_pos hfresh]
              simp only [usizeSub, if_pos hkn, if_neg hcard]
            · exact ⟨by rw [senders_oks_append_error _ hres, h.responded], hlost.symm, hnamed, hwanting,
                not_lt.mp hcard⟩
        · refine .goesOn (t := s) ?_ (h.append_error hres ?_)
          · simp only [threshold, thresholdTake, hres]
            rw [if_neg hfresh]
          · rw [← h.responded, ← h.failed]
            tauto
      · refine .goesOn (t := s) ?_ (h.append_error hres (Or.inl fun hlost => ?_))
        · simp only [threshold, thresholdTake, hres]
          cases e <;> simp_all [isTransport]
        · rw [hres] at hlost
          exact htransport hlost.1

theorem waits_of_after (hk : 1 ≤ k) (hkn : k ≤ size) {arrivals : List (NodeResponse T)} {s : Vars}
    (h : (threshold checked size k).after arrivals = .ok s) : Waits size k arrivals s := by
  refine ReceiveLoop.after_invariant (P := Waits size k)
    ⟨rfl, rfl, rfl, Nat.lt_of_lt_of_le Nat.zero_lt_one hk, Nat.zero_le _⟩ ?_ h
  intro arrivals s nr t hs htake
  cases hs.passes checked hkn nr with
  | goesOn htake' hwaits =>
      cases htake.symm.trans htake'
      exact hwaits
  | succeeds _ _ _ htake' => cases htake.symm.trans htake'
  | givesUp _ _ _ htake' => cases htake.symm.trans htake'

/-- How the loop has left: at the first success of the `k`-th node, or at a transport error that leaves
fewer than `k` nodes. -/
inductive Left (checked : Bool) (size k : Nat) (arrivals : List (NodeResponse T)) : Outcome T → Prop where
  | succeeded {pre post : List (NodeResponse T)} {nr : NodeResponse T} {v : T}
      (harrivals : arrivals = pre ++ nr :: post) (hres : nr.result = .ok v)
      (hnew : nr.nodeId ∉ senders (oks pre)) (hcard : (senders (oks pre)).card + 1 = k) :
      Left checked size k arrivals (.ok v)
  | gaveUp {pre post : List (NodeResponse T)} {nr : NodeResponse T} {errors : List NodeError}
      (harrivals : arrivals = pre ++ nr :: post)
      (hwaits : ∃ s, (threshold checked size k).after pre = .ok s)
      (htransport : failsWith isTransport nr.result = true)
      (hnamed : (errors.map NodeError.nodeId).toFinset = lostTo isTransport (pre ++ [nr]))
      (hcard : size - k < (lostTo isTransport (pre ++ [nr])).card) :
      Left checked size k arrivals (.incomplete errors)

theorem left_of_exit? (hk : 1 ≤ k) (hkn : k ≤ size) {arrivals : List (NodeResponse T)} {out : Outcome T}
    (h : (threshold checked size k).exit? arrivals = some out) : Left checked size k arrivals out := by
  obtain ⟨pre, nr, post, s, harrivals, hafter, htake⟩ := ReceiveLoop.exists_take_of_exit? h
  cases (waits_of_after hk hkn hafter).passes checked hkn nr with
  | goesOn htake' _ => cases htake.symm.trans htake'
  | succeeds hres hnew hcard htake' =>
      cases htake.symm.trans htake'
      exact .succeeded harrivals hres hnew hcard
  | givesUp htransport hnamed hcard htake' =>
      cases htake.symm.trans htake'
      exact .gaveUp harrivals ⟨s, hafter⟩ htransport hnamed hcard

/-- The loop waits as long as it lacks successes and has nodes to spare. -/
theorem exists_after_iff (checked : Bool) (hk : 1 ≤ k) (hkn : k ≤ size) (arrivals : List (NodeResponse T)) :
    (∃ s, (threshold checked size k).after arrivals = .ok s) ↔
      (senders (oks arrivals)).card < k ∧ (lostTo isTransport arrivals).card ≤ size - k := by
  constructor
  · rintro ⟨s, hs⟩
    have hwaits := waits_of_after hk hkn hs
    exact ⟨hwaits.responded ▸ hwaits.wanting, hwaits.failed ▸ hwaits.spare⟩
  · rintro ⟨hfew, hspare⟩
    cases h : (threshold checked size k).after arrivals with
    | ok s => exact ⟨s, rfl⟩
    | error out =>
        -- both sets only grow, so the reason to leave is still there
        exfalso
        cases left_of_exit? hk hkn (ReceiveLoop.exit?_eq_some.mpr h) with
        | @succeeded pre post nr v harrivals hres hnew hcard =>
            have hlt := card_senders_oks_lt post hres hnew
            rw [← harrivals] at hlt
            omega
        | @gaveUp pre post nr errors harrivals _ _ _ hcard =>
            have hsub := lostTo_append_subset isTransport (pre ++ [nr]) post
            rw [List.append_assoc, List.singleton_append, ← harrivals] at hsub
            have := Finset.card_le_card hsub
            omega

end Loop

/-- The arrivals interleave the streams of the nodes. -/
structure Interleaves (nodes : List UInt32) (streams : UInt32 → List (Except Error T))
    (arrivals : List (NodeResponse T)) : Prop where
  known : ∀ r ∈ arrivals, r.nodeId ∈ nodes
  own : ∀ id ∈ nodes, streamOf id arrivals = streams id

/-- A permanent error is the last item of the stream. -/
def FinalErrors (stream : List (Except Error T)) : Prop :=
  ∀ pre e post, stream = pre ++ .error e :: post → permanent e = true → post = []

theorem FinalErrors.tail {r : Except Error T} {stream : List (Except Error T)}
    (h : FinalErrors (r :: stream)) : FinalErrors stream := by
  intro pre e post hstream
  exact h (r :: pre) e post (by rw [hstream, List.cons_append])

theorem finalErrors_of_dropLast {stream : List (Except Error T)}
    (h : ∀ r ∈ stream.dropLast, failsWith permanent r = false) : FinalErrors stream := by
  intro pre e post hstream he
  by_contra hpost
  have hmem : .error e ∈ stream.dropLast := by
    rw [hstream, List.dropLast_append_of_ne_nil (List.cons_ne_nil _ _),
      List.dropLast_cons_of_ne_nil hpost]
    simp
  exact absurd (h _ hmem) (by simp [failsWith, he])

/-- A node lost to a permanent error never succeeds. -/
theorem FinalErrors.not_any_isOk {p : Error → Bool} (hp : ∀ e, p e = true → permanent e = true)
    {stream : List (Except Error T)} (h : FinalErrors stream) (hfails : fails p stream = true) :
    stream.any Except.isOk = false := by
  induction stream with
  | nil => rfl
  | cons r stream ih =>
      cases r with
      | ok v => cases hfails
      | error e =>
          rw [fails, Bool.or_eq_true] at hfails
          rw [List.any_cons, isOk_error, Bool.false_or]
          rcases hfails with he | hrest
          · rw [h [] e stream rfl (hp e he)]
            rfl
          · exact ih h.tail hrest

/-- The nodes with a success in their stream. -/
def succeeding (nodes : List UInt32) (streams : UInt32 → List (Except Error T)) : List UInt32 :=
  nodes.filter fun id => (streams id).any Except.isOk

theorem card_succeeding {nodes : List UInt32} (hids : nodes.Nodup)
    (streams : UInt32 → List (Except Error T)) :
    (succeeding nodes streams).toFinset.card = (succeeding nodes streams).length :=
  List.toFinset_card_of_nodup (hids.filter _)

namespace Interleaves

variable {nodes : List UInt32} {streams : UInt32 → List (Except Error T)}
  {arrivals : List (NodeResponse T)}

theorem senders_subset (h : Interleaves nodes streams arrivals) :
    senders arrivals ⊆ nodes.toFinset := by
  intro id hid
  obtain ⟨r, hr, rfl⟩ := List.mem_map.mp (List.mem_toFinset.mp hid)
  exact List.mem_toFinset.mpr (h.known r hr)

theorem senders_oks (h : Interleaves nodes streams arrivals) :
    senders (oks arrivals) = (succeeding nodes streams).toFinset := by
  ext id
  rw [mem_senders_oks, List.mem_toFinset, succeeding, List.mem_filter]
  constructor
  · intro hok
    have hid : id ∈ nodes := List.mem_toFinset.mp (h.senders_subset (mem_senders.mpr fun hnil => by
      rw [hnil] at hok
      cases hok))
    exact ⟨hid, by rwa [← h.own id hid]⟩
  · rintro ⟨hid, hok⟩
    rwa [h.own id hid]

/-- With more than `n - k` nodes lost, fewer than `k` can succeed. -/
theorem length_succeeding_lt (h : Interleaves nodes streams arrivals) (hids : nodes.Nodup)
    (hfinal : ∀ id ∈ nodes, FinalErrors (streams id)) {k : Nat} {lost : Finset UInt32}
    (hlost : lost ⊆ lostTo isTransport arrivals) (hcard : nodes.length - k < lost.card) :
    (succeeding nodes streams).length < k := by
  have hsub : lost ⊆ nodes.toFinset :=
    hlost.trans ((Finset.filter_subset _ _).trans h.senders_subset)
  have hdisjoint : Disjoint lost (succeeding nodes streams).toFinset := by
    rw [Finset.disjoint_left]
    intro id hid hok
    obtain ⟨hnode, hany⟩ := List.mem_filter.mp (List.mem_toFinset.mp hok)
    have hfails := mem_lostTo.mp (hlost hid)
    rw [h.own id hnode] at hfails
    rw [(hfinal id hnode).not_any_isOk (fun e => permanent_of_isTransport) hfails] at hany
    cases hany
  have hunion : lost ∪ (succeeding nodes streams).toFinset ⊆ nodes.toFinset := by
    refine Finset.union_subset hsub fun id hid => ?_
    exact List.mem_toFinset.mpr (List.mem_of_mem_filter (List.mem_toFinset.mp hid))
  have hle := Finset.card_le_card hunion
  rw [Finset.card_union_of_disjoint hdisjoint, card_succeeding hids,
    List.toFinset_card_of_nodup hids] at hle
  omega

end Interleaves

section Verdict

variable (checked : Bool) {nodes : List UInt32} {streams : UInt32 → List (Except Error T)}
  {arrivals : List (NodeResponse T)} {k : Nat}

/-- An early `Incomplete` is final: however the streams go on, fewer than `k` nodes succeed. -/
theorem length_succeeding_lt_of_exit? (hids : nodes.Nodup) (hk : 1 ≤ k) (hkn : k ≤ nodes.length)
    {pre more : List (NodeResponse T)} {errors : List NodeError}
    (hexit : (threshold checked nodes.length k).exit? pre = some (.incomplete errors))
    (hfinal : ∀ id ∈ nodes, FinalErrors (streams id))
    (h : Interleaves nodes streams (pre ++ more)) : (succeeding nodes streams).length < k := by
  generalize hout : Outcome.incomplete errors = out at hexit
  cases left_of_exit? hk hkn hexit with
  | succeeded => cases hout
  | @gaveUp before after nr _ hpre _ _ _ hcard =>
      have hsub := lostTo_append_subset isTransport (before ++ [nr]) (after ++ more)
      rw [List.append_assoc, List.singleton_append, ← List.cons_append, ← List.append_assoc,
        ← hpre] at hsub
      exact h.length_succeeding_lt hids hfinal hsub hcard

/-- The loop returns `Ok` if and only if `k` nodes have a success in their stream. -/
theorem threshold_ok_iff (hids : nodes.Nodup) (hk : 1 ≤ k) (hkn : k ≤ nodes.length)
    (hfinal : ∀ id ∈ nodes, FinalErrors (streams id)) (h : Interleaves nodes streams arrivals) :
    (∃ v, (threshold checked nodes.length k).result arrivals = .ok v) ↔
      k ≤ (succeeding nodes streams).length := by
  have hwait := exists_after_iff checked hk hkn arrivals
  rw [h.senders_oks, card_succeeding hids] at hwait
  cases hafter : (threshold checked nodes.length k).after arrivals with
  | ok s =>
      have hfew := (hwait.mp ⟨s, hafter⟩).1
      rw [ReceiveLoop.result, hafter]
      exact iff_of_false (not_exists.mpr (Outcome.incomplete_ne_ok _)) (by omega)
  | error out =>
      rw [ReceiveLoop.result, hafter]
      have hexit := ReceiveLoop.exit?_eq_some.mpr hafter
      cases left_of_exit? hk hkn hexit with
      | @succeeded pre post nr v harrivals hres hnew hcard =>
          have hlt := card_senders_oks_lt post hres hnew
          rw [← harrivals, h.senders_oks, card_succeeding hids] at hlt
          exact iff_of_true ⟨v, rfl⟩ (by omega)
      | gaveUp =>
          have hlt := length_succeeding_lt_of_exit? checked hids hk hkn hexit hfinal
            (by rwa [List.append_nil arrivals])
          exact iff_of_false (not_exists.mpr (Outcome.incomplete_ne_ok _)) (by omega)

/-- An `Ok` is the first success of the `k`-th node to succeed. -/
theorem exists_first_of_ok (hk : 1 ≤ k) {size : Nat} (hkn : k ≤ size) {v : T}
    (h : (threshold checked size k).result arrivals = .ok v) :
    ∃ pre nr post, arrivals = pre ++ nr :: post ∧ nr.result = .ok v ∧ nr.nodeId ∉ senders (oks pre) ∧
      (senders (oks pre)).card + 1 = k := by
  rcases (threshold checked size k).result_cases arrivals with hexit | ⟨s, hs⟩
  · rw [h] at hexit
    generalize hout : Outcome.ok v = out at hexit
    cases left_of_exit? hk hkn hexit with
    | succeeded harrivals hres hnew hcard =>
        cases hout
        exact ⟨_, _, _, harrivals, hres, hnew, hcard⟩
    | gaveUp => cases hout
  · exact absurd (hs.symm.trans h) (Outcome.incomplete_ne_ok _ v)

/-- A result that is not `Ok` is `Incomplete`. -/
theorem exists_incomplete (hk : 1 ≤ k) {size : Nat} (hkn : k ≤ size)
    (h : ¬∃ v, (threshold checked size k).result arrivals = .ok v) :
    ∃ errors, (threshold checked size k).result arrivals = .incomplete errors := by
  rcases (threshold checked size k).result_cases arrivals with hexit | ⟨s, hs⟩
  · generalize (threshold checked size k).result arrivals = out at h hexit
    cases left_of_exit? hk hkn hexit with
    | succeeded => exact absurd ⟨_, rfl⟩ h
    | gaveUp => exact ⟨_, rfl⟩
  · exact ⟨_, hs⟩

/-- `threshold` on interleaved streams: the verdict depends on the streams alone, the value on the order
in which nodes first succeed, and an early `Incomplete` could not have become an `Ok`. -/
theorem threshold_interleaved (hids : nodes.Nodup) (hk : 1 ≤ k) (hkn : k ≤ nodes.length)
    (hfinal : ∀ id ∈ nodes, FinalErrors (streams id)) (h : Interleaves nodes streams arrivals) :
    ((∃ v, (threshold checked nodes.length k).result arrivals = .ok v) ↔
      k ≤ (succeeding nodes streams).length) ∧
    (∀ v, (threshold checked nodes.length k).result arrivals = .ok v →
      ∃ pre nr post, arrivals = pre ++ nr :: post ∧ nr.result = .ok v ∧
        nr.nodeId ∉ senders (oks pre) ∧ (senders (oks pre)).card + 1 = k) ∧
    ((succeeding nodes streams).length < k →
      ∃ errors, (threshold checked nodes.length k).result arrivals = .incomplete errors) ∧
    (∀ pre errors, pre <+: arrivals →
      (threshold checked nodes.length k).exit? pre = some (.incomplete errors) →
      ∀ (streams' : UInt32 → List (Except Error T)) (more : List (NodeResponse T)),
        (∀ id ∈ nodes, FinalErrors (streams' id)) → Interleaves nodes streams' (pre ++ more) →
        (succeeding nodes streams').length < k) := by
  have hiff := threshold_ok_iff checked hids hk hkn hfinal h
  refine ⟨hiff, fun v hv => exists_first_of_ok checked hk hkn hv, fun hfew => ?_, ?_⟩
  · exact exists_incomplete checked hk hkn fun hok => absurd (hiff.mp hok) (by omega)
  · intro pre errors _ hexit streams' more hfinal' h'
    exact length_succeeding_lt_of_exit? checked hids hk hkn hexit hfinal' h'

end Verdict

/-- Node 1 sends two updates, node 2 is lost, node 3 succeeds. -/
def twoOfThree : List (NodeResponse Nat) :=
  [⟨1, .ok 5⟩, ⟨2, .error (.transport ⟨.unavailable, ""⟩)⟩, ⟨1, .ok 6⟩, ⟨3, .ok 7⟩]

theorem threshold_interleaved_twoOfThree :
    ∃ v, (threshold true 3 2).result twoOfThree = .ok v := by
  have h : Interleaves [1, 2, 3] (fun id => streamOf id twoOfThree) twoOfThree :=
    ⟨by decide, fun _ _ => rfl⟩
  have hfinal : ∀ id ∈ [(1 : UInt32), 2, 3], FinalErrors (streamOf id twoOfThree) := by
    intro id hid
    refine finalErrors_of_dropLast ?_
    simp only [List.mem_cons, List.not_mem_nil, or_false] at hid
    rcases hid with rfl | rfl | rfl <;> decide
  have hids : [(1 : UInt32), 2, 3].Nodup := by decide
  exact (threshold_interleaved true hids (k := 2) (by decide) (by decide) hfinal h).1.mpr (by decide)

/-- The call ends with the arrival of `nr`, as `Incomplete` with all nodes named that are lost for good. -/
def GivesUpAt (checked : Bool) (size k : Nat) (pre : List (NodeResponse T)) (nr : NodeResponse T) : Prop :=
  (threshold checked size k).exit? pre = none ∧
    ∃ errors, (threshold checked size k).exit? (pre ++ [nr]) = some (.incomplete errors) ∧
      ∀ id ∈ lostTo permanent (pre ++ [nr]), id ∈ errors.map NodeError.nodeId

/-- At the arrival after which more than `size - k` nodes are lost for good, the loop gives up if and only
if it has not succeeded before and every lost node was lost to a transport error. -/
theorem givesUpAt_iff (checked : Bool) {size k : Nat} (hk : 1 ≤ k) (hkn : k ≤ size)
    {pre : List (NodeResponse T)} {nr : NodeResponse T}
    (hbefore : (lostTo permanent pre).card ≤ size - k)
    (hcross : size - k < (lostTo permanent (pre ++ [nr])).card) :
    GivesUpAt checked size k pre nr ↔
      (senders (oks pre)).card < k ∧
        lostTo permanent (pre ++ [nr]) ⊆ lostTo isTransport (pre ++ [nr]) := by
  have hwait := exists_after_iff (T := T) checked hk hkn
  have hspare : (lostTo isTransport pre).card ≤ size - k :=
    (Finset.card_le_card (lostTo_mono (fun e => permanent_of_isTransport) pre)).trans hbefore
  constructor
  · rintro ⟨hnone, errors, hexit, hnamed⟩
    have hpre : ∃ s, (threshold checked size k).after pre = .ok s := by
      cases hafter : (threshold checked size k).after pre with
      | ok s => exact ⟨s, rfl⟩
      | error out => cases hnone.symm.trans (ReceiveLoop.exit?_eq_some.mpr hafter)
    refine ⟨((hwait pre).mp hpre).1, fun id hid => ?_⟩
    generalize hout : Outcome.incomplete errors = out at hexit
    cases left_of_exit? hk hkn hexit with
    | succeeded => cases hout
    | @gaveUp before after x errors' harrivals _ _ hnamed' _ =>
        cases hout
        -- the named nodes were lost to transport errors, and the lost nodes are named
        have hlost := lostTo_append_subset isTransport (before ++ [x]) after
        rw [List.append_assoc, List.singleton_append, ← harrivals, ← hnamed'] at hlost
        exact hlost (List.mem_toFinset.mpr (hnamed id hid))
  · rintro ⟨hfew, hsub⟩
    obtain ⟨s, hs⟩ := (hwait pre).mpr ⟨hfew, hspare⟩
    refine ⟨by rw [ReceiveLoop.exit?, hs], ?_⟩
    have hlost := (hcross.trans_le (Finset.card_le_card hsub))
    have hexit (out : Outcome T) (htake : (threshold checked size k).take s nr = .error out) :
        (threshold checked size k).exit? (pre ++ [nr]) = some out := by
      rw [ReceiveLoop.exit?_eq_some, ReceiveLoop.after_append_singleton, hs]
      exact htake
    cases (waits_of_after hk hkn hs).passes checked hkn nr with
    | goesOn htake hwaits =>
        have := hwaits.spare
        rw [hwaits.failed] at this
        omega
    | succeeds hres =>
        -- a success loses no node
        rw [lostTo_append_singleton, if_neg (by simp [hres, failsWith])] at hlost
        omega
    | @givesUp errors _ hnamed _ htake =>
        refine ⟨errors, hexit _ htake, fun id hid => ?_⟩
        rw [← List.mem_toFinset, hnamed]
        exact hsub hid

theorem givesUpAt_transport :
    GivesUpAt true 2 2 ([⟨1, .ok 5⟩] : List (NodeResponse Nat))
      ⟨2, .error (.transport ⟨.unavailable, ""⟩)⟩ :=
  (givesUpAt_iff true (by decide) (by decide) (by decide) (by decide)).mpr ⟨by decide, by decide⟩

/-- One node of one, lost with its stream: the loop waits on. -/
theorem not_givesUpAt_streamDown :
    (lostTo permanent ([] : List (NodeResponse Nat))).card ≤ 1 - 1 ∧
      1 - 1 < (lostTo permanent ([⟨1, .error .streamDown⟩] : List (NodeResponse Nat))).card ∧
      ¬GivesUpAt true 1 1 ([] : List (NodeResponse Nat)) ⟨1, .error .streamDown⟩ := by
  refine ⟨by decide, by decide, ?_⟩
  rintro ⟨-, errors, hexit, -⟩
  cases hexit

/-! ### Thresholds beyond the configuration -/

section Beyond

variable {k : Nat}

/-- A pass of the loop computes `size - k` with `size < k`: it has been told of a node that it did not know. -/
def Underflows (checked : Bool) (size k : Nat) (arrivals : List (NodeResponse T)) : Prop :=
  size < k ∧ ∃ pre nr post s status, arrivals = pre ++ nr :: post ∧
    (threshold checked size k).after pre = .ok s ∧ nr.result = .error (.transport status) ∧
      nr.nodeId ∉ s.responded ∧ nr.nodeId ∉ s.failed

/-- No subtraction goes below zero, and a threshold beyond the configuration ends as `Incomplete`. -/
def SafeArithmetic (checked : Bool) (size k : Nat) (arrivals : List (NodeResponse T)) : Prop :=
  ¬Underflows checked size k arrivals ∧
    (size < k → ∃ errors, (threshold checked size k).result arrivals = .incomplete errors)

/-- While no node is lost to a transport error, the loop knows the nodes that have succeeded and nothing else. -/
theorem after_of_lostTo_eq_empty (checked : Bool) (size : Nat) {nodes : List UInt32} (hbeyond : nodes.length < k)
    {arrivals : List (NodeResponse T)} (hknown : ∀ r ∈ arrivals, r.nodeId ∈ nodes)
    (hlost : lostTo isTransport arrivals = ∅) :
    (threshold checked size k).after arrivals = .ok ⟨senders (oks arrivals), ∅, []⟩ := by
  induction arrivals using List.reverseRecOn with
  | nil => rfl
  | append_singleton arrivals nr ih =>
      have hbefore : lostTo isTransport arrivals = ∅ :=
        Finset.subset_empty.mp (hlost ▸ lostTo_append_subset isTransport arrivals [nr])
      rw [ReceiveLoop.after_append_singleton, ih (fun r hr => hknown r (List.mem_append_left _ hr)) hbefore]
      show thresholdTake checked size k _ nr = _
      cases hres : nr.result with
      | ok v =>
          have hfew : (insert nr.nodeId (senders (oks arrivals))).card < k := by
            have hsub : insert nr.nodeId (senders (oks arrivals)) ⊆ nodes.toFinset := by
              rw [← senders_oks_append_ok arrivals hres]
              intro id hid
              obtain ⟨r, hr, rfl⟩ := List.mem_map.mp (List.mem_toFinset.mp hid)
              exact List.mem_toFinset.mpr (hknown r (List.mem_of_mem_filter hr))
            have hcard := (Finset.card_le_card hsub).trans (List.toFinset_card_le nodes)
            omega
          simp only [thresholdTake, hres]
          rw [if_neg fun h => Nat.not_le.mpr hfew h.2, senders_oks_append_ok arrivals hres]
      | error e =>
          rw [senders_oks_append_error arrivals hres]
          cases e with
          | transport status =>
              -- the node has succeeded before, or it would be lost now
              have hold : nr.nodeId ∈ senders (oks arrivals) := by
                by_contra hnew
                rw [lostTo_append_singleton, if_pos ⟨by rw [hres]; rfl, hnew⟩] at hlost
                exact Finset.insert_ne_empty _ _ hlost
              simp only [thresholdTake, hres]
              rw [if_neg fun h => h.1 hold]
          | _ => simp only [thresholdTake, hres]

/-- The first arrival by which a node is lost. -/
theorem exists_first_lost {arrivals : List (NodeResponse T)} (hlost : lostTo isTransport arrivals ≠ ∅) :
    ∃ pre nr post status, arrivals = pre ++ nr :: post ∧ lostTo isTransport pre = ∅ ∧
      nr.result = .error (.transport status) ∧ nr.nodeId ∉ senders (oks pre) := by
  induction arrivals using List.reverseRecOn with
  | nil => exact absurd rfl hlost
  | append_singleton arrivals nr ih =>
      by_cases hbefore : lostTo isTransport arrivals = ∅
      · rw [lostTo_append_singleton] at hlost
        split at hlost
        · rename_i hnew
          obtain ⟨htransport, hnew⟩ := hnew
          cases hres : nr.result with
          | ok v =>
              rw [hres] at htransport
              cases htransport
          | error e =>
              rw [hres] at htransport
              cases e with
              | transport status => exact ⟨arrivals, nr, [], status, rfl, hbefore, hres, hnew⟩
              | _ => cases htransport
        · exact absurd hbefore hlost
      · obtain ⟨pre, x, post, status, rfl, hrest⟩ := ih hbefore
        exact ⟨pre, x, post ++ [nr], status, by simp, hrest⟩

/-- The arithmetic of `threshold` is safe exactly if the threshold can be met, or no node is lost to a
transport error before any success of it. The other two handles need no such condition. -/
theorem safeArithmetic_iff (checked : Bool) (nodes : List UInt32) (k : Nat) {arrivals : List (NodeResponse T)}
    (hknown : ∀ r ∈ arrivals, r.nodeId ∈ nodes) :
    (SafeArithmetic checked nodes.length k arrivals ↔ k ≤ nodes.length ∨ lostTo isTransport arrivals = ∅) ∧
      ∀ replies : List (OrderedNodeResponse T), nodes.length < k →
        (replies.map OrderedNodeResponse.position).Nodup → (∀ r ∈ replies, r.position < nodes.length) →
        (∃ errors, (Responses.threshold k).result (OrderedResponses.plain replies) = .incomplete errors) ∧
          ∃ errors, (OrderedResponses.threshold nodes.length k).result replies = .incomplete errors := by
  refine ⟨⟨fun ⟨hsafe, _⟩ => ?_, ?_⟩, fun replies hbeyond hnodup hlt => ?_⟩
  · refine or_iff_not_imp_left.mpr fun hbeyond => ?_
    by_contra hlost
    obtain ⟨pre, nr, post, status, rfl, hpre, hres, hnew⟩ := exists_first_lost hlost
    have hafter := after_of_lostTo_eq_empty checked nodes.length (not_le.mp hbeyond)
      (fun r hr => hknown r (List.mem_append_left _ hr)) hpre
    exact hsafe ⟨not_le.mp hbeyond, pre, nr, post, _, status, rfl, hafter, hres, hnew, Finset.notMem_empty _⟩
  · rintro (hle | hlost)
    · exact ⟨fun h => absurd h.1 (not_lt.mpr hle), fun h => absurd h (not_lt.mpr hle)⟩
    · refine ⟨?_, fun hbeyond => ⟨[], ?_⟩⟩
      · rintro ⟨hbeyond, pre, nr, post, s, status, rfl, hafter, hres, hnew, -⟩
        have hpre : lostTo isTransport pre = ∅ :=
          Finset.subset_empty.mp (hlost ▸ lostTo_append_subset isTransport pre (nr :: post))
        have hknownPre : ∀ r ∈ pre, r.nodeId ∈ nodes := fun r hr => hknown r (List.mem_append_left _ hr)
        rw [after_of_lostTo_eq_empty checked nodes.length hbeyond hknownPre hpre] at hafter
        cases hafter
        -- the node would be lost by this arrival
        have hmem := lostTo_append_subset isTransport (pre ++ [nr]) post
        rw [List.append_assoc, List.singleton_append, hlost, lostTo_append_singleton,
          if_pos ⟨by rw [hres]; rfl, hnew⟩] at hmem
        exact Finset.insert_ne_empty _ _ (Finset.subset_empty.mp hmem)
      · rw [ReceiveLoop.result, after_of_lostTo_eq_empty checked nodes.length hbeyond hknown hlost]
        rfl
  · have hfew : (OrderedResponses.oks replies).length < max k 1 := by
      have hsub : replies.map OrderedNodeResponse.position ⊆ List.range nodes.length := by
        intro p hp
        obtain ⟨r, hr, rfl⟩ := List.mem_map.mp hp
        exact List.mem_range.mpr (hlt r hr)
      have hlength := (hnodup.subperm hsub).length_le
      rw [List.length_map, List.length_range] at hlength
      have hfilter : (OrderedResponses.oks replies).length ≤ replies.length := List.length_filter_le _ _
      omega
    refine ⟨⟨Responses.failures (OrderedResponses.plain replies), ?_⟩,
      Responses.failures (OrderedResponses.plain replies), ?_⟩
    · rw [Responses.result_threshold, OrderedResponses.length_oks_eq, if_pos hfew]
    · rw [OrderedResponses.result_threshold k hlt, if_pos hfew]

end Beyond

/-- Both of two nodes have succeeded, one of them is then lost. -/
theorem safeArithmetic_lateLoss :
    SafeArithmetic true 2 3 ([⟨1, .ok 5⟩, ⟨2, .ok 6⟩, ⟨1, .error (.transport ⟨.unavailable, ""⟩)⟩] :
      List (NodeResponse Nat)) :=
  (safeArithmetic_iff true [1, 2] 3 (by decide)).1.mpr (Or.inr (by decide))

/-- `threshold(2)` on one node, which is lost: with overflow checks the loop panics. -/
theorem not_safeArithmetic_lostNode :
    ¬SafeArithmetic true 1 2 ([⟨1, .error (.transport ⟨.unavailable, ""⟩)⟩] : List (NodeResponse Nat)) ∧
      (threshold true 1 2).result ([⟨1, .error (.transport ⟨.unavailable, ""⟩)⟩] : List (NodeResponse Nat)) =
        .panicked := by
  refine ⟨fun h => h.1 ?_, rfl⟩
  exact ⟨by decide, [], _, [], _, _, rfl, rfl, rfl, by decide, by decide⟩

end Quorums.Correctable
