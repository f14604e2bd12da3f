import Quorums.EpaxosBacking

/-! What the replicas see of the instances, in the order in which they see it. A replica sees an instance as
its leader or by a PreAccept, and gives it dependencies from its conflict map. On the normal path these cover
every batch with a key in common that the replica saw before, and name only such batches. -/

namespace Quorums.Epaxos

open ReplicaInner

/-- A replica sees an instance, and gives it dependencies. -/
structure Visit where
  site : Nat
  key : Nat × Int
  cmds : List Command
  deps : List Int
  deriving DecidableEq, Repr

def Event.visit : Event → Option Visit
  | .started key v => some ⟨key.1, key, v.cmds, v.deps⟩
  | .answered j req reply => some ⟨j, (asUsize req.replica, req.slot), req.cmds, reply.deps⟩
  | .decided .. => none

theorem visit_answered (j : Nat) (key : Nat × Int) (v : Value) (reply : PreAcceptReply) :
    (Event.answered j (preAcceptOf key v) reply).visit = some ⟨j, key, v.cmds, reply.deps⟩ := by
  simp [Event.visit, preAcceptOf]

/-- The batch has a command on `k`, and the conflict maps know of it: they leave the empty key out. -/
def Touches (cmds : List Command) (k : String) : Prop := k ≠ "" ∧ k ∈ cmds.map Command.key

/-- The batches have a key in common. -/
def Overlap (xs ys : List Command) : Prop := ∃ k, Touches xs k ∧ Touches ys k

theorem Overlap.symm {xs ys : List Command} (h : Overlap xs ys) : Overlap ys xs := by
  obtain ⟨k, hx, hy⟩ := h
  exact ⟨k, hy, hx⟩

/-- The later visit depends on the instance of the earlier one, or on a later slot of its row. -/
def Visit.Covers (u v : Visit) : Prop :=
  u.site = v.site → Overlap u.cmds v.cmds → (u.key.1 ≠ v.key.1 ∨ u.key.2 < v.key.2) →
    ∃ d, v.deps[u.key.1]? = some d ∧ u.key.2 ≤ d

/-- What is known of two events in the order of a run. -/
structure Before (e e' : Event) : Prop where
  covers : ∀ u v, e.visit = some u → e'.visit = some v → u.Covers v
  slots : ∀ key key' x x', e = .started key x → e' = .started key' x' → key.1 = key'.1 → key.2 < key'.2

/-- The conflict maps hold what was seen, and the dependencies were taken from them. -/
structure Marks (seen : List Event) (s : State) : Prop where
  covered : ∀ (q : Nat) (rep : Replica), s.replicas[q]? = some rep → ∀ e ∈ seen, ∀ u, e.visit = some u → u.site = q →
    ∀ k, Touches u.cmds k → ∃ entry, rep.inner.conflicts.lookup k = some entry ∧
      ∃ d, entry.deps[u.key.1]? = some d ∧ u.key.2 ≤ d
  known : ∀ (q : Nat) (rep : Replica), s.replicas[q]? = some rep → ∀ k entry,
    rep.inner.conflicts.lookup k = some entry → ∀ (a : Nat) (d : Int), entry.deps[a]? = some d → 0 ≤ d →
      ∃ e ∈ seen, ∃ u, e.visit = some u ∧ u.key = (a, d) ∧ Touches u.cmds k
  ordered : seen.Pairwise Before
  justified : ∀ e ∈ seen, ∀ u, e.visit = some u → ∀ (a : Nat) (d : Int), u.deps[a]? = some d → 0 ≤ d →
    ∃ e' ∈ seen, ∃ w, e'.visit = some w ∧ w.key = (a, d) ∧ Overlap w.cmds u.cmds

/-- An instance is seen by a replica, which takes its dependencies from `base` and from its conflict map. -/
structure Visited (n : Nat) (s t : State) (e : Event) (u : Visit) (base : List Int) (rep rep' : Replica) (seq : Int) :
    Prop where
  visit : e.visit = some u
  before : s.replicas[u.site]? = some rep
  after : t.replicas[u.site]? = some rep'
  others : ∀ q, q ≠ u.site → t.replicas[q]? = s.replicas[q]?
  row_lt : u.key.1 < n
  length_eq : base.length = n
  touched : Touched n u.key.1 u.key.2 seq u.cmds rep.inner.conflicts rep'.inner.conflicts
  deps_eq : u.deps = (joinedDeps rep.inner.conflicts u.cmds base).modify u.key.1 (min · (u.key.2 - 1))

section Marks

variable {n : Nat} {seen : List Event} {s t : State} {e : Event} {u : Visit} {base : List Int} {rep rep' : Replica}
  {seq : Int}

/-- Nothing is seen, and the conflict maps stay. -/
theorem Marks.quiet (h : Marks seen s) {new : List Event} (hnone : ∀ e ∈ new, e.visit = none)
    (hsame : ∀ (q : Nat) (rep' : Replica), t.replicas[q]? = some rep' →
      ∃ rep, s.replicas[q]? = some rep ∧ rep'.inner.conflicts = rep.inner.conflicts) : Marks (seen ++ new) t := by
  have hold {e : Event} {u : Visit} (he : e ∈ seen ++ new) (hu : e.visit = some u) : e ∈ seen := by
    refine (List.mem_append.mp he).resolve_right fun hnew => ?_
    rw [hnone e hnew] at hu
    cases hu
  refine ⟨fun q rep' hrep' e he u hu hsite k hk => ?_, fun q rep' hrep' k entry hentry a d hd hnonneg => ?_, ?_,
    fun e he u hu a d hd hnonneg => ?_⟩
  · obtain ⟨rep, hrep, heq⟩ := hsame q rep' hrep'
    rw [heq]
    exact h.covered q rep hrep e (hold he hu) u hu hsite k hk
  · obtain ⟨rep, hrep, heq⟩ := hsame q rep' hrep'
    rw [heq] at hentry
    obtain ⟨e, he, hu⟩ := h.known q rep hrep k entry hentry a d hd hnonneg
    exact ⟨e, List.mem_append_left _ he, hu⟩
  · have hlast {e e' : Event} (he' : e' ∈ new) : Before e e' := by
      have hnew := hnone e' he'
      refine ⟨fun u v _ hv => ?_, fun key key' x x' _ heq => ?_⟩
      · rw [hnew] at hv
        cases hv
      · rw [heq] at hnew
        cases hnew
    refine List.pairwise_append.mpr ⟨h.ordered, ?_, fun e _ e' he' => hlast he'⟩
    exact List.pairwise_of_forall_mem_list fun e _ e' he' => hlast he'
  · obtain ⟨e', he', hw⟩ := h.justified e (hold he hu) u hu a d hd hnonneg
    exact ⟨e', List.mem_append_left _ he', hw⟩

theorem getElem?_touch (entry : ConflictEntry) (r : Nat) (slot seq : Int) (a : Nat) :
    (entry.touch r slot seq).deps[a]? = (entry.deps[a]?).map fun d => if r = a then max d slot else d := by
  rw [ConflictEntry.touch, List.getElem?_modify, Option.map_eq_map]

/-- A dependency of the visit: one of the base or of the conflict map, unless it was capped. -/
theorem Visited.deps_cases (h : Visited n s t e u base rep rep' seq) {a : Nat} {d : Int}
    (hd : u.deps[a]? = some d) :
    ∃ x, d = (if u.key.1 = a then min x (u.key.2 - 1) else x) ∧ (base[a]? = some x ∨
      ∃ k entry, Touches u.cmds k ∧ rep.inner.conflicts.lookup k = some entry ∧ entry.deps[a]? = some x) := by
  rw [h.deps_eq, List.getElem?_modify] at hd
  obtain ⟨x, hx, rfl⟩ := Option.map_eq_some_iff.mp hd
  refine ⟨x, rfl, ?_⟩
  rcases joinedDeps_cases hx with hbase | ⟨cmd, hcmd, hkey, entry, hentry, hx⟩
  · exact Or.inl hbase
  · exact Or.inr ⟨cmd.key, entry, ⟨hkey, List.mem_map_of_mem hcmd⟩, hentry, hx⟩

/-- The visit covers what the replica has seen. -/
theorem Visited.covers (h : Visited n s t e u base rep rep' seq) (hmarks : Marks seen s)
    (hlength : ∀ k entry, rep.inner.conflicts.lookup k = some entry → entry.deps.length = n) {e₀ : Event}
    (he₀ : e₀ ∈ seen) {u₀ : Visit} (hu₀ : e₀.visit = some u₀) : u₀.Covers u := by
  rintro hsite ⟨k, hk₀, hk⟩ hrow
  obtain ⟨entry, hentry, d, hd, hle⟩ := hmarks.covered u.site rep h.before e₀ he₀ u₀ hu₀ hsite k hk₀
  obtain ⟨cmd, hcmd, rfl⟩ := List.mem_map.mp hk.2
  obtain ⟨x, hx, hdx⟩ := known_le_joinedDeps hlength h.length_eq hcmd hk.1 hentry hd
  refine ⟨if u.key.1 = u₀.key.1 then min x (u.key.2 - 1) else x, ?_, ?_⟩
  · rw [h.deps_eq, List.getElem?_modify, hx]
    rfl
  · split
    · rename_i hsame
      have hlt := hrow.resolve_left fun hne => hne hsame.symm
      omega
    · omega

/-- The conflict map of the replica holds what it had seen, and the visit. -/
theorem Visited.covered (h : Visited n s t e u base rep rep' seq) (hmarks : Marks seen s)
    (hlength : ∀ k entry, rep.inner.conflicts.lookup k = some entry → entry.deps.length = n) {e₀ : Event}
    (he₀ : e₀ ∈ seen ++ [e]) {u₀ : Visit} (hu₀ : e₀.visit = some u₀) (hsite : u₀.site = u.site) {k : String}
    (hk : Touches u₀.cmds k) : ∃ entry, rep'.inner.conflicts.lookup k = some entry ∧
      ∃ d, entry.deps[u₀.key.1]? = some d ∧ u₀.key.2 ≤ d := by
  rw [h.touched]
  rcases List.mem_append.mp he₀ with he₀ | he₀
  · obtain ⟨entry, hentry, d, hd, hle⟩ := hmarks.covered u.site rep h.before e₀ he₀ u₀ hu₀ hsite k hk
    split
    · refine ⟨_, rfl, if u.key.1 = u₀.key.1 then max d u.key.2 else d, ?_, ?_⟩
      · rw [hentry, Option.getD_some, getElem?_touch, hd, Option.map_some]
      · split <;> omega
    · exact ⟨entry, hentry, d, hd, hle⟩
  · rw [List.mem_singleton.mp he₀, h.visit] at hu₀
    cases hu₀
    have hentryLength : ((rep.inner.conflicts.lookup k).getD (ConflictEntry.new n)).deps.length = n := by
      cases hentry : rep.inner.conflicts.lookup k with
      | none => exact List.length_replicate
      | some entry => exact hlength k entry hentry
    have hlt : u.key.1 < ((rep.inner.conflicts.lookup k).getD (ConflictEntry.new n)).deps.length := by
      rw [hentryLength]
      exact h.row_lt
    have hget := getElem?_touch ((rep.inner.conflicts.lookup k).getD (ConflictEntry.new n)) u.key.1 u.key.2 seq u.key.1
    rw [List.getElem?_eq_getElem hlt, Option.map_some, if_pos rfl] at hget
    rw [if_pos ⟨hk.1, hk.2⟩]
    exact ⟨_, rfl, _, hget, le_max_right _ _⟩

/-- An entry of the conflict map of the replica was there, or is the slot of the visit. -/
theorem Visited.known (h : Visited n s t e u base rep rep' seq) (hmarks : Marks seen s) {k : String}
    {entry : ConflictEntry} (hentry : rep'.inner.conflicts.lookup k = some entry) {a : Nat} {d : Int}
    (hd : entry.deps[a]? = some d) (hnonneg : 0 ≤ d) :
    ∃ e₀ ∈ seen ++ [e], ∃ u, e₀.visit = some u ∧ u.key = (a, d) ∧ Touches u.cmds k := by
  have hold {old : ConflictEntry} (hlookup : rep.inner.conflicts.lookup k = some old) (hold : old.deps[a]? = some d) :
      ∃ e₀ ∈ seen ++ [e], ∃ u, e₀.visit = some u ∧ u.key = (a, d) ∧ Touches u.cmds k := by
    obtain ⟨e₀, he₀, hu₀⟩ := hmarks.known u.site rep h.before k old hlookup a d hold hnonneg
    exact ⟨e₀, List.mem_append_left _ he₀, hu₀⟩
  rw [h.touched] at hentry
  split at hentry
  · rename_i hk
    cases hentry
    rw [getElem?_touch] at hd
    obtain ⟨x, hx, heq⟩ := Option.map_eq_some_iff.mp hd
    by_cases hnew : u.key.1 = a ∧ x < u.key.2
    · rw [if_pos hnew.1, max_eq_right (le_of_lt hnew.2)] at heq
      refine ⟨e, List.mem_append_right _ (List.mem_singleton.mpr rfl), u, h.visit, ?_, hk⟩
      rw [← hnew.1, ← heq]
    · have hxd : x = d := by
        split at heq
        · rename_i hrow
          rw [← heq, max_eq_left (by omega)]
        · exact heq
      subst hxd
      cases hlookup : rep.inner.conflicts.lookup k with
      | none =>
          rw [hlookup, Option.getD_none] at hx
          rw [(List.mem_replicate.mp (List.mem_of_getElem? hx)).2] at hnonneg
          omega
      | some old =>
          rw [hlookup, Option.getD_some] at hx
          exact hold hlookup hx
  · exact hold hentry hd

theorem Marks.visited (hmarks : Marks seen s) (h : Visited n s t e u base rep rep' seq)
    (hlength : ∀ k entry, rep.inner.conflicts.lookup k = some entry → entry.deps.length = n)
    (hslots : ∀ key key' x x', Event.started key x ∈ seen → e = .started key' x' → key.1 = key'.1 → key.2 < key'.2)
    (hjustified : ∀ (a : Nat) (d : Int), u.deps[a]? = some d → 0 ≤ d →
      ∃ e' ∈ seen, ∃ w, e'.visit = some w ∧ w.key = (a, d) ∧ Overlap w.cmds u.cmds) : Marks (seen ++ [e]) t := by
  have hlast {e₀ : Event} {u₀ : Visit} (he₀ : e₀ ∈ seen ++ [e]) (hu₀ : e₀.visit = some u₀) : e₀ ∈ seen ∨ u₀ = u := by
    refine (List.mem_append.mp he₀).imp_right fun he₀ => ?_
    rw [List.mem_singleton.mp he₀] at hu₀
    exact (Option.some.inj (h.visit.symm.trans hu₀)).symm
  refine ⟨fun q r hr e₀ he₀ u₀ hu₀ hsite k hk => ?_, fun q r hr k entry hentry a d hd hnonneg => ?_, ?_,
    fun e₀ he₀ u₀ hu₀ a d hd hnonneg => ?_⟩
  · by_cases hq : q = u.site
    · subst hq
      cases hr.symm.trans h.after
      exact h.covered hmarks hlength he₀ hu₀ hsite hk
    · rw [h.others q hq] at hr
      rcases hlast he₀ hu₀ with he₀ | rfl
      · exact hmarks.covered q r hr e₀ he₀ u₀ hu₀ hsite k hk
      · exact absurd hsite.symm hq
  · by_cases hq : q = u.site
    · subst hq
      cases hr.symm.trans h.after
      exact h.known hmarks hentry hd hnonneg
    · rw [h.others q hq] at hr
      obtain ⟨e₀, he₀, hu₀⟩ := hmarks.known q r hr k entry hentry a d hd hnonneg
      exact ⟨e₀, List.mem_append_left _ he₀, hu₀⟩
  · refine List.pairwise_append.mpr ⟨hmarks.ordered, List.pairwise_singleton _ _, fun e₀ he₀ e' he' => ?_⟩
    rw [List.mem_singleton.mp he']
    refine ⟨fun u₀ v hu₀ hv => ?_, fun key key' x x' heq heq' hrow => ?_⟩
    · cases h.visit.symm.trans hv
      exact h.covers hmarks hlength he₀ hu₀
    · exact hslots key key' x x' (heq ▸ he₀) heq' hrow
  · have hold : ∃ e' ∈ seen, ∃ w, e'.visit = some w ∧ w.key = (a, d) ∧ Overlap w.cmds u₀.cmds := by
      rcases hlast he₀ hu₀ with he₀ | rfl
      · exact hmarks.justified e₀ he₀ u₀ hu₀ a d hd hnonneg
      · exact hjustified a d hd hnonneg
    obtain ⟨e', he', hw⟩ := hold
    exact ⟨e', List.mem_append_left _ he', hw⟩

end Marks

/-! ### What a step shows -/

/-- What a step does to the conflict maps, with what it shows. -/
inductive Effect (n : Nat) (s t : State) : Act → List Event → Prop where
  | quiet {a : Act} {new : List Event} (hnone : ∀ e ∈ new, e.visit = none)
      (hsame : ∀ (q : Nat) (rep' : Replica), t.replicas[q]? = some rep' →
        ∃ rep, s.replicas[q]? = some rep ∧ rep'.inner.conflicts = rep.inner.conflicts) : Effect n s t a new
  | started {i : Nat} {cmds : List Command} {peers : List Nat} {thrifty : Bool} {rep rep' : Replica} {seq : Int}
      {deps : List Int}
      (hvisited : Visited n s t (.started (i, rep.inner.curSlot) ⟨cmds, seq, deps⟩)
        ⟨i, (i, rep.inner.curSlot), cmds, deps⟩ (List.replicate n (-1)) rep rep' seq) :
      Effect n s t (.propose i cmds peers thrifty) [.started (i, rep.inner.curSlot) ⟨cmds, seq, deps⟩]
  | answered {i j c : Nat} {p : Proposal} {rest : List (Nat × Request)} {reply : PreAcceptReply} {rep rep' : Replica}
      {seq : Int} (hqueue : s.requests (i, j) = (c, .preAccept p) :: rest)
      (hvisited : Visited n s t (.answered j p reply) ⟨j, (asUsize p.replica, p.slot), p.cmds, reply.deps⟩ p.deps
        rep rep' seq) :
      Effect n s t (.deliver i j) [.answered j p reply]

section Effect

variable {rt : Runtime} {n : Nat} {s t : State} {a : Act}

theorem conflicts_of_frame {i : Nat} {rep new : Replica} (hrep : s.replicas[i]? = some rep)
    (hframe : Frame rep.inner new.inner) {q : Nat} {rep' : Replica}
    (hrep' : (s.replicas.set i new)[q]? = some rep') :
    ∃ rep, s.replicas[q]? = some rep ∧ rep'.inner.conflicts = rep.inner.conflicts := by
  rcases ListUpdate.getElem?_set_cases hrep' with ⟨rfl, rfl⟩ | ⟨-, hold⟩
  · exact ⟨rep, hrep, hframe.conflicts_eq⟩
  · exact ⟨rep', hold, rfl⟩

theorem effect_deliver (h : s.Meets (wellFormedLocal False n)) {i j c : Nat} {req : Request}
    {rest : List (Nat × Request)} {rep : Replica} (hqueue : s.requests (i, j) = (c, req) :: rest)
    (hrep : s.running? j = some rep) (hreplicas : t.replicas = s.replicas.set j (rep.serve rt req).1) :
    Effect n s t (.deliver i j) (observe rt s (.deliver i j)) := by
  have hrep' := State.running?_eq_some hrep
  have hsound : Sound n j rep.inner := h.replicas j rep hrep'
  obtain ⟨call, -, -, hreq⟩ := h.requests i j (c, req) (by rw [hqueue]; exact List.mem_cons_self)
  have hquiet (hnone : observe rt s (.deliver i j) = []) (hframe : Frame rep.inner (rep.serve rt req).1.inner) :
      Effect n s t (.deliver i j) (observe rt s (.deliver i j)) := by
    rw [hnone]
    refine .quiet (fun e he => absurd he List.not_mem_nil) fun q new hnew => ?_
    rw [hreplicas] at hnew
    exact conflicts_of_frame hrep' hframe hnew
  cases hlock : rep.poisoned with
  | true =>
      refine hquiet ?_ ?_
      · cases req <;> simp [observe, hqueue, hrep, hlock]
      · rw [Replica.serve, if_pos hlock]
        exact Frame.refl _
  | false =>
      have hserve : rep.serve rt req = _ := serve_eq_of_lock hlock req
      cases hhandle : handle rt rep.inner req with
      | none =>
          rw [hhandle] at hserve
          refine hquiet ?_ ?_
          · cases req with
            | preAccept p => simp [observe, hqueue, hrep, hlock, Option.map_eq_none_iff.mp hhandle]
            | _ => simp [observe, hqueue]
          · rw [hserve]
            exact frame_remains rep.inner req
      | some result =>
          obtain ⟨inner', out⟩ := result
          rw [hhandle] at hserve
          by_cases hpre : ∃ p, req = .preAccept p
          · obtain ⟨p, rfl⟩ := hpre
            obtain ⟨⟨served, reply⟩, hinner, heq⟩ := Option.map_eq_some_iff.mp hhandle
            cases heq
            have hkeyEq : (asUsize p.replica, p.slot) = call.header.key := hreq.key_eq
            have hkey : Valid n (asUsize p.replica, p.slot) := by
              rw [hkeyEq]
              exact hreq.valid p rfl
            have hfor : DepsFor n (asUsize p.replica, p.slot) p.deps := by
              rw [hkeyEq] at hkey ⊢
              exact hreq.deps hkey _ rfl
            have hobserve : observe rt s (.deliver i j) = [.answered j p reply] := by
              simp [observe, hqueue, hrep, hlock, hinner]
            rw [hobserve]
            cases preAccepts_of_handle hsound.shaped (hreq.i32 p rfl) hinner with
            | mk hgrown hjoined htouched hreply =>
                have hafter := ListUpdate.getElem?_set_of_some hrep' (y := (rep.serve rt (.preAccept p)).1)
                rw [← hreplicas, hserve] at hafter
                rw [hsound.n_eq] at htouched
                refine .answered hqueue ⟨rfl, hrep', hafter, fun q hq => ?_, hkey.1, hfor.length_eq, htouched, ?_⟩
                · rw [hreplicas, List.getElem?_set_ne (Ne.symm hq)]
                · rw [hreply, hjoined, resize_eq_self (hfor.length_eq.trans hsound.n_eq.symm)]
          · have hnot : ∀ p, req ≠ .preAccept p := fun p hp => hpre ⟨p, hp⟩
            refine hquiet ?_ ?_
            · cases req with
              | preAccept p => exact absurd rfl (hnot p)
              | _ => simp [observe, hqueue]
            · rw [hserve]
              exact frame_handle hnot hhandle

theorem effect_of_step (h : s.Meets (wellFormedLocal False n)) (hbegins : Begins (Targets False n) s a)
    (hstep : step rt s a = some t) : Effect n s t a (observe rt s a) := by
  have hrest (hnone : ∀ e ∈ observe rt s a, e.visit = none) (hsame : t.replicas = s.replicas) :
      Effect n s t a (observe rt s a) :=
    .quiet hnone fun q rep' hrep' => ⟨rep', hsame ▸ hrep', rfl⟩
  have hset (hnone : ∀ e ∈ observe rt s a, e.visit = none) {i : Nat} {rep new : Replica}
      (hrep : s.replicas[i]? = some rep) (hreplicas : t.replicas = s.replicas.set i new)
      (hframe : Frame rep.inner new.inner) : Effect n s t a (observe rt s a) := by
    refine .quiet hnone fun q rep' hrep' => ?_
    rw [hreplicas] at hrep'
    exact conflicts_of_frame hrep hframe hrep'
  have hnil (hobserve : observe rt s a = []) : ∀ e ∈ observe rt s a, e.visit = none := by
    rw [hobserve]
    exact fun e he => absurd he List.not_mem_nil
  cases moves_of_step hstep with
  | @propose i cmds peers thrifty rep inner slot seq deps hrep hlock hstart =>
      have hrep' := State.running?_eq_some hrep
      have hsound : Sound n i rep.inner := h.replicas i rep hrep'
      have hnonneg : 0 ≤ rep.inner.curSlot := hbegins rep hrep'
      have hid : rep.inner.id < rep.inner.n := by
        rw [hsound.id_eq, hsound.n_eq]
        exact hsound.lt
      have hobserve : observe rt s (.propose i cmds peers thrifty) = [.started (i, slot) ⟨cmds, seq, deps⟩] := by
        simp [observe, hrep, hlock, hstart, hsound.id_eq]
      rw [hobserve]
      cases starts_of_startProposal hsound.shaped hid hnonneg hsound.curSlot_lt hstart with
      | mk hnext hdeps htouched =>
          rw [hsound.id_eq, hsound.n_eq] at hdeps htouched
          refine .started ⟨rfl, hrep', ListUpdate.getElem?_set_of_some hrep', fun q hq => ?_, hsound.lt,
            List.length_replicate, htouched, hdeps⟩
          exact List.getElem?_set_ne (Ne.symm hq)
  | proposePanic hrep hlock hnone =>
      refine hset (hnil ?_) (State.running?_eq_some hrep) rfl ⟨rfl, rfl, rfl, rfl⟩
      simp [observe, hrep, hlock, hnone]
  | deliver hqueue hrep => exact effect_deliver h hqueue hrep rfl
  | receive hqueue hcall =>
      refine hrest ?_ rfl
      simp only [observe, hqueue]
      split
      · intro e he
        rw [Option.mem_toList, Option.bind_eq_some_iff] at he
        obtain ⟨call, -, he⟩ := he
        rw [Coordinator.decision] at he
        split at he
        · obtain ⟨d, -, rfl⟩ := Option.map_eq_some_iff.mp he
          rfl
        · cases he
      · exact fun e he => absurd he List.not_mem_nil
  | commit hcall hphase hrep hlock hcommit =>
      exact hset (hnil rfl) (State.running?_eq_some hrep) rfl (frame_commitLocal hcommit)
  | @commitPanic c call v fastPath rep hcall hphase hrep =>
      exact hset (hnil rfl) (State.running?_eq_some hrep) rfl (frame_commitRemains rep.inner call.replica call.slot v)
  | stop hrep => exact hset (hnil rfl) hrep rfl (Frame.refl _)
  | _ => exact hrest (hnil rfl) rfl

end Effect

/-! ### The normal path -/

/-- A PreAccept does not come after one of a later slot of its row with a key in common. -/
def InSlotOrder (s : State) : Act → Prop
  | .deliver i j => ∀ c p rest rep, s.requests (i, j) = (c, Request.preAccept p) :: rest → s.replicas[j]? = some rep →
      ∀ k entry d, Touches p.cmds k → rep.inner.conflicts.lookup k = some entry →
        entry.deps[asUsize p.replica]? = some d → d < p.slot
  | _ => True

/-- What is known of a run of the normal path that takes its actions from `acts`. -/
structure History (n : Nat) (acts : List Act) (seen : List Event) (s : State) : Prop where
  rounds : ∀ key, Rounds n key seen s
  marks : Marks seen s
  asked : ∀ j req reply, Event.answered j req reply ∈ seen →
    ∃ key v, Event.started key v ∈ seen ∧ req = preAcceptOf key v
  proposed : ∀ key v, Event.started key v ∈ seen → ∃ peers thrifty, Act.propose key.1 v.cmds peers thrifty ∈ acts
  chosen : ∀ key v, (key, v) ∈ s.decided → ∃ orig fastPath, Decided n seen key orig v fastPath

section History

variable {rt : Runtime} {n : Nat} {acts : List Act} {seen : List Event} {s t : State} {a : Act}

/-- An instance that a replica has seen was started, with the same batch. -/
theorem History.started_of_visit (h : History n acts seen s) {e : Event} (he : e ∈ seen) {w : Visit}
    (hw : e.visit = some w) : ∃ v, Event.started w.key v ∈ seen ∧ v.cmds = w.cmds := by
  cases e with
  | started key v =>
      cases hw
      exact ⟨v, he, rfl⟩
  | answered j req reply =>
      obtain ⟨key, v, hv, rfl⟩ := h.asked j req reply he
      rw [visit_answered] at hw
      cases hw
      exact ⟨v, hv, rfl⟩
  | decided => cases hw

/-- The slots of a row that were seen are behind its counter. -/
theorem History.slot_lt (h : History n acts seen s) {key : Nat × Int} {v : Value} (hv : Event.started key v ∈ seen)
    {rep : Replica} (hrep : s.replicas[key.1]? = some rep) (hnonneg : 0 ≤ rep.inner.curSlot) :
    key.2 < rep.inner.curSlot := by
  obtain ⟨call, hcall, hkey⟩ := (h.rounds key).started v hv
  have htaken := (h.rounds key).taken call hcall hkey rep hrep
  omega

theorem History.asked_of_queue (h : History n acts seen s) {i j c : Nat} {p : Proposal} {rest : List (Nat × Request)}
    (hqueue : s.requests (i, j) = (c, .preAccept p) :: rest) :
    ∃ key v, Event.started key v ∈ seen ∧ p = preAcceptOf key v ∧ DepsFor n key v.deps := by
  have hmem : (c, Request.preAccept p) ∈ s.requests (i, j) := by
    rw [hqueue]
    exact List.mem_cons_self
  obtain ⟨call, hcall, rfl, hreq⟩ := (h.rounds (0, 0)).sound.requests i j _ hmem
  obtain ⟨v, hv, rfl⟩ := (h.rounds call.key).asked c call hcall rfl j p
    (List.mem_append_left _ (Tagged.mem_select.mpr hmem))
  exact ⟨call.key, v, hv, rfl, hreq.deps (hreq.valid _ rfl) _ rfl⟩

theorem History.marks_step (h : History n acts seen s) (horder : InSlotOrder s a)
    (hbegins : Begins (Targets False n) s a) (hstep : step rt s a = some t) :
    Marks (seen ++ observe rt s a) t := by
  have hsound := (h.rounds (0, 0)).sound
  have hlength {q : Nat} {rep : Replica} (hrep : s.replicas[q]? = some rep) (k : String) (entry : ConflictEntry)
      (hentry : rep.inner.conflicts.lookup k = some entry) : entry.deps.length = n :=
    ((hsound.replicas q rep hrep).shaped.known k entry hentry).trans (hsound.replicas q rep hrep).n_eq
  have heffect := effect_of_step hsound hbegins hstep
  generalize observe rt s a = new at heffect
  cases heffect with
  | quiet hnone hsame => exact h.marks.quiet hnone hsame
  | @started i cmds peers thrifty rep rep' seq deps hvisited =>
      have hrep : s.replicas[i]? = some rep := hvisited.before
      have hnonneg : 0 ≤ rep.inner.curSlot := hbegins rep hrep
      refine h.marks.visited hvisited (hlength hrep) ?_ fun r d hd hd₀ => ?_
      · intro key key' x x' hx heq hrow
        cases heq
        subst hrow
        exact h.slot_lt hx hrep hnonneg
      · obtain ⟨x, hdx, hbase | ⟨k, entry, hk, hentry, hx⟩⟩ := hvisited.deps_cases hd
        · rw [(List.mem_replicate.mp (List.mem_of_getElem? hbase)).2] at hdx
          split at hdx <;> omega
        · have hx₀ : 0 ≤ x := by split at hdx <;> omega
          obtain ⟨e, he, w, hw, hkey, htouches⟩ := h.marks.known i rep hrep k entry hentry r x hx hx₀
          -- a slot of the own row is behind the counter, so that nothing was capped
          have huncapped : d = x := by
            split at hdx
            · rename_i hrow
              obtain ⟨v, hv, -⟩ := h.started_of_visit he hw
              rw [hkey] at hv
              subst hrow
              have hlt : x < rep.inner.curSlot := h.slot_lt hv hrep hnonneg
              dsimp only at hdx
              omega
            · exact hdx
          rw [huncapped]
          exact ⟨e, he, w, hw, hkey, k, htouches, hk⟩
  | @answered i j c p rest reply rep rep' seq hqueue hvisited =>
      have hrep : s.replicas[j]? = some rep := hvisited.before
      obtain ⟨key, v, hv, rfl, hdeps⟩ := h.asked_of_queue hqueue
      refine h.marks.visited hvisited (hlength hrep) (fun _ _ _ _ _ heq => by cases heq) fun r d hd hd₀ => ?_
      have hrow : asUsize (preAcceptOf key v).replica = key.1 := asUsize_natCast key.1
      obtain ⟨x, hdx, hx⟩ := hvisited.deps_cases hd
      have hx₀ : 0 ≤ x := by split at hdx <;> omega
      have hlt (hr : key.1 = r) : x < key.2 := by
        rcases hx with hbase | ⟨k, entry, hk, hentry, hx⟩
        · rw [← hr] at hbase
          exact hdeps.self x hbase
        · refine horder c _ rest rep hqueue hrep k entry x hk hentry ?_
          rw [hrow, hr]
          exact hx
      have huncapped : d = x := by
        dsimp only at hdx
        rw [hrow] at hdx
        split at hdx
        · rename_i hr
          have := hlt hr
          rw [hdx]
          exact min_eq_left (by show x ≤ key.2 - 1; omega)
        · exact hdx
      rw [huncapped]
      rcases hx with hbase | ⟨k, entry, hk, hentry, hx⟩
      · exact h.marks.justified _ hv _ rfl r x hbase hx₀
      · obtain ⟨e, he, w, hw, hkey, htouches⟩ := h.marks.known j rep hrep k entry hentry r x hx hx₀
        exact ⟨e, he, w, hw, hkey, k, htouches, hk⟩

/-- The value that a proposal fixes by itself is the one it goes on with. -/
theorem phase_of_fixes {call : Coordinator} {reply : Reply} {v : Value} (hnot : ¬call.phase.Recovers)
    (hv : (call.receive reply).2 = some v) :
    (call.receive reply).1.phase = .committing v true ∨ (call.receive reply).1.phase = .accepting v 0 := by
  cases reply with
  | preAccept r =>
      simp only [Coordinator.receive] at hv ⊢
      split at hv
      · split at hv
        · rename_i seq deps fastPath _
          cases hv
          cases fastPath with
          | true => exact Or.inl rfl
          | false => exact Or.inr rfl
        · cases hv
      · cases hv
  | prepare r =>
      simp only [Coordinator.receive] at hv
      split at hv
      · rename_i hphase
        rw [hphase] at hnot
        exact absurd trivial hnot
      · cases hv
  | tryPreAccept r =>
      simp only [Coordinator.receive] at hv
      split at hv
      · split at hv <;> cases hv
      · cases hv
  | accept r =>
      simp only [Coordinator.receive] at hv
      split at hv
      · split at hv <;> cases hv
      · cases hv

theorem History.chosen_step (h : History n acts seen s) (hrounds : ∀ key, Rounds n key (seen ++ observe rt s a) t)
    (hstep : step rt s a = some t) :
    ∀ key v, (key, v) ∈ t.decided → ∃ orig fastPath, Decided n (seen ++ observe rt s a) key orig v fastPath := by
  intro key v hmem
  have hold (hmem : (key, v) ∈ s.decided) :
      ∃ orig fastPath, Decided n (seen ++ observe rt s a) key orig v fastPath := by
    obtain ⟨orig, fastPath, hdecided⟩ := h.chosen key v hmem
    exact ⟨orig, fastPath, hdecided.mono (List.subset_append_left ..)⟩
  cases moves_of_step hstep with
  | @receive i j c reply rest call hqueue hcall =>
      rcases List.mem_append.mp hmem with hmem | hmem
      · exact hold hmem
      · obtain ⟨x, hx, heq⟩ := List.mem_map.mp hmem
        cases heq
        have hcall' := State.call?_eq_some hcall
        have hheader := Coordinator.header_receive call reply
        have hnot := ((h.rounds call.key).rounds c call hcall' rfl).2.not_recovers
        have hinv := ((hrounds call.key).rounds c _ (ListUpdate.getElem?_set_of_some hcall')
          (Coordinator.key_eq_of_header hheader)).2
        rw [View.Inv] at hinv
        rw [hheader] at hinv
        rcases phase_of_fixes hnot (Option.mem_toList.mp hx) with hphase | hphase
        · simp only [State.view, hphase] at hinv
          obtain ⟨⟨orig, hdecided⟩, -⟩ := hinv
          exact ⟨orig, true, hdecided⟩
        · simp only [State.view, hphase] at hinv
          obtain ⟨orig, hdecided, -⟩ := hinv
          exact ⟨orig, false, hdecided⟩
  | _ => exact hold hmem

theorem History.step (h : History n acts seen s) (ha : a ∈ acts) (hok : ∀ key, Normal n key s a)
    (horder : InSlotOrder s a) (hbegins : Begins (Targets False n) s a) (hstep : step rt s a = some t) :
    History n acts (seen ++ observe rt s a) t := by
  have hrounds (key : Nat × Int) := (h.rounds key).step (hok key) hbegins hstep
  refine ⟨hrounds, h.marks_step horder hbegins hstep, fun j req reply hmem => ?_, fun key v hmem => ?_,
    h.chosen_step hrounds hstep⟩
  · rcases List.mem_append.mp hmem with hmem | hmem
    · obtain ⟨key, v, hv, hreq⟩ := h.asked j req reply hmem
      exact ⟨key, v, List.mem_append_left _ hv, hreq⟩
    · have heffect := effect_of_step (h.rounds (0, 0)).sound hbegins hstep
      generalize hnew : observe rt s a = new at heffect hmem
      cases heffect with
      | quiet hnone => cases (hnone _ hmem).symm.trans rfl
      | started => cases List.mem_singleton.mp hmem
      | answered hqueue =>
          cases List.mem_singleton.mp hmem
          obtain ⟨key, v, hv, hreq, -⟩ := h.asked_of_queue hqueue
          exact ⟨key, v, List.mem_append_left _ hv, hreq⟩
  · rcases List.mem_append.mp hmem with hmem | hmem
    · exact h.proposed key v hmem
    · obtain ⟨i, peers, thrifty, rep, inner, rfl, hrep, -, hid, -⟩ := started_of_observe hmem
      have hi : rep.inner.id = i :=
        Sound.id_eq ((h.rounds key).sound.replicas i rep (State.running?_eq_some hrep))
      rw [← hid, hi]
      exact ⟨peers, thrifty, ha⟩

theorem history_init (n : Nat) (acts : List Act) : History n acts [] (init n) where
  rounds := rounds_init n
  marks := by
    refine ⟨fun q rep hrep e he => absurd he List.not_mem_nil, fun q rep hrep k entry hentry => ?_, List.Pairwise.nil,
      fun e he => absurd he List.not_mem_nil⟩
    simp only [init, List.getElem?_map, Option.map_eq_some_iff] at hrep
    obtain ⟨id, -, rfl⟩ := hrep
    simp [ReplicaInner.new] at hentry
  asked j req reply hmem := absurd hmem List.not_mem_nil
  proposed key v hmem := absurd hmem List.not_mem_nil
  chosen key v hmem := absurd hmem List.not_mem_nil

theorem history_mixed {acts : List (Runtime × Act)} (hslots : SlotsSuffice acts)
    (hnormal : Transition.Within (Transition.mixed Epaxos.step) (fun s x => ∀ key, Normal n key s x.2) (init n) acts)
    (horder : Transition.Within (Transition.mixed Epaxos.step) (fun s x => InSlotOrder s x.2) (init n) acts)
    (hrun : Transition.run (Transition.mixed Epaxos.step) (init n) acts = some s) :
    History n (acts.map Prod.snd)
      (Transition.trace (Transition.mixed Epaxos.step) (fun s x => observe x.1 s x.2) (init n) acts) s := by
  have hbegins : Transition.Within (Transition.mixed Epaxos.step) (fun s x => Begins (Targets False n) s x.2) (init n)
      acts := begins_of_slots hslots False.elim
  have hmem : Transition.Within (Transition.mixed Epaxos.step) (fun _ x => x.2 ∈ acts.map Prod.snd) (init n) acts :=
    Transition.within_of_forall fun x hx => List.mem_map_of_mem hx
  have hhistory := Transition.run_invariant_trace (P := History n (acts.map Prod.snd))
    (fun _ _ _ _ h hok hstep => History.step h hok.1.1 hok.1.2 hok.2.1 hok.2.2 hstep)
    (history_init n (acts.map Prod.snd)) ((hmem.and hnormal).and (horder.and hbegins)) hrun
  rwa [List.nil_append] at hhistory

theorem history_run (hslots : rt.checked = true ∨ ∀ i, proposals i acts ≤ 2 ^ 31)
    (hnormal : Transition.Within (Epaxos.step rt) (fun s a => ∀ key, Normal n key s a) (init n) acts)
    (horder : Transition.Within (Epaxos.step rt) InSlotOrder (init n) acts)
    (hrun : Transition.run (Epaxos.step rt) (init n) acts = some s) :
    History n acts (Transition.trace (Epaxos.step rt) (observe rt) (init n) acts) s := by
  have hhistory := history_mixed (slotsSuffice_of_one hslots) ((Transition.within_mixed rt).mpr hnormal)
    ((Transition.within_mixed rt).mpr horder) ((Transition.run_mixed rt).trans hrun)
  rwa [map_snd_mk, Transition.trace_mixed] at hhistory

end History

end Quorums.Epaxos
