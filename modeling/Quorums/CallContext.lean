import Quorums.BaseTokens
import Quorums.CallInvariant

/-! The contexts of calls (`NodeContext` of `node.rs`, `ConfigContext` of `config.rs`) and their tokens. A
program creates tokens of its own, builds contexts step by step, copies them and cancels its tokens; every
`with_timeout` has a task that cancels a token of the context's. When a context is cancelled is read off
the steps it was built with: what was put in before the last `with_cancel` does not count, timeouts
included. -/

namespace Quorums.Client

abbrev Interceptor := CallInfo → Except Error Unit

/-- The steps with which a context is built. A timeout is named by its task. -/
inductive Build where
  | withCancel (t : Nat)
  | withTimeout (i : Nat)
  | withInterceptor (i : Interceptor)
  | withMetadata (key value : String)

def Build.interceptor? : Build → Option Interceptor
  | .withInterceptor i => some i
  | _ => none

def Build.metadata? : Build → Option (String × String)
  | .withMetadata key value => some (key, value)
  | _ => none

/-- `NodeContext` and `ConfigContext`; the one has a single node. `built` records the steps taken since
`context()`, the last one first. -/
structure CallContext where
  nodes : List NodeHandle
  cancel : Nat
  interceptors : List Interceptor
  metadata : List (String × String)
  built : List Build

/-- The task of a `with_timeout`. -/
structure Timer where
  token : Nat
  deadline : Nat
  expired : Bool
  deriving DecidableEq, Repr

/-- A program with its tokens and contexts. `owned` lists the tokens it has a handle of; those in a context
it built without `with_cancel` it cannot reach. -/
structure Program where
  tokens : Tokens
  owned : List Nat
  contexts : List CallContext
  timers : List Timer
  now : Nat

namespace Program

def init : Program := ⟨.empty, [], [], [], 0⟩

inductive Act where
  | newToken
  | childToken (t : Nat)
  | cancelToken (t : Nat)
  | context (nodes : List NodeHandle)
  | clone (x : Nat)
  | withCancel (x t : Nat)
  | withTimeout (x duration : Nat)
  | withInterceptor (x : Nat) (i : Interceptor)
  | withMetadata (x : Nat) (key value : String)
  -- time passes; the task of a timeout wakes up
  | elapse (duration : Nat)
  | expire (i : Nat)

def setContext (s : Program) (x : Nat) (c : CallContext) : Program := { s with contexts := s.contexts.set x c }

def step (s : Program) : Act → Option Program
  | .newToken => some { s with tokens := s.tokens.create, owned := s.owned ++ [s.tokens.count] }
  | .childToken t =>
      if t ∈ s.owned then some { s with tokens := s.tokens.child t, owned := s.owned ++ [s.tokens.count] }
      else none
  | .cancelToken t => if t ∈ s.owned then some { s with tokens := s.tokens.cancel t } else none
  | .context nodes =>
      some { s with tokens := s.tokens.create, contexts := s.contexts ++ [⟨nodes, s.tokens.count, [], [], []⟩] }
  | .clone x => s.contexts[x]?.map fun c => { s with contexts := s.contexts ++ [c] }
  | .withCancel x t =>
      if t ∈ s.owned then
        s.contexts[x]?.map fun c => s.setContext x { c with cancel := t, built := .withCancel t :: c.built }
      else none
  | .withTimeout x duration =>
      s.contexts[x]?.map fun c =>
        { s.setContext x { c with cancel := s.tokens.count, built := .withTimeout s.timers.length :: c.built } with
          tokens := s.tokens.child c.cancel
          timers := s.timers ++ [⟨s.tokens.count, s.now + duration, false⟩] }
  | .withInterceptor x i =>
      s.contexts[x]?.map fun c => s.setContext x { c with
        interceptors := c.interceptors ++ [i]
        built := .withInterceptor i :: c.built }
  | .withMetadata x key value =>
      s.contexts[x]?.map fun c => s.setContext x { c with
        metadata := c.metadata ++ [(key, value)]
        built := .withMetadata key value :: c.built }
  | .elapse duration => some { s with now := s.now + duration }
  | .expire i =>
      s.timers[i]?.bind fun timer =>
        if timer.expired = false ∧ timer.deadline ≤ s.now then
          some { s with
            tokens := s.tokens.cancel timer.token
            timers := s.timers.set i { timer with expired := true } }
        else none

/-! ### What a step can do -/

inductive Moves (s : Program) : Act → Program → Prop where
  | newToken : Moves s .newToken { s with tokens := s.tokens.create, owned := s.owned ++ [s.tokens.count] }
  | childToken {t : Nat} (ht : t ∈ s.owned) :
      Moves s (.childToken t) { s with tokens := s.tokens.child t, owned := s.owned ++ [s.tokens.count] }
  | cancelToken {t : Nat} (ht : t ∈ s.owned) : Moves s (.cancelToken t) { s with tokens := s.tokens.cancel t }
  | context {nodes : List NodeHandle} :
      Moves s (.context nodes)
        { s with tokens := s.tokens.create, contexts := s.contexts ++ [⟨nodes, s.tokens.count, [], [], []⟩] }
  | clone {x : Nat} {c : CallContext} (hc : s.contexts[x]? = some c) :
      Moves s (.clone x) { s with contexts := s.contexts ++ [c] }
  | withCancel {x t : Nat} {c : CallContext} (ht : t ∈ s.owned) (hc : s.contexts[x]? = some c) :
      Moves s (.withCancel x t) (s.setContext x { c with cancel := t, built := .withCancel t :: c.built })
  | withTimeout {x duration : Nat} {c : CallContext} (hc : s.contexts[x]? = some c) :
      Moves s (.withTimeout x duration)
        { s.setContext x { c with cancel := s.tokens.count, built := .withTimeout s.timers.length :: c.built } with
          tokens := s.tokens.child c.cancel
          timers := s.timers ++ [⟨s.tokens.count, s.now + duration, false⟩] }
  | withInterceptor {x : Nat} {i : Interceptor} {c : CallContext} (hc : s.contexts[x]? = some c) :
      Moves s (.withInterceptor x i) (s.setContext x { c with
        interceptors := c.interceptors ++ [i]
        built := .withInterceptor i :: c.built })
  | withMetadata {x : Nat} {key value : String} {c : CallContext} (hc : s.contexts[x]? = some c) :
      Moves s (.withMetadata x key value) (s.setContext x { c with
        metadata := c.metadata ++ [(key, value)]
        built := .withMetadata key value :: c.built })
  | elapse {duration : Nat} : Moves s (.elapse duration) { s with now := s.now + duration }
  | expire {i : Nat} {timer : Timer} (htimer : s.timers[i]? = some timer) (hover : timer.expired = false)
      (hdue : timer.deadline ≤ s.now) :
      Moves s (.expire i) { s with
        tokens := s.tokens.cancel timer.token
        timers := s.timers.set i { timer with expired := true } }

variable {s t : Program} {a : Act}

theorem moves_of_step (h : step s a = some t) : Moves s a t := by
  cases a with
  | newToken =>
      cases h
      exact .newToken
  | childToken p =>
      rw [step] at h
      split at h <;> cases h
      exact .childToken ‹_›
  | cancelToken p =>
      rw [step] at h
      split at h <;> cases h
      exact .cancelToken ‹_›
  | context nodes =>
      cases h
      exact .context
  | clone x =>
      obtain ⟨c, hc, rfl⟩ := Option.map_eq_some_iff.mp h
      exact .clone hc
  | withCancel x p =>
      rw [step] at h
      split at h
      · obtain ⟨c, hc, rfl⟩ := Option.map_eq_some_iff.mp h
        exact .withCancel ‹_› hc
      · cases h
  | withTimeout x duration =>
      obtain ⟨c, hc, rfl⟩ := Option.map_eq_some_iff.mp h
      exact .withTimeout hc
  | withInterceptor x i =>
      obtain ⟨c, hc, rfl⟩ := Option.map_eq_some_iff.mp h
      exact .withInterceptor hc
  | withMetadata x key value =>
      obtain ⟨c, hc, rfl⟩ := Option.map_eq_some_iff.mp h
      exact .withMetadata hc
  | elapse duration =>
      cases h
      exact .elapse
  | expire i =>
      obtain ⟨timer, htimer, hif⟩ := Option.bind_eq_some_iff.mp h
      split at hif <;> cases hif
      rename_i hdue
      exact .expire htimer hdue.1 hdue.2

/-! ### Who cancels what -/

/-- The tokens of the program are cancelled by the program and nobody else, that of a timeout by its task and
nobody else. -/
structure Ledger (past : List Act) (s : Program) : Prop where
  owned_lt : ∀ t ∈ s.owned, t < s.tokens.count
  owned_lineage : ∀ t ∈ s.owned, ∀ a ∈ s.tokens.lineage t, a ∈ s.owned
  timer_lt : ∀ (i : Nat) (x : Timer), s.timers[i]? = some x → x.token < s.tokens.count ∧ x.token ∉ s.owned
  timer_inj : ∀ (i j : Nat) (x y : Timer), s.timers[i]? = some x → s.timers[j]? = some y → x.token = y.token → i = j
  fired : ∀ t ∈ s.tokens.fired, Act.cancelToken t ∈ past ∨
    ∃ (i : Nat) (x : Timer), s.timers[i]? = some x ∧ x.token = t ∧ Act.expire i ∈ past
  cancelled : ∀ t, Act.cancelToken t ∈ past → t ∈ s.owned ∧ t ∈ s.tokens.fired
  expired : ∀ i, Act.expire i ∈ past →
    ∃ x : Timer, s.timers[i]? = some x ∧ x.token ∈ s.tokens.fired ∧ x.deadline ≤ s.now

theorem ledger_init : Ledger [] init where
  owned_lt t h := (List.not_mem_nil h).elim
  owned_lineage t h := (List.not_mem_nil h).elim
  timer_lt i x h := by cases h
  timer_inj i j x y h := by cases h
  fired t h := (List.not_mem_nil h).elim
  cancelled t h := (List.not_mem_nil h).elim
  expired i h := (List.not_mem_nil h).elim

/-- The action cancels nothing. -/
def Act.Harmless (a : Act) : Prop := ∀ t, a ≠ .cancelToken t ∧ a ≠ .expire t

section Ledger

variable {past : List Act}

theorem mem_past {b : Act} (ha : a.Harmless) (hb : (∃ t, b = .cancelToken t) ∨ ∃ i, b = .expire i) :
    b ∈ past ++ [a] ↔ b ∈ past := by
  rw [List.mem_append, List.mem_singleton]
  refine ⟨fun h => h.resolve_right ?_, Or.inl⟩
  rintro rfl
  rcases hb with ⟨t, rfl⟩ | ⟨i, rfl⟩
  · exact (ha t).1 rfl
  · exact (ha i).2 rfl

/-- Only the tokens, the timers and the clock count. -/
theorem Ledger.skip (h : Ledger past s) (ha : a.Harmless) (htokens : t.tokens = s.tokens) (howned : t.owned = s.owned)
    (htimers : t.timers = s.timers) (hnow : s.now ≤ t.now) : Ledger (past ++ [a]) t where
  owned_lt := by rw [howned, htokens]; exact h.owned_lt
  owned_lineage := by rw [howned, htokens]; exact h.owned_lineage
  timer_lt := by rw [htimers, howned, htokens]; exact h.timer_lt
  timer_inj := by rw [htimers]; exact h.timer_inj
  fired u hu := by
    rw [htokens] at hu
    rw [htimers, mem_past ha (Or.inl ⟨u, rfl⟩)]
    refine (h.fired u hu).imp_right ?_
    rintro ⟨i, x, hx, hxu, hi⟩
    exact ⟨i, x, hx, hxu, (mem_past ha (Or.inr ⟨i, rfl⟩)).mpr hi⟩
  cancelled u hu := by
    rw [howned, htokens]
    exact h.cancelled u ((mem_past ha (Or.inl ⟨u, rfl⟩)).mp hu)
  expired i hi := by
    obtain ⟨x, hx, hfired, hdue⟩ := h.expired i ((mem_past ha (Or.inr ⟨i, rfl⟩)).mp hi)
    rw [htimers, htokens]
    exact ⟨x, hx, hfired, Nat.le_trans hdue hnow⟩

/-- A token is created that nobody has a handle of. -/
theorem Ledger.push (h : Ledger past s) (above : List Nat) (habove : ∀ a ∈ above, a < s.tokens.count) :
    Ledger past { s with tokens := s.tokens.push above habove } where
  owned_lt u hu := by
    rw [Tokens.count_push]
    exact Nat.lt_succ_of_lt (h.owned_lt u hu)
  owned_lineage u hu a ha := by
    rw [Tokens.lineage_push_of_lt habove (h.owned_lt u hu)] at ha
    exact h.owned_lineage u hu a ha
  timer_lt i x hx := by
    rw [Tokens.count_push]
    obtain ⟨hlt, hnot⟩ := h.timer_lt i x hx
    exact ⟨Nat.lt_succ_of_lt hlt, hnot⟩
  timer_inj := h.timer_inj
  fired := h.fired
  cancelled := h.cancelled
  expired := h.expired

/-- A token is created for the program, on its own or below one of the program's. -/
theorem Ledger.own (h : Ledger past s) (above : List Nat) (habove : ∀ a ∈ above, a < s.tokens.count)
    (howned : ∀ a ∈ above, a ∈ s.owned) :
    Ledger past { s with tokens := s.tokens.push above habove, owned := s.owned ++ [s.tokens.count] } where
  owned_lt u hu := by
    rw [Tokens.count_push]
    rcases List.mem_append.mp hu with hold | hnew
    · exact Nat.lt_succ_of_lt (h.owned_lt u hold)
    · rw [List.mem_singleton.mp hnew]
      exact Nat.lt_succ_self _
  owned_lineage u hu a ha := by
    refine List.mem_append.mpr ?_
    rcases List.mem_append.mp hu with hold | hnew
    · rw [Tokens.lineage_push_of_lt habove (h.owned_lt u hold)] at ha
      exact Or.inl (h.owned_lineage u hold a ha)
    · rw [List.mem_singleton.mp hnew, Tokens.lineage_push_self] at ha
      rcases List.mem_cons.mp ha with rfl | hmem
      · exact Or.inr (List.mem_singleton.mpr rfl)
      · exact Or.inl (howned a hmem)
  timer_lt i x hx := by
    rw [Tokens.count_push, List.mem_append, List.mem_singleton]
    obtain ⟨hlt, hnot⟩ := h.timer_lt i x hx
    exact ⟨Nat.lt_succ_of_lt hlt, fun hmem => hmem.elim hnot fun heq => by omega⟩
  timer_inj := h.timer_inj
  fired := h.fired
  cancelled u hu := by
    obtain ⟨hmem, hfired⟩ := h.cancelled u hu
    exact ⟨List.mem_append_left _ hmem, hfired⟩
  expired := h.expired

/-- A token is created below `p` for the task of a timeout. -/
theorem Ledger.timeout (h : Ledger past s) (p duration : Nat) : Ledger past { s with
    tokens := s.tokens.child p
    timers := s.timers ++ [⟨s.tokens.count, s.now + duration, false⟩] } := by
  have hpush : Ledger past { s with tokens := s.tokens.child p } := h.push (s.tokens.lineage p) _
  have hcases (i : Nat) (x : Timer) (hx : (s.timers ++ [⟨s.tokens.count, s.now + duration, false⟩])[i]? = some x) :
      s.timers[i]? = some x ∨ (i = s.timers.length ∧ x.token = s.tokens.count) := by
    rcases ListUpdate.getElem?_append_cases hx with hold | ⟨hi, rfl⟩
    · exact Or.inl hold
    · exact Or.inr ⟨hi, rfl⟩
  refine ⟨hpush.owned_lt, hpush.owned_lineage, fun i x hx => ?_, fun i j x y hx hy hxy => ?_, fun u hu => ?_,
    hpush.cancelled, fun i hi => ?_⟩
  · rcases hcases i x hx with hold | ⟨-, htoken⟩
    · exact hpush.timer_lt i x hold
    · rw [htoken]
      refine ⟨?_, fun hmem => Nat.lt_irrefl _ (h.owned_lt _ hmem)⟩
      rw [Tokens.child, Tokens.count_push]
      exact Nat.lt_succ_self _
  · rcases hcases i x hx with hx | ⟨hi, hxnew⟩
    · have hxlt := (h.timer_lt i x hx).1
      rcases hcases j y hy with hy | ⟨hj, hynew⟩
      · exact h.timer_inj i j x y hx hy hxy
      · omega
    · rcases hcases j y hy with hy | ⟨hj, hynew⟩
      · have hylt := (h.timer_lt j y hy).1
        omega
      · omega
  · refine (h.fired u hu).imp_right ?_
    rintro ⟨i, x, hx, hxu, hi⟩
    exact ⟨i, x, ListUpdate.getElem?_append_of_some hx _, hxu, hi⟩
  · obtain ⟨x, hx, hrest⟩ := h.expired i hi
    exact ⟨x, ListUpdate.getElem?_append_of_some hx _, hrest⟩

/-- The program cancels one of its tokens. -/
theorem Ledger.cancel (h : Ledger past s) {u : Nat} (hu : u ∈ s.owned) :
    Ledger (past ++ [.cancelToken u]) { s with tokens := s.tokens.cancel u } := by
  have hmem {a : Nat} : a ∈ (s.tokens.cancel u).fired ↔ a ∈ s.tokens.fired ∨ a = u :=
    Tokens.mem_fired_cancel (h.owned_lt u hu)
  refine ⟨fun t ht => ?_, fun t ht a ha => ?_, fun i x hx => ?_, h.timer_inj, fun t ht => ?_, fun t ht => ?_,
    fun i hi => ?_⟩
  · rw [Tokens.count_cancel]
    exact h.owned_lt t ht
  · rw [Tokens.lineage_cancel] at ha
    exact h.owned_lineage t ht a ha
  · rw [Tokens.count_cancel]
    exact h.timer_lt i x hx
  · rcases hmem.mp ht with hold | rfl
    · rcases h.fired t hold with hcancel | ⟨i, x, hx, hxt, hi⟩
      · exact Or.inl (List.mem_append_left _ hcancel)
      · exact Or.inr ⟨i, x, hx, hxt, List.mem_append_left _ hi⟩
    · exact Or.inl (List.mem_append_right _ (List.mem_singleton.mpr rfl))
  · rcases List.mem_append.mp ht with hold | hnew
    · obtain ⟨howned, hfired⟩ := h.cancelled t hold
      exact ⟨howned, hmem.mpr (Or.inl hfired)⟩
    · obtain rfl : t = u := by cases List.mem_singleton.mp hnew; rfl
      exact ⟨hu, hmem.mpr (Or.inr rfl)⟩
  · have hold : Act.expire i ∈ past := by
      rcases List.mem_append.mp hi with hold | hnew
      · exact hold
      · cases List.mem_singleton.mp hnew
    obtain ⟨x, hx, hfired, hdue⟩ := h.expired i hold
    exact ⟨x, hx, hmem.mpr (Or.inl hfired), hdue⟩

/-- The task of a timeout cancels its token. -/
theorem Ledger.expire (h : Ledger past s) {i : Nat} {timer : Timer} (htimer : s.timers[i]? = some timer)
    (hdue : timer.deadline ≤ s.now) : Ledger (past ++ [.expire i]) { s with
      tokens := s.tokens.cancel timer.token
      timers := s.timers.set i { timer with expired := true } } := by
  have hmem {a : Nat} : a ∈ (s.tokens.cancel timer.token).fired ↔ a ∈ s.tokens.fired ∨ a = timer.token :=
    Tokens.mem_fired_cancel (h.timer_lt i timer htimer).1
  -- the timers are what they were, but for the mark
  have hold (j : Nat) (x : Timer) (hx : (s.timers.set i { timer with expired := true })[j]? = some x) :
      ∃ y, s.timers[j]? = some y ∧ y.token = x.token := by
    obtain ⟨y, hy, hxy⟩ := ListUpdate.exists_getElem?_of_set (f := Timer.token) (y := { timer with expired := true })
      htimer rfl hx
    exact ⟨y, hy, hxy.symm⟩
  have hnew (j : Nat) (x : Timer) (hx : s.timers[j]? = some x) :
      ∃ y, (s.timers.set i { timer with expired := true })[j]? = some y ∧ y.token = x.token ∧
        y.deadline = x.deadline := by
    by_cases hij : i = j
    · subst hij
      obtain rfl : timer = x := Option.some.inj (htimer.symm.trans hx)
      exact ⟨_, ListUpdate.getElem?_set_of_some htimer, rfl, rfl⟩
    · exact ⟨x, (List.getElem?_set_ne hij).trans hx, rfl, rfl⟩
  refine ⟨fun t ht => ?_, fun t ht a ha => ?_, fun j x hx => ?_, fun j k x y hx hy hxy => ?_, fun t ht => ?_,
    fun t ht => ?_, fun j hj => ?_⟩
  · rw [Tokens.count_cancel]
    exact h.owned_lt t ht
  · rw [Tokens.lineage_cancel] at ha
    exact h.owned_lineage t ht a ha
  · obtain ⟨y, hy, hyx⟩ := hold j x hx
    rw [Tokens.count_cancel, ← hyx]
    exact h.timer_lt j y hy
  · obtain ⟨x', hx', hxx⟩ := hold j x hx
    obtain ⟨y', hy', hyy⟩ := hold k y hy
    exact h.timer_inj j k x' y' hx' hy' (by rw [hxx, hyy, hxy])
  · rcases hmem.mp ht with hfired | rfl
    · rcases h.fired t hfired with hcancel | ⟨j, x, hx, hxt, hj⟩
      · exact Or.inl (List.mem_append_left _ hcancel)
      · obtain ⟨y, hy, hyx, -⟩ := hnew j x hx
        exact Or.inr ⟨j, y, hy, hyx.trans hxt, List.mem_append_left _ hj⟩
    · obtain ⟨y, hy, hyx, -⟩ := hnew i timer htimer
      exact Or.inr ⟨i, y, hy, hyx, List.mem_append_right _ (List.mem_singleton.mpr rfl)⟩
  · have hpast : Act.cancelToken t ∈ past := by
      rcases List.mem_append.mp ht with hpast | hlast
      · exact hpast
      · cases List.mem_singleton.mp hlast
    obtain ⟨howned, hfired⟩ := h.cancelled t hpast
    exact ⟨howned, hmem.mpr (Or.inl hfired)⟩
  · rcases List.mem_append.mp hj with hpast | hlast
    · obtain ⟨x, hx, hfired, hxdue⟩ := h.expired j hpast
      obtain ⟨y, hy, hyx, hydue⟩ := hnew j x hx
      exact ⟨y, hy, hmem.mpr (Or.inl (hyx ▸ hfired)), hydue ▸ hxdue⟩
    · obtain rfl : j = i := by cases List.mem_singleton.mp hlast; rfl
      obtain ⟨y, hy, hyx, hydue⟩ := hnew j timer htimer
      exact ⟨y, hy, hmem.mpr (Or.inr hyx), hydue ▸ hdue⟩

theorem ledger_step (h : Ledger past s) (hstep : step s a = some t) : Ledger (past ++ [a]) t := by
  cases moves_of_step hstep with
  | newToken =>
      have hown := h.own [] (List.forall_mem_nil _) (List.forall_mem_nil _)
      exact hown.skip (fun _ => ⟨nofun, nofun⟩) rfl rfl rfl (Nat.le_refl _)
  | @childToken p hp =>
      have hown := h.own (s.tokens.lineage p) (fun _ hb => Tokens.lt_of_mem_lineage hb) (h.owned_lineage p hp)
      exact hown.skip (fun _ => ⟨nofun, nofun⟩) rfl rfl rfl (Nat.le_refl _)
  | cancelToken hu => exact h.cancel hu
  | context =>
      have hpush := h.push [] (List.forall_mem_nil _)
      exact hpush.skip (fun _ => ⟨nofun, nofun⟩) rfl rfl rfl (Nat.le_refl _)
  | @withTimeout x duration c hc =>
      exact (h.timeout c.cancel duration).skip (fun _ => ⟨nofun, nofun⟩) rfl rfl rfl (Nat.le_refl _)
  | clone | withCancel | withInterceptor | withMetadata =>
      exact h.skip (fun _ => ⟨nofun, nofun⟩) rfl rfl rfl (Nat.le_refl _)
  | elapse => exact h.skip (fun _ => ⟨nofun, nofun⟩) rfl rfl rfl (Nat.le_add_right _ _)
  | expire htimer _ hdue => exact h.expire htimer hdue

end Ledger

/-! ### When a context is cancelled -/

/-- The token of a context that was built so. -/
inductive Chain (s : Program) : List Build → Nat → Prop where
  | context {t : Nat} (hlt : t < s.tokens.count) (hlineage : s.tokens.lineage t = [t]) (howned : t ∉ s.owned)
      (htimers : ∀ (i : Nat) (x : Timer), s.timers[i]? = some x → x.token ≠ t) : Chain s [] t
  | withCancel {t : Nat} {rest : List Build} (ht : t ∈ s.owned) : Chain s (.withCancel t :: rest) t
  | withTimeout {i p : Nat} {x : Timer} {rest : List Build} (hrest : Chain s rest p) (hx : s.timers[i]? = some x)
      (hlineage : s.tokens.lineage x.token = x.token :: s.tokens.lineage p) :
      Chain s (.withTimeout i :: rest) x.token
  | withInterceptor {t : Nat} {i : Interceptor} {rest : List Build} (hrest : Chain s rest t) :
      Chain s (.withInterceptor i :: rest) t
  | withMetadata {t : Nat} {key value : String} {rest : List Build} (hrest : Chain s rest t) :
      Chain s (.withMetadata key value :: rest) t

/-- What of a program a chain depends on goes on as it was. -/
structure Later (s t : Program) : Prop where
  count_le : s.tokens.count ≤ t.tokens.count
  lineage : ∀ u < s.tokens.count, t.tokens.lineage u = s.tokens.lineage u
  owned : ∀ u < s.tokens.count, u ∈ t.owned ↔ u ∈ s.owned
  timers : ∀ (i : Nat) (x : Timer), s.timers[i]? = some x → ∃ y : Timer, t.timers[i]? = some y ∧ y.token = x.token
  fresh : ∀ (i : Nat) (y : Timer), t.timers[i]? = some y →
    s.tokens.count ≤ y.token ∨ ∃ x : Timer, s.timers[i]? = some x ∧ x.token = y.token

section Chain

variable {past : List Act}

theorem Chain.lt (h : Ledger past s) {built : List Build} {u : Nat} (hchain : Chain s built u) :
    u < s.tokens.count := by
  induction hchain with
  | context hlt => exact hlt
  | withCancel ht => exact h.owned_lt _ ht
  | withTimeout _ hx => exact (h.timer_lt _ _ hx).1
  | withInterceptor _ ih => exact ih
  | withMetadata _ ih => exact ih

theorem Chain.later (h : Ledger past s) (hlater : Later s t) {built : List Build} {u : Nat}
    (hchain : Chain s built u) : Chain t built u := by
  induction hchain with
  | context hlt hlineage howned htimers =>
      refine .context (Nat.lt_of_lt_of_le hlt hlater.count_le) ?_ ?_ fun i y hy heq => ?_
      · rw [hlater.lineage _ hlt, hlineage]
      · rwa [hlater.owned _ hlt]
      · rcases hlater.fresh i y hy with hge | ⟨x, hx, hxy⟩
        · omega
        · exact htimers i x hx (hxy.trans heq)
  | withCancel hu => exact .withCancel ((hlater.owned _ (h.owned_lt _ hu)).mpr hu)
  | @withTimeout i p x rest hrest hx hlineage ih =>
      obtain ⟨y, hy, hyx⟩ := hlater.timers i x hx
      rw [← hyx]
      refine .withTimeout ih hy ?_
      rw [hyx, hlater.lineage _ (h.timer_lt i x hx).1, hlineage, hlater.lineage _ (hrest.lt h)]
  | withInterceptor _ ih => exact .withInterceptor ih
  | withMetadata _ ih => exact .withMetadata ih

theorem later_of_eq (htokens : t.tokens = s.tokens) (howned : t.owned = s.owned) (htimers : t.timers = s.timers) :
    Later s t where
  count_le := by rw [htokens]
  lineage u _ := by rw [htokens]
  owned u _ := by rw [howned]
  timers i x hx := ⟨x, by rw [htimers, hx], rfl⟩
  fresh i y hy := Or.inr ⟨y, by rw [← htimers, hy], rfl⟩

theorem later_push {above : List Nat} (habove : ∀ a ∈ above, a < s.tokens.count)
    (htokens : t.tokens = s.tokens.push above habove)
    (howned : t.owned = s.owned ∨ t.owned = s.owned ++ [s.tokens.count])
    (htimers : t.timers = s.timers ∨ ∃ x : Timer, x.token = s.tokens.count ∧ t.timers = s.timers ++ [x]) :
    Later s t where
  count_le := by
    rw [htokens, Tokens.count_push]
    exact Nat.le_succ _
  lineage u hu := by rw [htokens, Tokens.lineage_push_of_lt habove hu]
  owned u hu := by
    rcases howned with heq | heq <;> rw [heq]
    rw [List.mem_append, List.mem_singleton]
    exact ⟨fun hmem => hmem.resolve_right (Nat.ne_of_lt hu), Or.inl⟩
  timers i x hx := by
    rcases htimers with heq | ⟨new, -, heq⟩
    · exact ⟨x, by rw [heq, hx], rfl⟩
    · exact ⟨x, by rw [heq]; exact ListUpdate.getElem?_append_of_some hx _, rfl⟩
  fresh i y hy := by
    rcases htimers with heq | ⟨new, hnew, heq⟩
    · exact Or.inr ⟨y, by rw [← heq, hy], rfl⟩
    · rw [heq] at hy
      rcases ListUpdate.getElem?_append_cases hy with hold | ⟨-, rfl⟩
      · exact Or.inr ⟨y, hold, rfl⟩
      · exact Or.inl (Nat.le_of_eq hnew.symm)

theorem later_step (hstep : step s a = some t) : Later s t := by
  cases moves_of_step hstep with
  | newToken => exact later_push (List.forall_mem_nil fun a => a < s.tokens.count) rfl (Or.inr rfl) (Or.inl rfl)
  | childToken => exact later_push (fun _ ha => Tokens.lt_of_mem_lineage ha) rfl (Or.inr rfl) (Or.inl rfl)
  | context => exact later_push (List.forall_mem_nil fun a => a < s.tokens.count) rfl (Or.inl rfl) (Or.inl rfl)
  | withTimeout =>
      exact later_push (fun _ ha => Tokens.lt_of_mem_lineage ha) rfl (Or.inl rfl) (Or.inr ⟨_, rfl, rfl⟩)
  | clone | withCancel | withInterceptor | withMetadata | elapse => exact later_of_eq rfl rfl rfl
  | cancelToken =>
      refine ⟨?_, fun u _ => Tokens.lineage_cancel _ _ _, fun _ _ => Iff.rfl, fun i x hx => ⟨x, hx, rfl⟩,
        fun i y hy => Or.inr ⟨y, hy, rfl⟩⟩
      rw [Tokens.count_cancel]
  | @expire i timer htimer =>
      refine ⟨?_, fun u _ => Tokens.lineage_cancel _ _ _, fun _ _ => Iff.rfl, fun j x hx => ?_, fun j y hy => ?_⟩
      · rw [Tokens.count_cancel]
      · by_cases hij : i = j
        · subst hij
          obtain rfl : timer = x := Option.some.inj (htimer.symm.trans hx)
          exact ⟨_, ListUpdate.getElem?_set_of_some htimer, rfl⟩
        · exact ⟨x, (List.getElem?_set_ne hij).trans hx, rfl⟩
      · obtain ⟨x, hx, hyx⟩ :=
          ListUpdate.exists_getElem?_of_set (f := Timer.token) (y := { timer with expired := true }) htimer rfl hy
        exact Or.inr ⟨x, hx, hyx.symm⟩

/-- What cancels a context that was built so: the token of the last `with_cancel`, through a token above it
or by itself, or a timeout that was set after that. -/
def CutBy (s : Program) (past : List Act) : List Build → Prop
  | [] => False
  | .withCancel t :: _ => ∃ a ∈ s.tokens.lineage t, Act.cancelToken a ∈ past
  | .withTimeout i :: rest => Act.expire i ∈ past ∨ CutBy s past rest
  | .withInterceptor _ :: rest | .withMetadata _ _ :: rest => CutBy s past rest

/-- What has cancelled a context goes on to cancel it. -/
theorem Chain.cutBy_later (h : Ledger past s) (hlater : Later s t) {past' : List Act} (hpast : past ⊆ past')
    {built : List Build} {u : Nat} (hchain : Chain s built u) (hcut : CutBy s past built) : CutBy t past' built := by
  induction hchain with
  | context => exact hcut
  | withCancel hu =>
      obtain ⟨a, ha, hmem⟩ := hcut
      exact ⟨a, by rwa [hlater.lineage _ (h.owned_lt _ hu)], hpast hmem⟩
  | withTimeout _ _ _ ih =>
      rcases hcut with hmem | hrest
      · exact Or.inl (hpast hmem)
      · exact Or.inr (ih hrest)
  | withInterceptor _ ih => exact ih hcut
  | withMetadata _ ih => exact ih hcut

theorem Ledger.fired_owned (h : Ledger past s) {u : Nat} (hu : u ∈ s.owned) :
    u ∈ s.tokens.fired ↔ Act.cancelToken u ∈ past := by
  refine ⟨fun hfired => ?_, fun hpast => (h.cancelled u hpast).2⟩
  rcases h.fired u hfired with hpast | ⟨i, x, hx, rfl, -⟩
  · exact hpast
  · exact absurd hu (h.timer_lt i x hx).2

theorem Ledger.fired_timer (h : Ledger past s) {i : Nat} {x : Timer} (hx : s.timers[i]? = some x) :
    x.token ∈ s.tokens.fired ↔ Act.expire i ∈ past := by
  constructor
  · intro hfired
    rcases h.fired _ hfired with hpast | ⟨j, y, hy, hyx, hj⟩
    · exact absurd (h.cancelled _ hpast).1 (h.timer_lt i x hx).2
    · rwa [h.timer_inj i j x y hx hy hyx.symm]
  · intro hpast
    obtain ⟨y, hy, hfired, -⟩ := h.expired i hpast
    obtain rfl : x = y := Option.some.inj (hx.symm.trans hy)
    exact hfired

theorem Ledger.cancelled_owned (h : Ledger past s) {u : Nat} (hu : u ∈ s.owned) :
    s.tokens.cancelled u = true ↔ ∃ a ∈ s.tokens.lineage u, Act.cancelToken a ∈ past := by
  rw [Tokens.cancelled_iff]
  refine exists_congr fun a => and_congr_right fun ha => ?_
  exact h.fired_owned (h.owned_lineage u hu a ha)

theorem Chain.cancelled_iff (h : Ledger past s) {built : List Build} {u : Nat} (hchain : Chain s built u) :
    s.tokens.cancelled u = true ↔ CutBy s past built := by
  induction hchain with
  | @context u hlt hlineage howned htimers =>
      rw [Tokens.cancelled_iff, hlineage]
      refine iff_of_false ?_ fun hc => hc
      rintro ⟨a, ha, hfired⟩
      obtain rfl := List.mem_singleton.mp ha
      rcases h.fired a hfired with hpast | ⟨i, x, hx, hxa, -⟩
      · exact howned (h.cancelled a hpast).1
      · exact htimers i x hx hxa
  | withCancel hu => exact h.cancelled_owned hu
  | withTimeout _ hx hlineage ih => rw [Tokens.cancelled_of_lineage hlineage, h.fired_timer hx, ih, CutBy]
  | withInterceptor _ ih => exact ih
  | withMetadata _ ih => exact ih

/-- The interceptors of a context that was built so. -/
def interceptorsOf (built : List Build) : List Interceptor := (built.filterMap Build.interceptor?).reverse

def metadataOf (built : List Build) : List (String × String) := (built.filterMap Build.metadata?).reverse

/-- What holds of a context. -/
structure Sound (s : Program) (c : CallContext) : Prop where
  chain : Chain s c.built c.cancel
  interceptors : c.interceptors = interceptorsOf c.built
  metadata : c.metadata = metadataOf c.built

theorem Sound.later (h : Ledger past s) (hlater : Later s t) {c : CallContext} (hsound : Sound s c) : Sound t c :=
  ⟨hsound.chain.later h hlater, hsound.interceptors, hsound.metadata⟩

/-- Every context that is there after a step was there before or comes from the step. -/
theorem sound_step (h : Ledger past s) (hsound : ∀ c ∈ s.contexts, Sound s c) (hstep : step s a = some t) :
    ∀ c ∈ t.contexts, Sound t c := by
  have hlater := later_step hstep
  have hold (c : CallContext) (hc : c ∈ s.contexts) : Sound t c := (hsound c hc).later h hlater
  have hset {x : Nat} {new : CallContext} (hnew : Sound t new) : ∀ c ∈ s.contexts.set x new, Sound t c := by
    intro c hc
    rcases List.mem_or_eq_of_mem_set hc with hmem | rfl
    · exact hold c hmem
    · exact hnew
  have happend {new : CallContext} (hnew : Sound t new) : ∀ c ∈ s.contexts ++ [new], Sound t c := by
    intro c hc
    rcases List.mem_append.mp hc with hmem | hmem
    · exact hold c hmem
    · rw [List.mem_singleton.mp hmem]
      exact hnew
  cases moves_of_step hstep with
  | newToken | childToken | cancelToken | elapse | expire => exact hold
  | context =>
      refine happend ⟨.context ?_ ?_ (fun hmem => ?_) fun i x hx heq => ?_, rfl, rfl⟩
      · show s.tokens.count < (s.tokens.create).count
        rw [Tokens.create, Tokens.count_push]
        exact Nat.lt_succ_self _
      · exact Tokens.lineage_push_self (List.forall_mem_nil _)
      · exact Nat.lt_irrefl _ (h.owned_lt _ hmem)
      · exact Nat.ne_of_lt (h.timer_lt i x hx).1 heq
  | clone hc => exact happend (hold _ (List.mem_of_getElem? hc))
  | withCancel hu hc =>
      have hc := hsound _ (List.mem_of_getElem? hc)
      exact hset ⟨.withCancel hu, hc.interceptors, hc.metadata⟩
  | @withTimeout x duration c hc =>
      have hc := hsound _ (List.mem_of_getElem? hc)
      have hlineage : (s.tokens.child c.cancel).lineage s.tokens.count =
          s.tokens.count :: (s.tokens.child c.cancel).lineage c.cancel := by
        rw [Tokens.child, Tokens.lineage_push_self, Tokens.lineage_push_of_lt _ (hc.chain.lt h)]
      refine hset ⟨?_, hc.interceptors, hc.metadata⟩
      exact .withTimeout (x := ⟨s.tokens.count, s.now + duration, false⟩) (hc.chain.later h hlater)
        List.getElem?_concat_length hlineage
  | withInterceptor hc =>
      have hold := hold _ (List.mem_of_getElem? hc)
      refine hset ⟨.withInterceptor hold.chain, ?_, hold.metadata⟩
      rw [hold.interceptors]
      exact (List.reverse_cons ..).symm
  | withMetadata hc =>
      have hold := hold _ (List.mem_of_getElem? hc)
      refine hset ⟨.withMetadata hold.chain, hold.interceptors, ?_⟩
      rw [hold.metadata]
      exact (List.reverse_cons ..).symm

/-- What a program relies on when it builds contexts. -/
structure Kept (past : List Act) (s : Program) : Prop where
  ledger : Ledger past s
  sound : ∀ c ∈ s.contexts, Sound s c

theorem Kept.step (h : Kept past s) (hstep : step s a = some t) : Kept (past ++ [a]) t :=
  ⟨ledger_step h.ledger hstep, sound_step h.ledger h.sound hstep⟩

theorem kept_init : Kept [] init := ⟨ledger_init, fun _ hc => (List.not_mem_nil hc).elim⟩

theorem kept_run {acts : List Act} (hrun : Transition.run step init acts = some s) : Kept acts s :=
  Transition.run_invariant_history (fun _ _ _ _ h hstep => h.step hstep) kept_init hrun

/-- In every run, a context is cancelled exactly if the token of its last `with_cancel` is, or a timeout
set after that has passed; a timeout that was set before it no longer counts. It has the interceptors and
the metadata it was given, in that order. No timeout cancels a token of the program's, and none passes
before its time. -/
theorem context_cancelled_iff {acts : List Act} (hrun : Transition.run step init acts = some s) {x : Nat}
    {c : CallContext} (hc : s.contexts[x]? = some c) :
    (s.tokens.cancelled c.cancel = true ↔ CutBy s acts c.built) ∧
    c.interceptors = interceptorsOf c.built ∧ c.metadata = metadataOf c.built ∧
    (∀ u ∈ s.owned, s.tokens.cancelled u = true ↔ ∃ a ∈ s.tokens.lineage u, Act.cancelToken a ∈ acts) ∧
    ∀ i, Act.expire i ∈ acts → ∃ timer : Timer, s.timers[i]? = some timer ∧ timer.deadline ≤ s.now := by
  have h := kept_run hrun
  have hsound := h.sound c (List.mem_of_getElem? hc)
  refine ⟨hsound.chain.cancelled_iff h.ledger, hsound.interceptors, hsound.metadata,
    fun u hu => h.ledger.cancelled_owned hu, fun i hi => ?_⟩
  obtain ⟨timer, htimer, -, hdue⟩ := h.ledger.expired i hi
  exact ⟨timer, htimer, hdue⟩

/-- The timeout is set before `with_cancel`: it passes, and the context is not cancelled. -/
theorem context_cancelled_iff_lostTimeout : ∃ s c,
    Transition.run step init [.newToken, .context [⟨1, 0⟩], .withTimeout 0 5, .withCancel 0 0, .elapse 9,
      .expire 0] = some s ∧ s.contexts[0]? = some c ∧ s.tokens.cancelled c.cancel = false ∧
    ¬CutBy s [.newToken, .context [⟨1, 0⟩], .withTimeout 0 5, .withCancel 0 0, .elapse 9, .expire 0] c.built := by
  obtain ⟨s, hs, c, hc, hcancelled⟩ : ∃ s, Transition.run step init [.newToken, .context [⟨1, 0⟩],
      .withTimeout 0 5, .withCancel 0 0, .elapse 9, .expire 0] = some s ∧
      ∃ c, s.contexts[0]? = some c ∧ s.tokens.cancelled c.cancel = false := ⟨_, rfl, _, rfl, rfl⟩
  refine ⟨s, c, hs, hc, hcancelled, fun hcut => ?_⟩
  rw [(context_cancelled_iff hs hc).1.mpr hcut] at hcancelled
  cases hcancelled

end Chain

end Program

end Quorums.Client
