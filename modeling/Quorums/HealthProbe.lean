import Mathlib.Data.List.Chain
import Quorums.BaseRun
import Quorums.WireMessage

/-! The active health prober (`health.rs`). `check_node` spawns a task that probes the node, publishes the
outcome on a watch channel if it differs from the last one, and waits for the interval. Dropping the
checker fires a token, at which the task looks only while it waits. -/

namespace Quorums.Health

/-- `HEALTH_METHOD`. -/
def healthMethod : String := "/_gorums/health"

inductive HealthStatus where
  | unknown
  | healthy
  | unhealthy
  deriving DecidableEq, Repr

/-- The status a probe gives. `none` is a probe that ran into its timeout. -/
def newStatus : Option (Except Error Unit) → HealthStatus
  | some (.ok ()) => .healthy
  | _ => .unhealthy

/-- Where the task of `check_node` is. -/
inductive Phase where
  -- in `timeout(rpc_call(..))`
  | probing
  -- the outcome is known, the comparison with the published status is next
  | publishing (new : HealthStatus)
  -- in the `select!` between the token and the interval
  | waiting
  | ended
  deriving DecidableEq, Repr

/-- `status` is the value in the watch channel. `subscribers` counts the receivers of the channel other
than that of the checker itself. -/
structure State where
  phase : Phase
  status : HealthStatus
  dropped : Bool
  subscribers : Nat
  deriving DecidableEq, Repr

def init : State := ⟨.probing, .unknown, false, 0⟩

inductive Act where
  -- the task
  | probed (result : Option (Except Error Unit))
  | publish
  | tick
  | exit
  -- the users of the checker
  | subscribe
  | unsubscribe
  | drop

namespace State

def receivers (s : State) : Nat := s.subscribers + if s.dropped then 0 else 1

/-- The status differs from the one in the channel, and the channel is open: `send` fails without a
receiver. -/
def Publishes (s : State) (new : HealthStatus) : Prop := s.status ≠ new ∧ 0 < s.receivers

instance (s : State) (new : HealthStatus) : Decidable (s.Publishes new) :=
  inferInstanceAs (Decidable (_ ∧ _))

end State

def step (s : State) : Act → Option State
  | .probed result =>
      match s.phase with
      | .probing => some { s with phase := .publishing (newStatus result) }
      | _ => none
  | .publish =>
      match s.phase with
      | .publishing new =>
          some (if s.Publishes new then { s with phase := .waiting, status := new }
            else { s with phase := .waiting })
      | _ => none
  | .tick =>
      -- the `select!` is biased: once the token has fired, the interval is not looked at
      if s.phase = .waiting ∧ s.dropped = false then some { s with phase := .probing } else none
  | .exit => if s.phase = .waiting ∧ s.dropped = true then some { s with phase := .ended } else none
  | .subscribe =>
      -- `subscribe` of the checker, or a clone of another receiver
      if 0 < s.receivers then some { s with subscribers := s.subscribers + 1 } else none
  | .unsubscribe => if 0 < s.subscribers then some { s with subscribers := s.subscribers - 1 } else none
  | .drop => if s.dropped = false then some { s with dropped := true } else none

/-- What a step publishes. -/
def published (s : State) : Act → List HealthStatus
  | .publish =>
      match s.phase with
      | .publishing new => if s.Publishes new then [new] else []
      | _ => []
  | _ => []

/-- What an enabled action requires, what it leaves and what it publishes. -/
inductive Moves (s : State) : Act → State → List HealthStatus → Prop where
  | probed {result : Option (Except Error Unit)} (hphase : s.phase = .probing) :
      Moves s (.probed result) { s with phase := .publishing (newStatus result) } []
  | publish {new : HealthStatus} (hphase : s.phase = .publishing new) (hnew : s.Publishes new) :
      Moves s .publish { s with phase := .waiting, status := new } [new]
  | skip {new : HealthStatus} (hphase : s.phase = .publishing new) (hnew : ¬s.Publishes new) :
      Moves s .publish { s with phase := .waiting } []
  | tick (hphase : s.phase = .waiting) (hdropped : s.dropped = false) :
      Moves s .tick { s with phase := .probing } []
  | exit (hphase : s.phase = .waiting) (hdropped : s.dropped = true) :
      Moves s .exit { s with phase := .ended } []
  | subscribe (hopen : 0 < s.receivers) :
      Moves s .subscribe { s with subscribers := s.subscribers + 1 } []
  | unsubscribe (hsome : 0 < s.subscribers) :
      Moves s .unsubscribe { s with subscribers := s.subscribers - 1 } []
  | drop (hdropped : s.dropped = false) : Moves s .drop { s with dropped := true } []

variable {s t : State} {a : Act}

theorem moves_of_step (h : step s a = some t) : ∃ new, published s a = new ∧ Moves s a t new := by
  cases a with
  | probed result =>
      simp only [step] at h
      split at h <;> cases h
      exact ⟨[], rfl, .probed ‹_›⟩
  | publish =>
      simp only [step] at h
      split at h
      · rename_i new hphase
        cases h
        simp only [published, hphase]
        split
        · exact ⟨_, rfl, .publish hphase ‹_›⟩
        · exact ⟨_, rfl, .skip hphase ‹_›⟩
      · cases h
  | tick =>
      simp only [step] at h
      split at h <;> cases h
      rename_i hguard
      exact ⟨[], rfl, .tick hguard.1 hguard.2⟩
  | exit =>
      simp only [step] at h
      split at h <;> cases h
      rename_i hguard
      exact ⟨[], rfl, .exit hguard.1 hguard.2⟩
  | subscribe =>
      simp only [step] at h
      split at h <;> cases h
      exact ⟨[], rfl, .subscribe ‹_›⟩
  | unsubscribe =>
      simp only [step] at h
      split at h <;> cases h
      exact ⟨[], rfl, .unsubscribe ‹_›⟩
  | drop =>
      simp only [step] at h
      split at h <;> cases h
      exact ⟨[], rfl, .drop ‹_›⟩

/-! ### What is published over a run -/

/-- Every two consecutive values differ, the first one from `Unknown`. -/
def Alternating (values : List HealthStatus) : Prop := (HealthStatus.unknown :: values).IsChain (· ≠ ·)

/-- The values so far, which end with the one in the channel. -/
structure Follows (values : List HealthStatus) (s : State) : Prop where
  alternating : Alternating values
  last : (HealthStatus.unknown :: values).getLast? = some s.status

theorem Follows.step {values : List HealthStatus} {new : List HealthStatus} (h : Follows values s)
    (hmoves : Moves s a t new) : Follows (values ++ new) t := by
  cases hmoves with
  | publish hphase hnew =>
      rename_i new
      refine ⟨?_, ?_⟩
      · rw [Alternating, ← List.cons_append, List.isChain_append]
        refine ⟨h.alternating, List.isChain_singleton _, fun x hx y hy => ?_⟩
        rw [h.last, Option.mem_some_iff] at hx
        rw [List.head?_cons, Option.mem_some_iff] at hy
        rw [← hx, ← hy]
        exact hnew.1
      · rw [← List.cons_append, List.getLast?_append]
        rfl
  | _ => exact ⟨by rw [List.append_nil]; exact h.alternating, by rw [List.append_nil]; exact h.last⟩

theorem follows_run {acts : List Act} (hrun : Transition.run step init acts = some s) :
    Follows (Transition.trace step published init acts) s := by
  refine Transition.run_invariant_observed (P := Follows) (fun values s a t h hstep => ?_)
    ⟨List.isChain_singleton _, rfl⟩ hrun
  obtain ⟨new, hnew, hmoves⟩ := moves_of_step hstep
  rw [hnew]
  exact h.step hmoves

/-! ### What is published after the drop -/

/-- Nothing is published from here on. -/
def Silent (s : State) : Prop :=
  ∀ acts t, Transition.run step s acts = some t → Transition.trace step published s acts = []

/-- The drop falls where the task publishes nothing more: there is no other subscriber, or the task waits
for the interval, or it is about to compare an outcome that is no news. -/
def State.Calm (s : State) : Prop :=
  s.subscribers = 0 ∨ s.phase = .waiting ∨ s.phase = .publishing s.status

/-- The checker is gone and the task has no probe to report. -/
structure Quiet (s : State) : Prop where
  dropped : s.dropped = true
  calm : s.Calm ∨ s.phase = .ended

theorem receivers_of_dropped (h : s.dropped = true) : s.receivers = s.subscribers := by
  simp [State.receivers, h]

theorem Quiet.step {new : List HealthStatus} (h : Quiet s) (hmoves : Moves s a t new) :
    new = [] ∧ Quiet t := by
  have hreceivers := receivers_of_dropped h.dropped
  cases hmoves with
  | probed hphase =>
      have hnone : s.subscribers = 0 := by simpa [State.Calm, hphase] using h.calm
      exact ⟨rfl, h.dropped, Or.inl (Or.inl hnone)⟩
  | publish hphase hnew =>
      rw [State.Publishes, hreceivers] at hnew
      rcases h.calm with (hnone | hwaiting | hsame) | hended
      · omega
      · rw [hphase] at hwaiting
        cases hwaiting
      · rw [hphase] at hsame
        cases hsame
        exact absurd rfl hnew.1
      · rw [hphase] at hended
        cases hended
  | skip => exact ⟨rfl, h.dropped, Or.inl (Or.inr (Or.inl rfl))⟩
  | tick hphase hdropped =>
      rw [h.dropped] at hdropped
      cases hdropped
  | exit => exact ⟨rfl, h.dropped, Or.inr rfl⟩
  | subscribe hopen =>
      rw [hreceivers] at hopen
      refine ⟨rfl, h.dropped, ?_⟩
      rcases h.calm with (hnone | hphase) | hended
      · omega
      · exact Or.inl (Or.inr hphase)
      · exact Or.inr hended
  | unsubscribe hsome =>
      refine ⟨rfl, h.dropped, ?_⟩
      rcases h.calm with (hnone | hphase) | hended
      · omega
      · exact Or.inl (Or.inr hphase)
      · exact Or.inr hended
  | drop hdropped =>
      rw [h.dropped] at hdropped
      cases hdropped

theorem Quiet.silent (h : Quiet s) : Silent s := by
  intro acts t hrun
  refine (Transition.run_invariant_observed (P := fun seen s => seen = [] ∧ Quiet s)
    (fun seen s a t h hstep => ?_) ⟨rfl, h⟩ hrun).1
  obtain ⟨new, hnew, hmoves⟩ := moves_of_step hstep
  obtain ⟨hnil, ht⟩ := h.2.step hmoves
  exact ⟨by rw [h.1, hnew, hnil]; rfl, ht⟩

/-- A task that is not cancelled does not end. -/
theorem ended_run {acts : List Act} (hrun : Transition.run step init acts = some s)
    (hended : s.phase = .ended) : s.dropped = true := by
  refine Transition.run_invariant (P := fun s => s.phase = .ended → s.dropped = true)
    (fun s a t h hstep => ?_) (fun h => by cases h) hrun hended
  obtain ⟨new, -, hmoves⟩ := moves_of_step hstep
  cases hmoves with
  | exit _ hdropped => exact fun _ => hdropped
  | subscribe | unsubscribe => exact h
  | drop => exact fun _ => rfl
  | _ => nofun

/-- A probe can end with news. -/
theorem exists_news (status : HealthStatus) : ∃ result, status ≠ newStatus result := by
  cases status with
  | healthy => exact ⟨none, nofun⟩
  | unknown | unhealthy => exact ⟨some (.ok ()), nofun⟩

theorem not_silent_of_publishing {new : HealthStatus} (hdropped : s.dropped = true)
    (hsome : 0 < s.subscribers) (hphase : s.phase = .publishing new) (hnew : s.status ≠ new) :
    ¬Silent s := by
  intro hsilent
  have hpublishes : s.Publishes new := ⟨hnew, by rwa [receivers_of_dropped hdropped]⟩
  have hstep : step s .publish = some { s with phase := .waiting, status := new } := by
    simp only [step, hphase, if_pos hpublishes]
  have htrace := hsilent [.publish] _ (Transition.run_cons_eq_some.mpr ⟨_, hstep, rfl⟩)
  simp [Transition.trace, published, hphase, hpublishes] at htrace

theorem not_silent_of_probing (hdropped : s.dropped = true) (hsome : 0 < s.subscribers)
    (hphase : s.phase = .probing) : ¬Silent s := by
  intro hsilent
  obtain ⟨result, hresult⟩ := exists_news s.status
  have hstep : step s (.probed result) = some { s with phase := .publishing (newStatus result) } := by
    simp only [step, hphase]
  refine not_silent_of_publishing (s := { s with phase := .publishing (newStatus result) }) hdropped hsome
    rfl hresult fun acts t hrun => ?_
  have htrace := hsilent (.probed result :: acts) t (Transition.run_cons_eq_some.mpr ⟨_, hstep, hrun⟩)
  rwa [Transition.trace, hstep] at htrace

/-- In every run the published values alternate, and a checker dropped at its end publishes nothing more
if and only if the drop falls into the wait, or before a comparison without news, or nobody else has
subscribed. -/
theorem silent_iff_calm {acts : List Act} (hrun : Transition.run step init acts = some s) :
    Alternating (Transition.trace step published init acts) ∧
      ∀ t, step s .drop = some t → (Silent t ↔ s.Calm) := by
  refine ⟨(follows_run hrun).alternating, fun t hdrop => ?_⟩
  have hended := ended_run hrun
  obtain ⟨new, -, hmoves⟩ := moves_of_step hdrop
  cases hmoves with
  | drop hdropped =>
      refine ⟨fun hsilent => ?_, fun hcalm => Quiet.silent ⟨rfl, Or.inl hcalm⟩⟩
      by_contra hnot
      simp only [State.Calm, not_or] at hnot
      have hsome : 0 < s.subscribers := Nat.pos_of_ne_zero hnot.1
      cases hphase : s.phase with
      | probing => exact not_silent_of_probing (s := { s with dropped := true }) rfl hsome hphase hsilent
      | publishing new =>
          refine not_silent_of_publishing (s := { s with dropped := true }) rfl hsome hphase
            (fun hsame => ?_) hsilent
          exact hnot.2.2 (hphase.trans (congrArg Phase.publishing hsame.symm))
      | waiting => exact hnot.2.1 hphase
      | ended =>
          rw [hdropped] at hended
          exact absurd (hended hphase) nofun

/-- The checker is dropped in the wait after the first probe. -/
theorem silent_iff_calm_waiting :
    Transition.run step init [.subscribe, .probed (some (.ok ())), .publish] =
        some ⟨.waiting, .healthy, false, 1⟩ ∧
      step ⟨.waiting, .healthy, false, 1⟩ .drop = some ⟨.waiting, .healthy, true, 1⟩ ∧
      Silent ⟨.waiting, .healthy, true, 1⟩ := by
  have hrun : Transition.run step init [.subscribe, .probed (some (.ok ())), .publish] =
      some ⟨.waiting, .healthy, false, 1⟩ := rfl
  exact ⟨hrun, rfl, ((silent_iff_calm hrun).2 _ rfl).mpr (Or.inr (Or.inl rfl))⟩

/-- The first probe is in flight when the checker is dropped, and its outcome is published. -/
theorem not_silent_probeInFlight : ∃ s t, Transition.run step init [.subscribe] = some s ∧
    step s .drop = some t ∧
    Transition.trace step published t [.probed (some (.ok ())), .publish] = [.healthy] ∧ ¬Silent t := by
  refine ⟨_, _, rfl, rfl, rfl, fun hsilent => ?_⟩
  have htrace := hsilent [.probed (some (.ok ())), .publish] ⟨.waiting, .healthy, true, 1⟩ rfl
  exact absurd htrace (by decide)

end Quorums.Health
