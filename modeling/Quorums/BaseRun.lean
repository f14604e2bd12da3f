import Mathlib.Data.List.Basic

/-! Runs of a partial step function. A system is given by `step : σ → α → Option σ`, where `none` says
that the action is not enabled; a run is a list of actions. Invariants are proved once for a step and
carried to every run by the rules below. Nothing here depends on what is modelled. -/

namespace Transition

variable {σ α : Type*} (step : σ → α → Option σ)

/-- Carry out the actions in order. -/
def run : σ → List α → Option σ
  | s, [] => some s
  | s, a :: acts => (step s a).bind fun t => run t acts

@[simp] theorem run_nil (s : σ) : run step s [] = some s := rfl

theorem run_cons (s : σ) (a : α) (acts : List α) :
    run step s (a :: acts) = (step s a).bind fun t => run step t acts := rfl

theorem run_eq_foldlM (s : σ) (acts : List α) : run step s acts = acts.foldlM step s := by
  induction acts generalizing s with
  | nil => rfl
  | cons a acts ih =>
      rw [run_cons, List.foldlM_cons]
      exact congrArg _ (funext fun t => ih t)

variable {step}

theorem run_cons_eq_some {s u : σ} {a : α} {acts : List α} :
    run step s (a :: acts) = some u ↔ ∃ t, step s a = some t ∧ run step t acts = some u := by
  rw [run_cons, Option.bind_eq_some_iff]

theorem run_append_eq_some {s u : σ} {pre post : List α} :
    run step s (pre ++ post) = some u ↔ ∃ t, run step s pre = some t ∧ run step t post = some u := by
  induction pre generalizing s with
  | nil => simp
  | cons a pre ih =>
      simp only [List.cons_append, run_cons_eq_some, ih]
      constructor
      · rintro ⟨t, hstep, m, hpre, hpost⟩
        exact ⟨m, ⟨t, hstep, hpre⟩, hpost⟩
      · rintro ⟨m, ⟨t, hstep, hpre⟩, hpost⟩
        exact ⟨t, hstep, m, hpre, hpost⟩

/-- What is observed of the outcome of a run holds of the state it ends in. -/
theorem eq_of_run_map {β : Type*} {f : σ → β} {s u : σ} {acts : List α} {v : β}
    (hobs : (run step s acts).map f = some v) (hrun : run step s acts = some u) : f u = v := by
  rw [hrun, Option.map_some] at hobs
  exact Option.some.inj hobs

/-- A part that is observed in the outcome of a run is a part of the state it ends in. -/
theorem exists_of_run_map {β γ : Type*} {f : σ → Option β} {g : β → γ} {s u : σ} {acts : List α} {v : γ}
    (hobs : (run step s acts).map (fun t => (f t).map g) = some (some v)) (hrun : run step s acts = some u) :
    ∃ x, f u = some x ∧ g x = v := by
  have hpart : (f u).map g = some v := eq_of_run_map (f := fun t => (f t).map g) hobs hrun
  exact Option.map_eq_some_iff.mp hpart

/-- A step that is seen through `f` as a step of another system gives runs that are seen so. -/
theorem run_map {τ : Type*} {step' : τ → α → Option τ} {f : σ → τ}
    (hstep : ∀ s a, (step s a).map f = step' (f s) a) (s : σ) (acts : List α) :
    (run step s acts).map f = run step' (f s) acts := by
  induction acts generalizing s with
  | nil => rfl
  | cons a acts ih =>
      rw [run_cons, run_cons, ← hstep]
      cases step s a with
      | none => rfl
      | some t => exact ih t

/-- What every step keeps, every run keeps. -/
theorem run_invariant {P : σ → Prop} (hstep : ∀ s a t, P s → step s a = some t → P t)
    {s u : σ} {acts : List α} (hs : P s) (hrun : run step s acts = some u) : P u := by
  induction acts generalizing s with
  | nil =>
      rw [run_nil, Option.some.injEq] at hrun
      rwa [← hrun]
  | cons a acts ih =>
      obtain ⟨t, ha, hacts⟩ := run_cons_eq_some.mp hrun
      exact ih (hstep s a t hs ha) hacts

/-- A reflexive and transitive relation that every step respects relates the two ends of a run. -/
theorem run_relation {R : σ → σ → Prop} (hrefl : ∀ s, R s s)
    (htrans : ∀ s t u, R s t → R t u → R s u) (hstep : ∀ s a t, step s a = some t → R s t)
    {s u : σ} {acts : List α} (hrun : run step s acts = some u) : R s u :=
  run_invariant (P := R s) (fun t a v ht ha => htrans s t v ht (hstep t a v ha)) (hrefl s) hrun

/-- Every action of the run meets `ok` in the state in which it is taken. -/
def Within (step : σ → α → Option σ) (ok : σ → α → Prop) : σ → List α → Prop
  | _, [] => True
  | s, a :: acts => ok s a ∧ ∀ t, step s a = some t → Within step ok t acts

theorem within_cons {ok : σ → α → Prop} {s t : σ} {a : α} {acts : List α} (hstep : step s a = some t)
    (hok : ok s a) (hacts : Within step ok t acts) : Within step ok s (a :: acts) := by
  refine ⟨hok, fun u hu => ?_⟩
  rw [hstep, Option.some.injEq] at hu
  rwa [← hu]

/-- A condition on the actions alone. -/
theorem within_of_forall {ok : α → Prop} {s : σ} {acts : List α} (h : ∀ a ∈ acts, ok a) :
    Within step (fun _ => ok) s acts := by
  induction acts generalizing s with
  | nil => trivial
  | cons a acts ih =>
      exact ⟨h a List.mem_cons_self, fun t _ => ih fun b hb => h b (List.mem_cons_of_mem a hb)⟩

theorem Within.and {ok ok' : σ → α → Prop} {s : σ} {acts : List α} (h : Within step ok s acts)
    (h' : Within step ok' s acts) : Within step (fun s a => ok s a ∧ ok' s a) s acts := by
  induction acts generalizing s with
  | nil => trivial
  | cons a acts ih => exact ⟨⟨h.1, h'.1⟩, fun t hstep => ih (h.2 t hstep) (h'.2 t hstep)⟩

theorem Within.imp {ok ok' : σ → α → Prop} (himp : ∀ s a, ok s a → ok' s a) {s : σ} {acts : List α}
    (h : Within step ok s acts) : Within step ok' s acts := by
  induction acts generalizing s with
  | nil => trivial
  | cons a acts ih => exact ⟨himp s a h.1, fun t hstep => ih (h.2 t hstep)⟩

/-- A condition on the steps of the system that is seen through `f`. -/
theorem within_map {τ : Type*} {step' : τ → α → Option τ} {f : σ → τ} {ok : τ → α → Prop}
    (hstep : ∀ s a, (step s a).map f = step' (f s) a) {s : σ} {acts : List α}
    (h : Within step' ok (f s) acts) : Within step (fun s a => ok (f s) a) s acts := by
  induction acts generalizing s with
  | nil => trivial
  | cons a acts ih =>
      refine ⟨h.1, fun t ht => ih (h.2 (f t) ?_)⟩
      rw [← hstep, ht, Option.map_some]

theorem within_iff {ok : σ → α → Prop} {s : σ} {acts : List α} :
    Within step ok s acts ↔
      ∀ pre a post t, acts = pre ++ a :: post → run step s pre = some t → ok t a := by
  induction acts generalizing s with
  | nil => simp [Within]
  | cons b acts ih =>
      constructor
      · rintro ⟨hok, hrest⟩ pre a post t hsplit hrun
        cases pre with
        | nil =>
            cases hsplit
            cases hrun
            exact hok
        | cons c pre =>
            cases hsplit
            obtain ⟨u, hstep, hpre⟩ := run_cons_eq_some.mp hrun
            exact ih.mp (hrest u hstep) pre a post t rfl hpre
      · intro h
        refine ⟨h [] b acts s rfl rfl, fun t hstep => ih.mpr fun pre a post u hsplit hrun => ?_⟩
        exact h (b :: pre) a post u (by rw [hsplit]; rfl) (run_cons_eq_some.mpr ⟨t, hstep, hrun⟩)

/-- Two conditions that agree in the states that meet an invariant, where the one keeps it. -/
theorem within_congr {ok ok' : σ → α → Prop} {good : α → Prop} {I : σ → Prop}
    (hiff : ∀ s a, I s → good a → (ok s a ↔ ok' s a))
    (hstep : ∀ s a t, I s → good a → ok s a → step s a = some t → I t)
    {s : σ} {acts : List α} (hI : I s) (hacts : ∀ a ∈ acts, good a) :
    Within step ok s acts ↔ Within step ok' s acts := by
  induction acts generalizing s with
  | nil => exact Iff.rfl
  | cons a acts ih =>
      have ha := hacts a List.mem_cons_self
      have hrest : ∀ b ∈ acts, good b := fun b hb => hacts b (List.mem_cons_of_mem a hb)
      constructor
      · rintro ⟨hok, hwithin⟩
        refine ⟨(hiff s a hI ha).mp hok, fun t ht => ?_⟩
        exact (ih (hstep s a t hI ha hok ht) hrest).mp (hwithin t ht)
      · rintro ⟨hok', hwithin⟩
        have hok := (hiff s a hI ha).mpr hok'
        refine ⟨hok, fun t ht => ?_⟩
        exact (ih (hstep s a t hI ha hok ht) hrest).mpr (hwithin t ht)

theorem within_append {ok : σ → α → Prop} {s t : σ} {pre post : List α} (hrun : run step s pre = some t)
    (hpre : Within step ok s pre) (hpost : Within step ok t post) : Within step ok s (pre ++ post) := by
  induction pre generalizing s with
  | nil =>
      cases hrun
      exact hpost
  | cons a pre ih =>
      obtain ⟨u, hstep, hrest⟩ := run_cons_eq_some.mp hrun
      exact within_cons hstep hpre.1 (ih hrest (hpre.2 u hstep))

/-- The rule for runs whose actions all meet a condition: the step lemma may use it. -/
theorem run_invariant_within {ok : σ → α → Prop} {P : σ → Prop}
    (hstep : ∀ s a t, P s → ok s a → step s a = some t → P t)
    {s u : σ} {acts : List α} (hs : P s) (hok : Within step ok s acts)
    (hrun : run step s acts = some u) : P u := by
  induction acts generalizing s with
  | nil =>
      rw [run_nil, Option.some.injEq] at hrun
      rwa [← hrun]
  | cons a acts ih =>
      obtain ⟨t, ha, hacts⟩ := run_cons_eq_some.mp hrun
      exact ih (hstep s a t hs hok.1 ha) (hok.2 t ha) hacts

/-- A rule for exact conditions. Where a step, taken in a state with the invariant `I`, keeps `P` exactly
when it meets `ok`, all states of a run have `P` exactly when all its steps meet `ok`. -/
theorem forall_state_iff_within {ok : σ → α → Prop} {good : α → Prop} {I P : σ → Prop}
    (htotal : ∀ s a, I s → good a → ∃ t, step s a = some t ∧ I t)
    (hstep : ∀ s a t, I s → good a → P s → step s a = some t → (P t ↔ ok s a))
    {s : σ} {acts : List α} (hI : I s) (hP : P s) (hacts : ∀ a ∈ acts, good a) :
    (∀ pre post t, acts = pre ++ post → run step s pre = some t → P t) ↔ Within step ok s acts := by
  induction acts generalizing s with
  | nil =>
      refine iff_of_true (fun pre post t hsplit hrun => ?_) trivial
      obtain ⟨rfl, -⟩ := List.append_eq_nil_iff.mp hsplit.symm
      cases hrun
      exact hP
  | cons a acts ih =>
      have ha := hacts a List.mem_cons_self
      have hrest : ∀ b ∈ acts, good b := fun b hb => hacts b (List.mem_cons_of_mem a hb)
      obtain ⟨t, hat, hIt⟩ := htotal s a hI ha
      have hiff := hstep s a t hI ha hP hat
      constructor
      · intro h
        have hPt : P t := h [a] acts t rfl (run_cons_eq_some.mpr ⟨t, hat, rfl⟩)
        refine within_cons hat (hiff.mp hPt) ((ih hIt hPt hrest).mp fun pre post u hsplit hrun => ?_)
        exact h (a :: pre) post u (by rw [hsplit]; rfl) (run_cons_eq_some.mpr ⟨t, hat, hrun⟩)
      · rintro ⟨hok, hwithin⟩ pre post u hsplit hrun
        cases pre with
        | nil =>
            cases hrun
            exact hP
        | cons b pre =>
            cases hsplit
            obtain ⟨t', hat', hpre⟩ := run_cons_eq_some.mp hrun
            obtain rfl : t' = t := Option.some.inj (hat'.symm.trans hat)
            exact (ih hIt (hiff.mpr hok) hrest).mpr (hwithin t' hat) pre post u rfl hpre

/-- The same for a reflexive and transitive relation between the states of a run. -/
theorem forall_related_iff_within {ok : σ → α → Prop} {good : α → Prop} {I : σ → Prop} {R : σ → σ → Prop}
    (hrefl : ∀ s, R s s) (htrans : ∀ s t u, R s t → R t u → R s u)
    (htotal : ∀ s a, I s → good a → ∃ t, step s a = some t ∧ I t)
    (hstep : ∀ s a t, I s → good a → step s a = some t → (R s t ↔ ok s a))
    {s : σ} {acts : List α} (hI : I s) (hacts : ∀ a ∈ acts, good a) :
    (∀ pre mid post t u, acts = pre ++ mid ++ post → run step s pre = some t → run step t mid = some u →
      R t u) ↔ Within step ok s acts := by
  have hinv {t u : σ} {mid : List α} (ht : I t) (hmid : ∀ a ∈ mid, good a)
      (hrun : run step t mid = some u) : I u := by
    have hwithin : Within step (fun _ => good) t mid := within_of_forall hmid
    refine run_invariant_within (fun s a v hs ha hv => ?_) ht hwithin hrun
    obtain ⟨v', hv', hI'⟩ := htotal s a hs ha
    cases hv.symm.trans hv'
    exact hI'
  rw [within_iff]
  constructor
  · intro h pre a post t hsplit hrun
    have hpre : ∀ b ∈ pre, good b := fun b hb => hacts b (by rw [hsplit]; exact List.mem_append_left _ hb)
    have ha : good a := hacts a (by rw [hsplit]; simp)
    have ht := hinv hI hpre hrun
    obtain ⟨u, hu, -⟩ := htotal t a ht ha
    refine (hstep t a u ht ha hu).mp (h pre [a] post t u ?_ hrun (run_cons_eq_some.mpr ⟨u, hu, rfl⟩))
    rw [hsplit, List.append_assoc]
    rfl
  · intro h pre mid post t u hsplit hrun hmid
    induction mid generalizing pre t with
    | nil =>
        cases hmid
        exact hrefl u
    | cons a mid ih =>
        obtain ⟨v, hv, hrest⟩ := run_cons_eq_some.mp hmid
        have hsplit' : acts = pre ++ a :: (mid ++ post) := by
          rw [hsplit, List.append_assoc]
          rfl
        have hpre : ∀ b ∈ pre, good b := fun b hb =>
          hacts b (by rw [hsplit']; exact List.mem_append_left _ hb)
        have hfirst : R t v := (hstep t a v (hinv hI hpre hrun) (hacts a (by rw [hsplit']; simp)) hv).mpr
          (h pre a (mid ++ post) t hsplit' hrun)
        refine htrans t v u hfirst (ih (pre ++ [a]) v ?_ ?_ hrest)
        · rw [hsplit', List.append_assoc, List.append_assoc]
          rfl
        · exact run_append_eq_some.mpr ⟨t, hrun, run_cons_eq_some.mpr ⟨v, hv, rfl⟩⟩

/-- A rule for progress: where some action that meets `ok` reaches the goal or lowers a rank, a run of
such actions reaches the goal. -/
theorem exists_run_of_rank {ok : α → Prop} {P goal : σ → Prop} (rank : σ → Nat)
    (hstep : ∀ s, P s → ∃ a t, ok a ∧ step s a = some t ∧ (goal t ∨ P t ∧ rank t < rank s))
    {s : σ} (hs : P s) : ∃ acts t, (∀ a ∈ acts, ok a) ∧ run step s acts = some t ∧ goal t := by
  induction hn : rank s using Nat.strongRecOn generalizing s with
  | ind n ih =>
      obtain ⟨a, t, hok, ha, hgoal | ⟨ht, hlt⟩⟩ := hstep s hs
      · exact ⟨[a], t, by simpa using hok, run_cons_eq_some.mpr ⟨t, ha, rfl⟩, hgoal⟩
      · obtain ⟨acts, u, hacts, hrun, hgoal⟩ := ih (rank t) (hn ▸ hlt) ht rfl
        exact ⟨a :: acts, u, List.forall_mem_cons.mpr ⟨hok, hacts⟩, run_cons_eq_some.mpr ⟨t, ha, hrun⟩,
          hgoal⟩

/-- What is observed along a run: `obs s a` when the action `a` is taken in the state `s`. -/
def trace {β : Type*} (step : σ → α → Option σ) (obs : σ → α → List β) : σ → List α → List β
  | _, [] => []
  | s, a :: acts => obs s a ++ ((step s a).map fun t => trace step obs t acts).getD []

theorem trace_append {β : Type*} {obs : σ → α → List β} {s t : σ} {pre post : List α}
    (hrun : run step s pre = some t) :
    trace step obs s (pre ++ post) = trace step obs s pre ++ trace step obs t post := by
  induction pre generalizing s with
  | nil =>
      cases hrun
      rfl
  | cons a pre ih =>
      obtain ⟨u, hstep, hrest⟩ := run_cons_eq_some.mp hrun
      simp only [List.cons_append, trace, hstep, Option.map_some, Option.getD_some, ih hrest,
        List.append_assoc]

/-- The rule for invariants that speak of what was observed so far. -/
theorem run_invariant_trace {β : Type*} {obs : σ → α → List β} {ok : σ → α → Prop} {P : List β → σ → Prop}
    (hstep : ∀ seen s a t, P seen s → ok s a → step s a = some t → P (seen ++ obs s a) t)
    {s u : σ} {acts : List α} {seen : List β} (hs : P seen s) (hok : Within step ok s acts)
    (hrun : run step s acts = some u) : P (seen ++ trace step obs s acts) u := by
  induction acts generalizing s seen with
  | nil =>
      rw [run_nil, Option.some.injEq] at hrun
      rw [trace, List.append_nil, ← hrun]
      exact hs
  | cons a acts ih =>
      obtain ⟨t, ha, hacts⟩ := run_cons_eq_some.mp hrun
      have hrest := ih (hstep seen s a t hs hok.1 ha) (hok.2 t ha) hacts
      rw [trace, ha, Option.map_some, Option.getD_some, ← List.append_assoc]
      exact hrest

/-- The same rule for any run, from its start. -/
theorem run_invariant_observed {β : Type*} {obs : σ → α → List β} {P : List β → σ → Prop}
    (hstep : ∀ seen s a t, P seen s → step s a = some t → P (seen ++ obs s a) t)
    {s u : σ} {acts : List α} (hs : P [] s) (hrun : run step s acts = some u) :
    P (trace step obs s acts) u := by
  have hok : Within step (fun _ _ => True) s acts := within_of_forall fun _ _ => trivial
  exact run_invariant_trace (fun seen s a t h _ ha => hstep seen s a t h ha) hs hok hrun

theorem trace_actions {s u : σ} {acts : List α} (hrun : run step s acts = some u) :
    trace step (fun _ a => [a]) s acts = acts := by
  induction acts generalizing s with
  | nil => rfl
  | cons a acts ih =>
      obtain ⟨t, ha, hacts⟩ := run_cons_eq_some.mp hrun
      rw [trace, ha, Option.map_some, Option.getD_some, ih hacts]
      rfl

/-- The rule for invariants that speak of the actions taken so far. -/
theorem run_invariant_history {P : List α → σ → Prop}
    (hstep : ∀ past s a t, P past s → step s a = some t → P (past ++ [a]) t)
    {s u : σ} {acts : List α} (hs : P [] s) (hrun : run step s acts = some u) : P acts u := by
  have h := run_invariant_observed hstep hs hrun
  rwa [trace_actions hrun] at h

/-! ### Systems that share a state -/

section Mixed

variable {ι : Type*} (steps : ι → σ → α → Option σ)

/-- The steps of several systems on one state: with each action comes the system that takes it. -/
def mixed (s : σ) (x : ι × α) : Option σ := steps x.1 s x.2

variable {steps} {s : σ} {acts : List α}

/-- A run of one of the systems. -/
theorem run_mixed (i : ι) : run (mixed steps) s (acts.map (Prod.mk i)) = run (steps i) s acts := by
  induction acts generalizing s with
  | nil => rfl
  | cons a acts ih =>
      rw [List.map_cons, run_cons, run_cons]
      exact congrArg _ (funext fun t => ih)

theorem within_mixed (i : ι) {ok : σ → α → Prop} :
    Within (mixed steps) (fun s x => ok s x.2) s (acts.map (Prod.mk i)) ↔ Within (steps i) ok s acts := by
  induction acts generalizing s with
  | nil => rfl
  | cons a acts ih =>
      rw [List.map_cons, Within, Within]
      exact and_congr_right fun _ => forall₂_congr fun t _ => ih

theorem trace_mixed (i : ι) {β : Type*} {obs : ι → σ → α → List β} :
    trace (mixed steps) (fun s x => obs x.1 s x.2) s (acts.map (Prod.mk i)) = trace (steps i) (obs i) s acts := by
  induction acts generalizing s with
  | nil => rfl
  | cons a acts ih =>
      rw [List.map_cons, trace, trace, mixed]
      cases steps i s a with
      | none => rfl
      | some t => exact congrArg (obs i s a ++ ·) ih

end Mixed

end Transition
