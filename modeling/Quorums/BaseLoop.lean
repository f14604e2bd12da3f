import Mathlib.Data.List.Induction

/-! Loops that read a channel. A pass of the loop takes the next item and either goes on with a new
state or leaves with a result; when the channel closes, the loop leaves with a result made from its
state. What such a loop does is a function of the items in their order of arrival. -/

/-- A receive loop with state `σ` over items `α` and results `ρ`. -/
structure ReceiveLoop (σ α ρ : Type*) where
  start : σ
  take : σ → α → Except ρ σ
  closed : σ → ρ

namespace ReceiveLoop

variable {σ α ρ : Type*} (l : ReceiveLoop σ α ρ)

/-- The state after the items have arrived, or the result with which the loop has left. -/
def after (arrivals : List α) : Except ρ σ := arrivals.foldlM l.take l.start

/-- The result of the loop if it leaves within the items. -/
def exit? (arrivals : List α) : Option ρ :=
  match l.after arrivals with
  | .error r => some r
  | .ok _ => none

/-- The result of the loop if the channel closes after the items. -/
def result (arrivals : List α) : ρ :=
  match l.after arrivals with
  | .error r => r
  | .ok s => l.closed s

/-- The loop on items that are read through `g`. -/
def comap {β : Type*} (g : β → α) : ReceiveLoop σ β ρ where
  start := l.start
  take s x := l.take s (g x)
  closed := l.closed

variable {l}

@[simp] theorem after_nil : l.after [] = .ok l.start := rfl

theorem after_append_singleton (arrivals : List α) (x : α) :
    l.after (arrivals ++ [x]) = (l.after arrivals).bind fun s => l.take s x := by
  rw [after, List.foldlM_append]
  cases h : arrivals.foldlM l.take l.start with
  | error r => simp only [after, h]; rfl
  | ok s =>
      simp only [after, h, List.foldlM_cons, List.foldlM_nil, bind_pure]
      rfl

theorem after_append_singleton_eq_ok {arrivals : List α} {x : α} {s : σ} :
    l.after (arrivals ++ [x]) = .ok s ↔ ∃ t, l.after arrivals = .ok t ∧ l.take t x = .ok s := by
  rw [after_append_singleton]
  cases l.after arrivals <;> simp [Except.bind]

theorem exit?_eq_some {arrivals : List α} {r : ρ} :
    l.exit? arrivals = some r ↔ l.after arrivals = .error r := by
  rw [exit?]
  cases l.after arrivals <;> simp

theorem exit?_nil : l.exit? [] = none := rfl

/-- A result at closing that is not made from the state is one with which the loop had left. -/
theorem result_cases (arrivals : List α) :
    l.exit? arrivals = some (l.result arrivals) ∨ ∃ s, l.result arrivals = l.closed s := by
  rw [exit?, result]
  cases l.after arrivals with
  | error r => exact Or.inl rfl
  | ok s => exact Or.inr ⟨s, rfl⟩

theorem exit?_comap {β : Type*} (g : β → α) (arrivals : List β) :
    (l.comap g).exit? arrivals = l.exit? (arrivals.map g) := by
  rw [exit?, exit?, after, after, List.foldlM_map]
  rfl

/-- What holds at the start and is kept by every pass that goes on holds of the state in which the
loop waits for the next item. -/
theorem after_invariant {P : List α → σ → Prop} (hstart : P [] l.start)
    (htake : ∀ arrivals s x t, P arrivals s → l.take s x = .ok t → P (arrivals ++ [x]) t)
    {arrivals : List α} {s : σ} (h : l.after arrivals = .ok s) : P arrivals s := by
  induction arrivals using List.reverseRecOn generalizing s with
  | nil =>
      cases h
      exact hstart
  | append_singleton arrivals x ih =>
      obtain ⟨t, hafter, hstep⟩ := after_append_singleton_eq_ok.mp h
      exact htake arrivals t x s (ih hafter) hstep

section Guarded

-- a loop that goes on as long as a condition holds of the items
variable {arrivals : List α} {p : Prop} [Decidable p] {s : σ} {r : ρ}

theorem exit?_of_after (h : l.after arrivals = if p then .ok s else .error r) :
    l.exit? arrivals = if p then none else some r := by
  rw [exit?, h]
  by_cases hp : p <;> simp [hp]

theorem result_of_after (h : l.after arrivals = if p then .ok s else .error r) :
    l.result arrivals = if p then l.closed s else r := by
  rw [result, h]
  by_cases hp : p <;> simp [hp]

end Guarded

/-- A loop that has left did so in one of its passes. -/
theorem exists_take_of_exit? {arrivals : List α} {r : ρ} (h : l.exit? arrivals = some r) :
    ∃ pre x post s, arrivals = pre ++ x :: post ∧ l.after pre = .ok s ∧ l.take s x = .error r := by
  rw [exit?_eq_some] at h
  induction arrivals using List.reverseRecOn with
  | nil => cases h
  | append_singleton arrivals x ih =>
      rw [after_append_singleton] at h
      cases hafter : l.after arrivals with
      | error r' =>
          rw [hafter] at h
          cases h
          obtain ⟨pre, y, post, s, rfl, hpre, htake⟩ := ih hafter
          exact ⟨pre, y, post ++ [x], s, by simp, hpre, htake⟩
      | ok s =>
          rw [hafter] at h
          exact ⟨arrivals, x, [], s, rfl, hafter, h⟩

end ReceiveLoop
