import Mathlib.Data.List.Basic

/-! Cancellation tokens. A token is created on its own or as the child of another; to cancel a token is to
cancel all tokens below it, those included that are created later, and none above it. Nothing here depends
on what the tokens are for. -/

/-- A forest of tokens, numbered in the order of their creation. The lineage of a token is the token itself,
its parent, and so on; `fired` lists the tokens on which `cancel` was called. -/
structure Tokens where
  lineages : List (List Nat)
  fired : List Nat
  lineage_lt : ∀ l ∈ lineages, ∀ t ∈ l, t < lineages.length
  fired_lt : ∀ t ∈ fired, t < lineages.length

namespace Tokens

def empty : Tokens :=
  ⟨[], [], fun _ hl => (List.not_mem_nil hl).elim, fun _ ht => (List.not_mem_nil ht).elim⟩

/-- The next token. -/
def count (ts : Tokens) : Nat := ts.lineages.length

def lineage (ts : Tokens) (t : Nat) : List Nat := ts.lineages[t]?.getD []

def cancelled (ts : Tokens) (t : Nat) : Bool := (ts.lineage t).any fun a => a ∈ ts.fired

theorem lt_of_mem_lineage {ts : Tokens} {t a : Nat} (h : a ∈ ts.lineage t) : a < ts.count := by
  unfold lineage at h
  cases hl : ts.lineages[t]? with
  | none =>
      rw [hl] at h
      exact (List.not_mem_nil h).elim
  | some l =>
      rw [hl] at h
      exact ts.lineage_lt l (List.mem_of_getElem? hl) a h

/-- A token with the given ancestors. -/
def push (ts : Tokens) (above : List Nat) (habove : ∀ a ∈ above, a < ts.count) : Tokens where
  lineages := ts.lineages ++ [ts.count :: above]
  fired := ts.fired
  lineage_lt l hl t ht := by
    rw [List.length_append, List.length_singleton]
    rcases List.mem_append.mp hl with hold | hnew
    · exact Nat.lt_succ_of_lt (ts.lineage_lt l hold t ht)
    · rw [List.mem_singleton.mp hnew] at ht
      rcases List.mem_cons.mp ht with rfl | hmem
      · exact Nat.lt_succ_self _
      · exact Nat.lt_succ_of_lt (habove t hmem)
  fired_lt t ht := by
    rw [List.length_append, List.length_singleton]
    exact Nat.lt_succ_of_lt (ts.fired_lt t ht)

/-- `CancellationToken::new`. -/
def create (ts : Tokens) : Tokens := ts.push [] fun _ ha => (List.not_mem_nil ha).elim

/-- `child_token`. -/
def child (ts : Tokens) (p : Nat) : Tokens := ts.push (ts.lineage p) fun _ ha => lt_of_mem_lineage ha

def cancel (ts : Tokens) (t : Nat) : Tokens :=
  if h : t < ts.count then
    { ts with
      fired := ts.fired ++ [t]
      fired_lt := fun a ha => by
        rcases List.mem_append.mp ha with hold | hnew
        · exact ts.fired_lt a hold
        · rw [List.mem_singleton.mp hnew]
          exact h }
  else ts

variable {ts : Tokens} {t p a : Nat}

theorem count_push {above : List Nat} (h : ∀ a ∈ above, a < ts.count) : (ts.push above h).count = ts.count + 1 :=
  List.length_append

theorem lineage_push_self {above : List Nat} (h : ∀ a ∈ above, a < ts.count) :
    (ts.push above h).lineage ts.count = ts.count :: above := by
  unfold lineage push count
  rw [List.getElem?_concat_length]
  rfl

theorem lineage_push_of_lt {above : List Nat} (h : ∀ a ∈ above, a < ts.count) (ht : t < ts.count) :
    (ts.push above h).lineage t = ts.lineage t := by
  unfold lineage push
  rw [List.getElem?_append_left ht]

@[simp] theorem lineage_cancel (ts : Tokens) (t x : Nat) : (ts.cancel t).lineage x = ts.lineage x := by
  unfold cancel
  split <;> rfl

@[simp] theorem count_cancel (ts : Tokens) (t : Nat) : (ts.cancel t).count = ts.count := by
  unfold cancel
  split <;> rfl

theorem mem_fired_cancel (ht : t < ts.count) : a ∈ (ts.cancel t).fired ↔ a ∈ ts.fired ∨ a = t := by
  rw [cancel, dif_pos ht]
  show a ∈ ts.fired ++ [t] ↔ _
  rw [List.mem_append, List.mem_singleton]

theorem cancelled_iff : ts.cancelled t = true ↔ ∃ a ∈ ts.lineage t, a ∈ ts.fired := by
  rw [cancelled, List.any_eq_true]
  simp only [decide_eq_true_eq]

/-- A token is cancelled with its parent, or by itself. -/
theorem cancelled_of_lineage (h : ts.lineage t = t :: ts.lineage p) :
    ts.cancelled t = true ↔ t ∈ ts.fired ∨ ts.cancelled p = true := by
  rw [cancelled_iff, cancelled_iff, h]
  constructor
  · rintro ⟨a, ha, hfired⟩
    rcases List.mem_cons.mp ha with rfl | hmem
    · exact Or.inl hfired
    · exact Or.inr ⟨a, hmem, hfired⟩
  · rintro (hfired | ⟨a, ha, hfired⟩)
    · exact ⟨t, List.mem_cons_self, hfired⟩
    · exact ⟨a, List.mem_cons_of_mem t ha, hfired⟩

end Tokens
