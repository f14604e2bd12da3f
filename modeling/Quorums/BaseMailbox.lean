import Mathlib.Data.List.Basic

/-! The channel state behind a sender and a receiver that may each disappear: everything that was
accepted so far, in order, whether the sender is gone, and whether the receiver is. It serves one-shot
and unbounded channels alike; who may send how often is the sender's business. -/

/-- A channel seen from its receiver. -/
structure Mailbox (α : Type) where
  items : List α
  closed : Bool
  dropped : Bool
  deriving DecidableEq

namespace Mailbox

variable {α : Type}

def empty : Mailbox α := ⟨[], false, false⟩

/-- A send is refused, and the value lost, when the receiver is gone. -/
def send (b : Mailbox α) (x : α) : Mailbox α :=
  if b.dropped then b else { b with items := b.items ++ [x] }

/-- The sender is dropped. -/
def close (b : Mailbox α) : Mailbox α := { b with closed := true }

/-- The receiver is dropped. -/
def drop (b : Mailbox α) : Mailbox α := { b with dropped := true }

@[simp] theorem items_close (b : Mailbox α) : b.close.items = b.items := rfl

@[simp] theorem dropped_close (b : Mailbox α) : b.close.dropped = b.dropped := rfl

@[simp] theorem items_drop (b : Mailbox α) : b.drop.items = b.items := rfl

@[simp] theorem dropped_send (b : Mailbox α) (x : α) : (b.send x).dropped = b.dropped := by
  rw [send]
  split <;> simp_all

@[simp] theorem closed_send (b : Mailbox α) (x : α) : (b.send x).closed = b.closed := by
  rw [send]
  split <;> rfl

theorem items_send (b : Mailbox α) (x : α) :
    (b.send x).items = if b.dropped then b.items else b.items ++ [x] := by
  rw [send]
  split <;> rfl

theorem mem_items_send {b : Mailbox α} {x y : α} (h : y ∈ (b.send x).items) :
    y ∈ b.items ∨ y = x := by
  rw [items_send] at h
  split at h
  · exact Or.inl h
  · simpa using h

theorem mem_items_send_of_mem {b : Mailbox α} {y : α} (x : α) (h : y ∈ b.items) :
    y ∈ (b.send x).items := by
  rw [items_send]
  split
  · exact h
  · exact List.mem_append_left _ h

/-- What was sent last is there, or nobody can look. -/
theorem mem_items_send_self (b : Mailbox α) (x : α) :
    x ∈ (b.send x).items ∨ (b.send x).dropped = true := by
  rw [items_send, dropped_send]
  split
  · rename_i h
    exact Or.inr h
  · exact Or.inl (by simp)

theorem length_items_send_le (b : Mailbox α) (x : α) :
    (b.send x).items.length ≤ b.items.length + 1 := by
  rw [items_send]
  split <;> simp

end Mailbox
