import Quorums.ClientRouter

/-! Whole traces of router operations. The channel of the registration of a sequence number carries
that number. What the router holds for one number, its entry and its channel, is a cell; a trace acts on
the cell of a number through the operations that concern the number and through no others. What a
receiver observes is then read off these operations alone. -/

namespace Quorums.Router

/-- The operations of the router, and the loss of a receiver. -/
inductive Op where
  | registerWithSender (seq : Nat)
  | registerStream (seq : Nat)
  | deliver (seq : Nat) (result : Reply)
  | closeStream (seq : Nat)
  | cancelAll (err : Error)
  | dropReceiver (seq : Nat)

def Op.apply (r : Router) : Op → Router
  | .registerWithSender seq => r.registerWithSender seq seq
  | .registerStream seq => r.registerStream seq seq
  | .deliver seq result => r.deliver seq result
  | .closeStream seq => r.closeStream seq
  | .cancelAll err => r.cancelAll err
  | .dropReceiver seq => r.onBox seq Mailbox.drop

/-- The router after a trace. -/
def perform (ops : List Op) : Router := ops.foldl Op.apply new

/-- The number that an operation registers. -/
def Op.registers : Op → Option Nat
  | .registerWithSender seq | .registerStream seq => some seq
  | _ => none

/-- An operation concerns the number it carries; `cancelAll` concerns every number. -/
def Op.concerns (s : Nat) : Op → Bool
  | .registerWithSender seq | .registerStream seq | .deliver seq _ | .closeStream seq
  | .dropReceiver seq => seq == s
  | .cancelAll _ => true

/-- The operations of a trace that concern a number. -/
def about (s : Nat) (ops : List Op) : List Op := ops.filter (Op.concerns s)

/-! ### What a receiver is to observe -/

/-- What the receiver of a one-shot registration is handed: it hears of the first operation only. -/
def answered : List Op → List Reply
  | .deliver _ result :: _ => [result]
  | .cancelAll err :: _ => [.error err]
  | _ => []

/-- What the receiver of a streaming registration is handed. -/
def streamed : List Op → List Reply
  | [] => []
  | .deliver _ result :: ops => result :: streamed ops
  | .cancelAll err :: _ => [.error err]
  | .closeStream _ :: _ => []
  | .dropReceiver _ :: _ => []
  -- not met: no number is registered twice
  | .registerWithSender _ :: _ => []
  | .registerStream _ :: _ => []

/-- The operations that end a stream. -/
def Op.ends : Op → Bool
  | .closeStream _ | .cancelAll _ => true
  | _ => false

/-! ### The cell of a number -/

/-- What the router holds for one sequence number. -/
structure Cell where
  entry : Option PendingCall
  box : Mailbox Reply

/-- The cell of a number. -/
def cell (r : Router) (s : Nat) : Cell := ⟨r.inner.lookup s, r.boxes s⟩

namespace Cell

def init : Cell := ⟨none, Mailbox.empty⟩

/-- A new entry; the sender of an entry that was there is dropped. -/
def register (c : Cell) (p : PendingCall) : Cell :=
  ⟨some p, if c.entry.isSome then c.box.close else c.box⟩

/-- The entry is taken out, once `f` was done to its channel. -/
def settle (c : Cell) (f : Mailbox Reply → Mailbox Reply) : Cell :=
  match c.entry with
  | some _ => ⟨none, (f c.box).close⟩
  | none => c

/-- What an operation that concerns the number `s` does to its cell. -/
def step (s : Nat) (c : Cell) : Op → Cell
  | .registerWithSender _ => c.register (.response s)
  | .registerStream _ => c.register (.stream s)
  | .deliver _ result =>
      match c.entry with
      | some (.stream _) =>
          if c.box.dropped then c.settle id else ⟨c.entry, c.box.send result⟩
      | _ => c.settle fun b => b.send result
  | .closeStream _ => c.settle id
  | .cancelAll err => c.settle fun b => b.send (.error err)
  | .dropReceiver _ => ⟨c.entry, c.box.drop⟩

variable {c : Cell} {s seq d : Nat} {result : Reply} {f : Mailbox Reply → Mailbox Reply}

theorem settle_of_none (h : c.entry = none) : c.settle f = c := by
  rw [settle, h]

theorem settle_of_some {p : PendingCall} (h : c.entry = some p) : c.settle f = ⟨none, (f c.box).close⟩ := by
  rw [settle, h]

theorem step_deliver_of_none (h : c.entry = none) : c.step s (.deliver seq result) = c := by
  rw [step, h]
  exact settle_of_none h

theorem step_deliver_of_response (h : c.entry = some (.response d)) :
    c.step s (.deliver seq result) = c.settle fun b => b.send result := by
  rw [step, h]

theorem step_deliver_of_stream (h : c.entry = some (.stream d)) :
    c.step s (.deliver seq result) =
      if c.box.dropped then c.settle id else ⟨c.entry, c.box.send result⟩ := by
  rw [step, h]

end Cell

/-- Every entry stands under the number of its channel. -/
def Owned (r : Router) : Prop := ∀ s p, r.inner.lookup s = some p → p.caller = s

theorem owned_new : Owned new := by
  intro s p h
  have hnone : new.inner.lookup s = none := AList.lookup_empty s
  rw [hnone] at h
  cases h

variable {r : Router} {s : Nat} {op : Op}

theorem Owned.nodup_callers (h : Owned r) : r.callers.Nodup := by
  refine Router.nodup_callers fun seq seq' p q hp hq hcaller => ?_
  rw [← h seq p hp, hcaller, h seq' q hq]

theorem Owned.mem_callers (h : Owned r) : s ∈ r.callers ↔ (r.inner.lookup s).isSome := by
  rw [Router.mem_callers, Option.isSome_iff_exists]
  constructor
  · rintro ⟨seq, p, hp, rfl⟩
    rw [h seq p hp]
    exact ⟨p, hp⟩
  · rintro ⟨p, hp⟩
    exact ⟨s, p, hp, h s p hp⟩

/-! ### One operation -/

theorem cell_onBox_self (f : Mailbox Reply → Mailbox Reply) :
    (r.onBox s f).cell s = ⟨(r.cell s).entry, f (r.cell s).box⟩ := by
  rw [cell, boxes_onBox_self]
  rfl

theorem cell_onBox_of_ne {c : Nat} {f : Mailbox Reply → Mailbox Reply} (h : s ≠ c) :
    (r.onBox c f).cell s = r.cell s := by
  rw [cell, boxes_onBox_of_ne h]
  rfl

theorem Owned.cell_insert_self (h : Owned r) (p : PendingCall) :
    (r.insert s p).cell s = (r.cell s).register p := by
  rw [insert]
  cases hold : r.inner.lookup s with
  | none => simp only [cell, Cell.register, AList.lookup_insert, hold, Option.isSome_none, Bool.false_eq_true, if_false]
  | some old =>
      dsimp only
      rw [h s old hold, cell, AList.lookup_insert, boxes_onBox_self]
      simp only [cell, Cell.register, hold, Option.isSome_some, if_true]

theorem Owned.cell_insert_of_ne (h : Owned r) {seq : Nat} {p : PendingCall} (hne : s ≠ seq) :
    (r.insert seq p).cell s = r.cell s := by
  rw [insert]
  cases hold : r.inner.lookup seq with
  | none =>
      dsimp only [cell]
      rw [AList.lookup_insert_ne hne]
  | some old =>
      dsimp only
      rw [h seq old hold, cell, AList.lookup_insert_ne hne, boxes_onBox_of_ne hne]
      rfl

/-- Taking out an entry settles its cell. -/
theorem cell_erase_self {p : PendingCall} (h : r.inner.lookup s = some p)
    (f : Mailbox Reply → Mailbox Reply) :
    cell { r.onBox s (fun b => (f b).close) with inner := r.inner.erase s } s = (r.cell s).settle f := by
  rw [Cell.settle_of_some h, cell, AList.lookup_erase, boxes_onBox_self]
  rfl

theorem cell_erase_of_ne {seq : Nat} {f : Mailbox Reply → Mailbox Reply} (hne : s ≠ seq) :
    cell { r.onBox seq f with inner := r.inner.erase seq } s = r.cell s := by
  rw [cell, lookup_erase_of_ne hne, boxes_onBox_of_ne hne]
  rfl

theorem Owned.cell_deliver_self (h : Owned r) (result : Reply) :
    (r.deliver s result).cell s = (r.cell s).step s (.deliver s result) := by
  cases hp : r.inner.lookup s with
  | none =>
      rw [deliver_of_lookup_none hp, Cell.step_deliver_of_none hp]
  | some p =>
      have hcaller := h s p hp
      rw [deliver, hp]
      cases p with
      | response c =>
          obtain rfl : c = s := hcaller
          rw [Cell.step_deliver_of_response hp]
          exact cell_erase_self hp fun b => b.send result
      | stream c =>
          obtain rfl : c = s := hcaller
          rw [Cell.step_deliver_of_stream hp]
          change cell (if (r.cell c).box.dropped then _ else _) c = _
          split
          · exact cell_erase_self hp id
          · exact cell_onBox_self _

theorem Owned.cell_deliver_of_ne (h : Owned r) {seq : Nat} {result : Reply} (hne : s ≠ seq) :
    (r.deliver seq result).cell s = r.cell s := by
  cases hp : r.inner.lookup seq with
  | none => rw [deliver_of_lookup_none hp]
  | some p =>
      have hcaller := h seq p hp
      rw [deliver, hp]
      cases p with
      | response c =>
          obtain rfl : c = seq := hcaller
          exact cell_erase_of_ne hne
      | stream c =>
          obtain rfl : c = seq := hcaller
          dsimp only
          split
          · exact cell_erase_of_ne hne
          · exact cell_onBox_of_ne hne

theorem Owned.cell_closeStream_self (h : Owned r) : (r.closeStream s).cell s = (r.cell s).settle id := by
  cases hp : r.inner.lookup s with
  | none => rw [closeStream_of_lookup_none hp, Cell.settle_of_none hp]
  | some p =>
      rw [closeStream, hp]
      dsimp only
      rw [h s p hp]
      exact cell_erase_self hp id

theorem Owned.cell_closeStream_of_ne (h : Owned r) {seq : Nat} (hne : s ≠ seq) :
    (r.closeStream seq).cell s = r.cell s := by
  cases hp : r.inner.lookup seq with
  | none => rw [closeStream_of_lookup_none hp]
  | some p =>
      rw [closeStream, hp]
      dsimp only
      rw [h seq p hp]
      exact cell_erase_of_ne hne

theorem Owned.cell_cancelAll (h : Owned r) (err : Error) :
    (r.cancelAll err).cell s = (r.cell s).settle fun b => b.send (.error err) := by
  cases hp : r.inner.lookup s with
  | none =>
      have hmem : s ∉ r.callers := by simp [h.mem_callers, hp]
      rw [Cell.settle_of_none hp, cell, lookup_cancelAll, boxes_cancelAll_of_not_mem hmem, cell, hp]
  | some p =>
      have hmem : s ∈ r.callers := by simp [h.mem_callers, hp]
      rw [Cell.settle_of_some hp, cell, lookup_cancelAll, boxes_cancelAll_of_mem h.nodup_callers hmem]
      rfl

/-- An operation that concerns a number acts on its cell. -/
theorem Owned.cell_apply (h : Owned r) (hop : op.concerns s = true) :
    (op.apply r).cell s = (r.cell s).step s op := by
  cases op with
  | registerWithSender seq | registerStream seq =>
      obtain rfl := beq_iff_eq.mp hop
      exact h.cell_insert_self _
  | deliver seq result =>
      obtain rfl := beq_iff_eq.mp hop
      exact h.cell_deliver_self result
  | closeStream seq =>
      obtain rfl := beq_iff_eq.mp hop
      exact h.cell_closeStream_self
  | cancelAll err => exact h.cell_cancelAll err
  | dropReceiver seq =>
      obtain rfl := beq_iff_eq.mp hop
      exact cell_onBox_self Mailbox.drop

/-- An operation that does not concern a number leaves its cell alone. -/
theorem Owned.cell_apply_of_not_concerns (h : Owned r) (hop : op.concerns s = false) :
    (op.apply r).cell s = r.cell s := by
  have hne {seq : Nat} (hbeq : (seq == s) = false) : s ≠ seq := by
    rintro rfl
    simp at hbeq
  cases op with
  | registerWithSender seq | registerStream seq => exact h.cell_insert_of_ne (hne hop)
  | deliver seq result => exact h.cell_deliver_of_ne (hne hop)
  | closeStream seq => exact h.cell_closeStream_of_ne (hne hop)
  | cancelAll err => cases hop
  | dropReceiver seq => exact cell_onBox_of_ne (hne hop)

theorem caller_of_step {c : Cell} (hop : ∀ p, c.entry = some p → p.caller = s) {p : PendingCall}
    (h : (c.step s op).entry = some p) : p.caller = s := by
  have hsettle {f : Mailbox Reply → Mailbox Reply} (h : (c.settle f).entry = some p) : p.caller = s := by
    rw [Cell.settle] at h
    split at h
    · cases h
    · exact hop p h
  cases op with
  | registerWithSender seq | registerStream seq =>
      cases h
      rfl
  | deliver seq result =>
      rw [Cell.step] at h
      split at h
      · split at h
        · exact hsettle h
        · exact hop p h
      · exact hsettle h
  | closeStream seq => exact hsettle h
  | cancelAll err => exact hsettle h
  | dropReceiver seq => exact hop p h

theorem Owned.apply (h : Owned r) (op : Op) : Owned (op.apply r) := by
  intro s p hp
  change ((op.apply r).cell s).entry = some p at hp
  cases hop : op.concerns s with
  | true =>
      rw [h.cell_apply hop] at hp
      exact caller_of_step (h s) hp
  | false =>
      rw [h.cell_apply_of_not_concerns hop] at hp
      exact h s p hp

/-! ### Whole traces -/

theorem about_cons_of_concerns {ops : List Op} (h : op.concerns s = true) :
    about s (op :: ops) = op :: about s ops := List.filter_cons_of_pos h

theorem about_cons_of_not_concerns {ops : List Op} (h : op.concerns s = false) :
    about s (op :: ops) = about s ops := List.filter_cons_of_neg (by simp [h])

theorem perform_append (pre post : List Op) : perform (pre ++ post) = post.foldl Op.apply (perform pre) :=
  List.foldl_append

theorem Owned.foldl (h : Owned r) (ops : List Op) : Owned (ops.foldl Op.apply r) := by
  induction ops generalizing r with
  | nil => exact h
  | cons op ops ih => exact ih (h.apply op)

theorem owned_perform (ops : List Op) : Owned (perform ops) := owned_new.foldl ops

theorem Owned.cell_foldl (h : Owned r) (ops : List Op) :
    (ops.foldl Op.apply r).cell s = (about s ops).foldl (Cell.step s) (r.cell s) := by
  induction ops generalizing r with
  | nil => rfl
  | cons op ops ih =>
      rw [List.foldl_cons, ih (h.apply op)]
      cases hop : op.concerns s with
      | true => rw [h.cell_apply hop, about_cons_of_concerns hop, List.foldl_cons]
      | false => rw [h.cell_apply_of_not_concerns hop, about_cons_of_not_concerns hop]

/-- The cell of a number after a trace: only the operations that concern the number count. -/
theorem cell_perform (ops : List Op) :
    (perform ops).cell s = (about s ops).foldl (Cell.step s) Cell.init :=
  owned_new.cell_foldl ops

/-! ### What is observed -/

/-- The loss of the receiver. -/
def Op.drops : Op → Bool
  | .dropReceiver _ => true
  | _ => false

namespace Cell

variable {c : Cell} {d : Nat} {ops : List Op}

/-- Without an entry only the loss of the receiver leaves a mark. -/
theorem foldl_of_none (h : c.entry = none) (hreg : ∀ op ∈ ops, op.registers = none) :
    ops.foldl (step s) c = ⟨none, if ops.any Op.drops then c.box.drop else c.box⟩ := by
  induction ops generalizing c with
  | nil =>
      rw [← h]
      rfl
  | cons op ops ih =>
      obtain ⟨hhead, hrest⟩ := List.forall_mem_cons.mp hreg
      rw [List.foldl_cons]
      cases op with
      | registerWithSender seq | registerStream seq => cases hhead
      | deliver seq result =>
          rw [step_deliver_of_none h]
          exact ih h hrest
      | closeStream seq =>
          rw [step, settle_of_none h]
          exact ih h hrest
      | cancelAll err =>
          rw [step, settle_of_none h]
          exact ih h hrest
      | dropReceiver seq =>
          rw [step, ih (c := ⟨c.entry, c.box.drop⟩) h hrest]
          simp only [List.any_cons, Op.drops, Bool.true_or, if_true]
          split <;> rfl

theorem items_foldl_of_none (h : c.entry = none) (hreg : ∀ op ∈ ops, op.registers = none) :
    (ops.foldl (step s) c).box.items = c.box.items := by
  rw [foldl_of_none h hreg]
  dsimp only
  split <;> rfl

theorem closed_foldl_of_none (h : c.entry = none) (hreg : ∀ op ∈ ops, op.registers = none) :
    (ops.foldl (step s) c).box.closed = c.box.closed := by
  rw [foldl_of_none h hreg]
  dsimp only
  split <;> rfl

/-- Once its entry is settled, a cell hands out nothing more. -/
theorem items_foldl_settle {p : PendingCall} {f : Mailbox Reply → Mailbox Reply} (h : c.entry = some p)
    (hreg : ∀ op ∈ ops, op.registers = none) :
    (ops.foldl (step s) (c.settle f)).box.items = (f c.box).items := by
  rw [settle_of_some h, items_foldl_of_none rfl hreg]
  rfl

theorem closed_foldl_settle {p : PendingCall} {f : Mailbox Reply → Mailbox Reply} (h : c.entry = some p)
    (hreg : ∀ op ∈ ops, op.registers = none) :
    (ops.foldl (step s) (c.settle f)).box.closed = true := by
  rw [settle_of_some h, closed_foldl_of_none rfl hreg]
  rfl

theorem items_foldl_of_response (h : c.entry = some (.response d))
    (hreg : ∀ op ∈ ops, op.registers = none) :
    (ops.foldl (step s) c).box.items =
      c.box.items ++ if c.box.dropped then [] else answered ops := by
  induction ops generalizing c with
  | nil => simp [answered]
  | cons op ops ih =>
      obtain ⟨hhead, hrest⟩ := List.forall_mem_cons.mp hreg
      rw [List.foldl_cons]
      cases op with
      | registerWithSender seq | registerStream seq => cases hhead
      | deliver seq result =>
          rw [step_deliver_of_response h, items_foldl_settle h hrest, Mailbox.items_send]
          split <;> simp [answered]
      | closeStream seq =>
          rw [step, items_foldl_settle h hrest]
          simp [answered]
      | cancelAll err =>
          rw [step, items_foldl_settle h hrest, Mailbox.items_send]
          split <;> simp [answered]
      | dropReceiver seq =>
          -- the entry stays, but whatever comes is refused
          rw [step, ih (c := ⟨c.entry, c.box.drop⟩) h hrest]
          simp [answered, Mailbox.drop]

theorem closed_foldl_of_response (h : c.entry = some (.response d))
    (hreg : ∀ op ∈ ops, op.registers = none) (hdrop : ∀ op ∈ ops, op.drops = false) :
    (ops.foldl (step s) c).box.closed = (c.box.closed || !ops.isEmpty) := by
  cases ops with
  | nil => simp
  | cons op ops =>
      obtain ⟨hhead, hrest⟩ := List.forall_mem_cons.mp hreg
      have hkept := hdrop op List.mem_cons_self
      rw [List.foldl_cons, List.isEmpty_cons, Bool.not_false, Bool.or_true]
      cases op with
      | registerWithSender seq | registerStream seq => cases hhead
      | deliver seq result =>
          rw [step_deliver_of_response h]
          exact closed_foldl_settle h hrest
      | closeStream seq => exact closed_foldl_settle h hrest
      | cancelAll err => exact closed_foldl_settle (f := fun b => b.send (.error err)) h hrest
      | dropReceiver seq => cases hkept

theorem items_foldl_of_stream (h : c.entry = some (.stream d)) (hreg : ∀ op ∈ ops, op.registers = none) :
    (ops.foldl (step s) c).box.items =
      c.box.items ++ if c.box.dropped then [] else streamed ops := by
  induction ops generalizing c with
  | nil => simp [streamed]
  | cons op ops ih =>
      obtain ⟨hhead, hrest⟩ := List.forall_mem_cons.mp hreg
      rw [List.foldl_cons]
      cases op with
      | registerWithSender seq | registerStream seq => cases hhead
      | deliver seq result =>
          rw [step_deliver_of_stream h]
          split
          · rw [items_foldl_settle h hrest]
            simp
          · rename_i hdropped
            rw [ih (c := ⟨c.entry, c.box.send result⟩) h hrest, Mailbox.items_send, Mailbox.dropped_send,
              if_neg hdropped, if_neg hdropped, List.append_assoc]
            rfl
      | closeStream seq =>
          rw [step, items_foldl_settle h hrest]
          simp [streamed]
      | cancelAll err =>
          rw [step, items_foldl_settle h hrest, Mailbox.items_send]
          split <;> simp [streamed]
      | dropReceiver seq =>
          rw [step, ih (c := ⟨c.entry, c.box.drop⟩) h hrest]
          simp [streamed, Mailbox.drop]

theorem closed_foldl_of_stream (h : c.entry = some (.stream d)) (hlive : c.box.dropped = false)
    (hreg : ∀ op ∈ ops, op.registers = none) (hdrop : ∀ op ∈ ops, op.drops = false) :
    (ops.foldl (step s) c).box.closed = (c.box.closed || ops.any Op.ends) := by
  induction ops generalizing c with
  | nil => simp
  | cons op ops ih =>
      obtain ⟨hhead, hrest⟩ := List.forall_mem_cons.mp hreg
      obtain ⟨hkept, hlast⟩ := List.forall_mem_cons.mp hdrop
      rw [List.foldl_cons, List.any_cons]
      cases op with
      | registerWithSender seq | registerStream seq => cases hhead
      | deliver seq result =>
          have hnot : ¬ c.box.dropped = true := by simp [hlive]
          rw [step_deliver_of_stream h, if_neg hnot]
          rw [ih (c := ⟨c.entry, c.box.send result⟩) h (by rw [Mailbox.dropped_send, hlive]) hrest hlast,
            Mailbox.closed_send]
          simp [Op.ends]
      | closeStream seq =>
          rw [step, closed_foldl_settle h hrest]
          simp [Op.ends]
      | cancelAll err =>
          rw [step, closed_foldl_settle h hrest]
          simp [Op.ends]
      | dropReceiver seq => cases hkept

end Cell

variable {ops pre post : List Op} {p : PendingCall}

theorem registers_of_concerns (h : op.concerns s = true) (hreg : op.registers ≠ some s) :
    op.registers = none := by
  cases op with
  | registerWithSender seq | registerStream seq => exact absurd (congrArg some (beq_iff_eq.mp h)) hreg
  | deliver | closeStream | cancelAll | dropReceiver => rfl

/-- A number that a stretch of the trace does not register is not registered by what concerns it. -/
theorem registers_about (h : s ∉ ops.filterMap Op.registers) : ∀ op ∈ about s ops, op.registers = none := by
  intro op hop
  obtain ⟨hmem, hconcerns⟩ := List.mem_filter.mp hop
  refine registers_of_concerns hconcerns fun heq => h ?_
  exact List.mem_filterMap.mpr ⟨op, hmem, heq⟩

theorem drops_about : (∃ op ∈ about s ops, op.drops = true) ↔ .dropReceiver s ∈ ops := by
  constructor
  · rintro ⟨op, hop, hdrops⟩
    obtain ⟨hmem, hconcerns⟩ := List.mem_filter.mp hop
    cases op with
    | dropReceiver seq =>
        obtain rfl := beq_iff_eq.mp hconcerns
        exact hmem
    | registerWithSender | registerStream | deliver | closeStream | cancelAll => cases hdrops
  · intro hmem
    exact ⟨_, List.mem_filter.mpr ⟨hmem, beq_self_eq_true s⟩, rfl⟩

theorem drops_about_of_not_mem (h : .dropReceiver s ∉ ops) : ∀ op ∈ about s ops, op.drops = false := by
  intro op hop
  rw [← Bool.not_eq_true]
  exact fun hdrops => h (drops_about.mp ⟨op, hop, hdrops⟩)

/-- The channel of a number right after its registration. -/
def freshBox (pre : List Op) (s : Nat) : Mailbox Reply :=
  if (about s pre).any Op.drops then Mailbox.empty.drop else Mailbox.empty

theorem cell_registered (hreg : s ∉ pre.filterMap Op.registers) :
    ((perform pre).cell s).register p = ⟨some p, freshBox pre s⟩ := by
  rw [cell_perform, Cell.foldl_of_none rfl (registers_about hreg)]
  rfl

/-- The two sides of a registration do not register its number again. -/
theorem not_registered_again (hop : op.registers = some s)
    (honce : ((pre ++ op :: post).filterMap Op.registers).Nodup) :
    s ∉ pre.filterMap Op.registers ∧ s ∉ post.filterMap Op.registers := by
  rw [List.filterMap_append, List.filterMap_cons_some hop, List.nodup_append] at honce
  obtain ⟨-, hpost, hpre⟩ := honce
  exact ⟨fun hmem => hpre s hmem s List.mem_cons_self rfl, (List.nodup_cons.mp hpost).1⟩

/-- The cell of a number at the end of a trace, from an operation that concerns it on. -/
theorem cell_perform_split (hop : op.concerns s = true) :
    (perform (pre ++ op :: post)).cell s =
      (about s post).foldl (Cell.step s) (((perform pre).cell s).step s op) := by
  rw [perform_append, (owned_perform pre).cell_foldl, about_cons_of_concerns hop, List.foldl_cons]

theorem items_freshBox : (freshBox pre s).items = [] := by
  rw [freshBox]
  split <;> rfl

theorem closed_freshBox : (freshBox pre s).closed = false := by
  rw [freshBox]
  split <;> rfl

theorem dropped_freshBox : (freshBox pre s).dropped = true ↔ .dropReceiver s ∈ pre := by
  rw [← drops_about, freshBox, ← List.any_eq_true]
  split
  · rename_i h
    exact iff_of_true rfl h
  · rename_i h
    exact iff_of_false (by simp [Mailbox.empty]) h

/-- The channel of a number at the end of a trace, from its registration on. -/
theorem boxes_perform_split (hop : op.concerns s = true) (hstep : ∀ c, Cell.step s c op = c.register p)
    (hreg : s ∉ pre.filterMap Op.registers) :
    (perform (pre ++ op :: post)).boxes s =
      ((about s post).foldl (Cell.step s) ⟨some p, freshBox pre s⟩).box := by
  have hcell : (perform (pre ++ op :: post)).cell s =
      (about s post).foldl (Cell.step s) ⟨some p, freshBox pre s⟩ := by
    rw [cell_perform_split hop, hstep, cell_registered hreg]
  exact congrArg Cell.box hcell

/-- What a receiver has been handed, and that its channel is over, when nothing but what happens to its
number after the registration counts. A receiver that was lost before is handed nothing. -/
def Observes (pre post : List Op) (s : Nat) (handed : List Op → List Reply) (ended : List Op → Bool)
    (box : Mailbox Reply) : Prop :=
  (.dropReceiver s ∈ pre → box.items = []) ∧
  (.dropReceiver s ∉ pre → box.items = handed (about s post)) ∧
  (.dropReceiver s ∉ pre → .dropReceiver s ∉ post → box.closed = ended (about s post))

theorem observes_of_cell {handed : List Op → List Reply} {ended : List Op → Bool} {box : Mailbox Reply}
    (hitems : box.items =
      (freshBox pre s).items ++ if (freshBox pre s).dropped then [] else handed (about s post))
    (hclosed : (freshBox pre s).dropped = false → (∀ op ∈ about s post, op.drops = false) →
      box.closed = ((freshBox pre s).closed || ended (about s post))) :
    Observes pre post s handed ended box := by
  rw [items_freshBox, List.nil_append] at hitems
  rw [closed_freshBox, Bool.false_or] at hclosed
  refine ⟨fun hpre => ?_, fun hpre => ?_, fun hpre hpost => ?_⟩
  · rw [hitems, if_pos (dropped_freshBox.mpr hpre)]
  · rw [hitems, if_neg (mt dropped_freshBox.mp hpre)]
  · have hlive : (freshBox pre s).dropped = false := by
      rw [← Bool.not_eq_true]
      exact mt dropped_freshBox.mp hpre
    exact hclosed hlive (drops_about_of_not_mem hpost)

/-- In every trace that registers no number twice, the receiver of a one-shot registration observes the
first operation on its number and nothing else, the receiver of a streaming registration observes all
results up to the end of the stream, operations on other numbers have no effect on either, and no entry
outlives `cancelAll`. -/
theorem receivers_observe (ops : List Op) (honce : (ops.filterMap Op.registers).Nodup) :
    (∀ pre s post, ops = pre ++ .registerWithSender s :: post →
      Observes pre post s answered (fun events => !events.isEmpty) ((perform ops).boxes s)) ∧
    (∀ pre s post, ops = pre ++ .registerStream s :: post →
      Observes pre post s streamed (fun events => events.any Op.ends) ((perform ops).boxes s)) ∧
    (∀ pre op post s, ops = pre ++ op :: post → op.concerns s = false →
      (perform (pre ++ [op])).cell s = (perform pre).cell s) ∧
    (∀ pre err post, ops = pre ++ .cancelAll err :: post →
      (perform (pre ++ [.cancelAll err])).inner = ∅) := by
  refine ⟨?_, ?_, ?_, ?_⟩
  · rintro pre s post rfl
    obtain ⟨hpre, hpost⟩ := not_registered_again rfl honce
    have hconcerns : (Op.registerWithSender s).concerns s = true := beq_self_eq_true s
    rw [boxes_perform_split hconcerns (fun _ => rfl) hpre]
    exact observes_of_cell (Cell.items_foldl_of_response rfl (registers_about hpost))
      fun _ hdrop => Cell.closed_foldl_of_response rfl (registers_about hpost) hdrop
  · rintro pre s post rfl
    obtain ⟨hpre, hpost⟩ := not_registered_again rfl honce
    have hconcerns : (Op.registerStream s).concerns s = true := beq_self_eq_true s
    rw [boxes_perform_split hconcerns (fun _ => rfl) hpre]
    exact observes_of_cell (Cell.items_foldl_of_stream rfl (registers_about hpost))
      fun hlive hdrop => Cell.closed_foldl_of_stream rfl hlive (registers_about hpost) hdrop
  · rintro pre op post s - hop
    rw [perform_append]
    exact (owned_perform pre).cell_apply_of_not_concerns hop
  · rintro pre err post -
    rw [perform_append]
    rfl

/-- A stream and a one-shot call whose operations are interleaved: the stream is handed a result and the
final error, the call its one answer. -/
theorem receivers_observe_interleaved :
    Observes [] [.registerWithSender 2, .deliver 1 (.error .streamDown), .deliver 2 (.error .nodeClosed),
        .deliver 2 (.error .streamDown), .cancelAll .cancelled, .deliver 1 (.error .nodeClosed)] 1
      streamed (fun events => events.any Op.ends)
      ⟨[.error .streamDown, .error .cancelled], true, false⟩ ∧
    Observes [.registerStream 1] [.deliver 1 (.error .streamDown), .deliver 2 (.error .nodeClosed),
        .deliver 2 (.error .streamDown), .cancelAll .cancelled, .deliver 1 (.error .nodeClosed)] 2
      answered (fun events => !events.isEmpty) ⟨[.error .nodeClosed], true, false⟩ := by
  have h := receivers_observe [.registerStream 1, .registerWithSender 2, .deliver 1 (.error .streamDown),
    .deliver 2 (.error .nodeClosed), .deliver 2 (.error .streamDown), .cancelAll .cancelled,
    .deliver 1 (.error .nodeClosed)] (by decide)
  exact ⟨h.2.1 [] 1 _ rfl, h.1 [.registerStream 1] 2 _ rfl⟩

end Quorums.Router
