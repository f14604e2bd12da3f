import Mathlib.Data.List.AList
import Quorums.BaseMailbox
import Quorums.WireMessage

/-! The router of `router.rs`: the registry of in-flight two-way calls by sequence number, and what
`receive_loop` does to it for one message. A sender stored in the registry is the number of the caller
that holds the receiver; the callers' channels are kept beside the map. -/

namespace Quorums

/-- One-shot and streaming pending calls. -/
inductive PendingCall where
  | response (caller : Nat)
  | stream (caller : Nat)
  deriving DecidableEq, Repr

def PendingCall.caller : PendingCall → Nat
  | .response c | .stream c => c

/-- `evicted` lists the entries that an insertion under the same number has thrown out. -/
structure Router where
  inner : AList fun _ : Nat => PendingCall
  boxes : Nat → Mailbox Reply
  evicted : List PendingCall

namespace Router

def new : Router := ⟨∅, fun _ => Mailbox.empty, []⟩

/-- Change the channel of one caller. -/
def onBox (r : Router) (c : Nat) (f : Mailbox Reply → Mailbox Reply) : Router :=
  { r with boxes := Function.update r.boxes c (f (r.boxes c)) }

/-- `HashMap::insert`; the value it replaces, and with it its sender, is dropped. -/
def insert (r : Router) (seq : Nat) (p : PendingCall) : Router :=
  match r.inner.lookup seq with
  | none => { r with inner := r.inner.insert seq p }
  | some old =>
      { r.onBox old.caller Mailbox.close with
        inner := r.inner.insert seq p
        evicted := r.evicted ++ [old] }

/-- `Router::register_with_sender`. -/
def registerWithSender (r : Router) (seq caller : Nat) : Router := r.insert seq (.response caller)

/-- `Router::register_stream`. -/
def registerStream (r : Router) (seq caller : Nat) : Router := r.insert seq (.stream caller)

/-- `Router::deliver`. -/
def deliver (r : Router) (seq : Nat) (result : Reply) : Router :=
  match r.inner.lookup seq with
  | some (.stream c) =>
      -- the send fails when the receiver is gone; then the entry is cleaned up
      if (r.boxes c).dropped then { r.onBox c Mailbox.close with inner := r.inner.erase seq }
      else r.onBox c fun b => b.send result
  | some (.response c) =>
      { r.onBox c (fun b => (b.send result).close) with inner := r.inner.erase seq }
  | none => r

/-- `Router::close_stream`. -/
def closeStream (r : Router) (seq : Nat) : Router :=
  match r.inner.lookup seq with
  | some p => { r.onBox p.caller Mailbox.close with inner := r.inner.erase seq }
  | none => r

/-- The callers with an entry in the registry. -/
def callers (r : Router) : List Nat := r.inner.entries.map fun e => e.2.caller

/-- Send the error to each of the callers and drop its sender. -/
def cancelBoxes (err : Error) (boxes : Nat → Mailbox Reply) : List Nat → Nat → Mailbox Reply
  | [] => boxes
  | c :: rest => cancelBoxes err (Function.update boxes c ((boxes c).send (.error err)).close) rest

/-- `Router::cancel_all`. -/
def cancelAll (r : Router) (err : Error) : Router :=
  { r with inner := ∅, boxes := cancelBoxes err r.boxes r.callers }

/-- What `receive_loop` makes of a message that is no end-of-stream sentinel. -/
def resultOf (msg : Message) : Reply :=
  if msg.statusCode = 0 then .ok msg
  else .error (.transport ⟨Code.fromI32 (asI32 msg.statusCode), msg.statusMessage⟩)

/-- The `Ok(Some(msg))` branch of `receive_loop`. -/
def receive (r : Router) (msg : Message) : Router :=
  if msg.statusCode = statusStreamDone then r.closeStream msg.messageSeqNo
  else r.deliver msg.messageSeqNo (resultOf msg)

/-! ### Lookups -/

variable {r : Router} {seq seq' c : Nat} {p q : PendingCall} {result : Reply} {err : Error}

theorem insert_of_lookup_none (h : r.inner.lookup seq = none) :
    r.insert seq p = { r with inner := r.inner.insert seq p } := by
  rw [insert, h]

theorem lookup_insert_cases (h : r.inner.lookup seq = none)
    (hq : (r.insert seq p).inner.lookup seq' = some q) :
    (seq' = seq ∧ q = p) ∨ (seq' ≠ seq ∧ r.inner.lookup seq' = some q) := by
  rw [insert_of_lookup_none h] at hq
  by_cases hseq : seq' = seq
  · subst hseq
    rw [AList.lookup_insert, Option.some.injEq] at hq
    exact Or.inl ⟨rfl, hq.symm⟩
  · rw [AList.lookup_insert_ne hseq] at hq
    exact Or.inr ⟨hseq, hq⟩

theorem lookup_erase_of_ne (hne : seq' ≠ seq) :
    (r.inner.erase seq).lookup seq' = r.inner.lookup seq' := AList.lookup_erase_ne hne

theorem deliver_of_lookup_none (h : r.inner.lookup seq = none) : r.deliver seq result = r := by
  rw [deliver, h]

theorem closeStream_of_lookup_none (h : r.inner.lookup seq = none) : r.closeStream seq = r := by
  rw [closeStream, h]

/-- A message under a number without an entry changes nothing. -/
theorem receive_of_lookup_none {msg : Message} (h : r.inner.lookup msg.messageSeqNo = none) :
    r.receive msg = r := by
  rw [receive]
  split
  · exact closeStream_of_lookup_none h
  · exact deliver_of_lookup_none h

/-- After a message the entry of its number is the same or gone; the others are untouched. -/
theorem lookup_receive (r : Router) (msg : Message) (seq' : Nat) :
    (r.receive msg).inner.lookup seq' = r.inner.lookup seq' ∨
      (seq' = msg.messageSeqNo ∧ (r.receive msg).inner.lookup seq' = none) := by
  by_cases hseq : seq' = msg.messageSeqNo
  · subst hseq
    rw [receive]
    split
    · rw [closeStream]
      split
      · exact Or.inr ⟨rfl, AList.lookup_erase _ _⟩
      · exact Or.inl rfl
    · rw [deliver]
      split
      · split
        · exact Or.inr ⟨rfl, AList.lookup_erase _ _⟩
        · exact Or.inl rfl
      · exact Or.inr ⟨rfl, AList.lookup_erase _ _⟩
      · exact Or.inl rfl
  · left
    rw [receive]
    split
    · rw [closeStream]
      split
      · exact lookup_erase_of_ne hseq
      · rfl
    · rw [deliver]
      split
      · split
        · exact lookup_erase_of_ne hseq
        · rfl
      · exact lookup_erase_of_ne hseq
      · rfl

theorem lookup_receive_some {msg : Message} (h : (r.receive msg).inner.lookup seq' = some p) :
    r.inner.lookup seq' = some p := by
  rcases lookup_receive r msg seq' with heq | ⟨-, hnone⟩
  · rwa [heq] at h
  · rw [hnone] at h
    cases h

/-- A one-shot entry does not outlive a message under its number. -/
theorem not_response_of_lookup_receive {msg : Message} :
    (r.receive msg).inner.lookup msg.messageSeqNo ≠ some (.response c) := by
  intro h
  have hold := lookup_receive_some h
  rw [receive] at h
  split at h
  · rw [closeStream, hold, AList.lookup_erase] at h
    cases h
  · rw [deliver, hold, AList.lookup_erase] at h
    cases h

theorem evicted_receive (r : Router) (msg : Message) : (r.receive msg).evicted = r.evicted := by
  rw [receive]
  split
  · rw [closeStream]
    split <;> rfl
  · rw [deliver]
    split
    · split <;> rfl
    · rfl
    · rfl

/-! ### Channels -/

theorem boxes_onBox_self (f : Mailbox Reply → Mailbox Reply) :
    (r.onBox c f).boxes c = f (r.boxes c) := Function.update_self c _ r.boxes

theorem boxes_onBox_of_ne {d : Nat} {f : Mailbox Reply → Mailbox Reply} (h : d ≠ c) :
    (r.onBox c f).boxes d = r.boxes d := Function.update_of_ne h _ r.boxes

/-- A registration sends nothing. -/
theorem items_insert (r : Router) (seq : Nat) (p : PendingCall) (c : Nat) :
    ((r.insert seq p).boxes c).items = (r.boxes c).items := by
  rw [insert]
  split
  · rfl
  · rename_i old hold
    dsimp only
    by_cases hc : c = old.caller
    · rw [hc, boxes_onBox_self, Mailbox.items_close]
    · rw [boxes_onBox_of_ne hc]

/-- What a message does to the channels, entry by entry. -/
theorem boxes_receive (r : Router) (msg : Message) : (r.receive msg).boxes =
    match r.inner.lookup msg.messageSeqNo with
    | none => r.boxes
    | some p => Function.update r.boxes p.caller
        (if msg.statusCode = statusStreamDone then (r.boxes p.caller).close
        else match p with
          | .stream c => if (r.boxes c).dropped then (r.boxes c).close
              else (r.boxes c).send (resultOf msg)
          | .response c => ((r.boxes c).send (resultOf msg)).close) := by
  cases hlookup : r.inner.lookup msg.messageSeqNo with
  | none => rw [receive_of_lookup_none hlookup]
  | some p =>
      rw [receive]
      split
      · rw [closeStream, hlookup]
        rfl
      · rw [deliver, hlookup]
        cases p with
        | response c => rfl
        | stream c =>
            dsimp only
            split <;> rfl

/-- A message reaches no channel but that of the caller registered under its number. -/
theorem boxes_receive_of_ne {msg : Message}
    (h : ∀ p, r.inner.lookup msg.messageSeqNo = some p → p.caller ≠ c) :
    (r.receive msg).boxes c = r.boxes c := by
  rw [boxes_receive]
  split
  · rfl
  · rename_i p hp
    exact Function.update_of_ne (h p hp).symm _ _

/-- What a message adds to a channel: nothing, or its result at the end. -/
theorem items_receive (r : Router) (msg : Message) (c : Nat) :
    ((r.receive msg).boxes c).items = (r.boxes c).items ∨
      (∃ p, r.inner.lookup msg.messageSeqNo = some p ∧ p.caller = c ∧
        ((r.receive msg).boxes c).items = (r.boxes c).items ++ [resultOf msg]) := by
  by_cases hc : ∀ p, r.inner.lookup msg.messageSeqNo = some p → p.caller ≠ c
  · rw [boxes_receive_of_ne hc]
    exact Or.inl rfl
  · push Not at hc
    obtain ⟨p, hp, rfl⟩ := hc
    have hsend : ∀ b : Mailbox Reply, (b.send (resultOf msg)).items = b.items ∨
        (b.send (resultOf msg)).items = b.items ++ [resultOf msg] := by
      intro b
      rw [Mailbox.items_send]
      split
      · exact Or.inl rfl
      · exact Or.inr rfl
    have hitems : ((r.receive msg).boxes p.caller).items = (r.boxes p.caller).items ∨
        ((r.receive msg).boxes p.caller).items = (r.boxes p.caller).items ++ [resultOf msg] := by
      rw [boxes_receive, hp]
      dsimp only
      rw [Function.update_self]
      split
      · exact Or.inl rfl
      · cases p with
        | response d => exact hsend (r.boxes d)
        | stream d =>
            dsimp only [PendingCall.caller]
            split
            · exact Or.inl rfl
            · exact hsend (r.boxes d)
    rcases hitems with h | h
    · exact Or.inl h
    · exact Or.inr ⟨p, hp, rfl, h⟩

/-! ### Cancelling everything -/

theorem mem_callers : c ∈ r.callers ↔ ∃ seq p, r.inner.lookup seq = some p ∧ p.caller = c := by
  rw [callers, List.mem_map]
  constructor
  · rintro ⟨⟨seq, p⟩, hmem, rfl⟩
    exact ⟨seq, p, AList.mem_lookup_iff.mpr hmem, rfl⟩
  · rintro ⟨seq, p, hlookup, rfl⟩
    exact ⟨⟨seq, p⟩, AList.mem_lookup_iff.mp hlookup, rfl⟩

/-- No caller is registered twice when entries of one caller have one number. -/
theorem nodup_callers (h : ∀ seq seq' p q, r.inner.lookup seq = some p →
    r.inner.lookup seq' = some q → p.caller = q.caller → seq = seq') : r.callers.Nodup := by
  rw [callers]
  refine List.Nodup.map_on ?_ r.inner.nodupKeys.nodup
  rintro ⟨seq, p⟩ hp ⟨seq', q⟩ hq hcaller
  have hseq := h seq seq' p q (AList.mem_lookup_iff.mpr hp) (AList.mem_lookup_iff.mpr hq) hcaller
  exact r.inner.nodupKeys.eq_of_fst_eq hp hq hseq

theorem cancelBoxes_of_not_mem {boxes : Nat → Mailbox Reply} {cs : List Nat} (h : c ∉ cs) :
    cancelBoxes err boxes cs c = boxes c := by
  induction cs generalizing boxes with
  | nil => rfl
  | cons d cs ih =>
      rw [List.mem_cons, not_or] at h
      rw [cancelBoxes, ih h.2, Function.update_of_ne h.1]

theorem cancelBoxes_of_mem {boxes : Nat → Mailbox Reply} {cs : List Nat} (hnodup : cs.Nodup)
    (h : c ∈ cs) : cancelBoxes err boxes cs c = ((boxes c).send (.error err)).close := by
  induction cs generalizing boxes with
  | nil => cases h
  | cons d cs ih =>
      rw [List.nodup_cons] at hnodup
      rw [cancelBoxes]
      rcases List.mem_cons.mp h with rfl | hmem
      · rw [cancelBoxes_of_not_mem hnodup.1, Function.update_self]
      · have hne : c ≠ d := by
          rintro rfl
          exact hnodup.1 hmem
        rw [ih hnodup.2 hmem, Function.update_of_ne hne]

theorem boxes_cancelAll_of_not_mem (h : c ∉ r.callers) : (r.cancelAll err).boxes c = r.boxes c :=
  cancelBoxes_of_not_mem h

theorem boxes_cancelAll_of_mem (hnodup : r.callers.Nodup) (h : c ∈ r.callers) :
    (r.cancelAll err).boxes c = ((r.boxes c).send (.error err)).close := cancelBoxes_of_mem hnodup h

/-- Cancelling hands out nothing but the error. -/
theorem mem_items_cancelBoxes {boxes : Nat → Mailbox Reply} {cs : List Nat} {x : Reply}
    (h : x ∈ (cancelBoxes err boxes cs c).items) : x ∈ (boxes c).items ∨ x = .error err := by
  induction cs generalizing boxes with
  | nil => exact Or.inl h
  | cons d cs ih =>
      rcases ih h with hmem | heq
      · by_cases hc : c = d
        · subst hc
          rw [Function.update_self] at hmem
          exact Mailbox.mem_items_send hmem
        · rw [Function.update_of_ne hc] at hmem
          exact Or.inl hmem
      · exact Or.inr heq

@[simp] theorem lookup_cancelAll (seq : Nat) : (r.cancelAll err).inner.lookup seq = none :=
  AList.lookup_empty seq

end Router

end Quorums
