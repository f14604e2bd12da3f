import Mathlib.Data.List.Flatten

/-! A watch channel keeps the last value that was sent to it and tells its receivers that there is one
they have not seen. A value sent while nobody holds a receiver is not kept. The usual reader waits for a
change and then reads the value, in two steps between which more values may be sent: what it reports is
a sample of what was sent. Nothing here depends on what is sent. -/

namespace Watch

variable {α : Type*}

/-- The value the channel was created with, the values kept since, and whether every sender is gone. -/
structure Channel (α : Type*) where
  first : α
  kept : List α
  closed : Bool

/-- Where a loop `while rx.changed().await.is_ok() { report(*rx.borrow()) }` stands. -/
inductive Phase where
  | waiting
  | notified
  | ended
  deriving DecidableEq, Repr

/-- A task that runs such a loop. `seen` counts the values that were there at its last notification. -/
structure Reader (α : Type*) where
  seen : Nat
  phase : Phase
  reports : List α

namespace Channel

def new (first : α) : Channel α := ⟨first, [], false⟩

/-- What `borrow` reads. -/
def value (c : Channel α) : α := c.kept.getLastD c.first

/-- `receivers` is the number of receivers there are. -/
def send (c : Channel α) (receivers : Nat) (v : α) : Channel α :=
  if receivers = 0 then c else { c with kept := c.kept ++ [v] }

def sendAll (c : Channel α) (receivers : Nat) (values : List α) : Channel α :=
  values.foldl (fun c v => c.send receivers v) c

/-- A receiver starts with the present value as seen. -/
def reader (c : Channel α) : Reader α := ⟨c.kept.length, .waiting, []⟩

theorem sendAll_eq (c : Channel α) (receivers : Nat) (values : List α) :
    c.sendAll receivers values = { c with kept := c.kept ++ if receivers = 0 then [] else values } := by
  induction values generalizing c with
  | nil =>
      show c = _
      rw [ite_self, List.append_nil]
  | cons v values ih =>
      show (c.send receivers v).sendAll receivers values = _
      rw [ih, send]
      by_cases h : receivers = 0
      · rw [if_pos h, if_pos h, if_pos h]
      · rw [if_neg h, if_neg h, if_neg h, List.append_assoc]
        rfl

/-- What is kept last is what is read. -/
theorem value_of_append {c c' : Channel α} {values : List α} (hfirst : c'.first = c.first)
    (hkept : c'.kept = c.kept ++ values) : c'.value = values.getLastD c.value := by
  rw [value, value, hfirst, hkept]
  rcases List.eq_nil_or_concat values with rfl | ⟨init, v, rfl⟩
  · rw [List.append_nil]
    rfl
  · rw [List.concat_eq_append, ← List.append_assoc, List.getLastD_concat, List.getLastD_concat]

end Channel

namespace Reader

/-- The reader holds its receiver until its loop has ended. -/
def holds (rd : Reader α) : Bool := rd.phase ≠ .ended

/-- `changed` returns: there is a value the reader has not seen, or, when there is none, the channel is
closed. -/
def poll (c : Channel α) (rd : Reader α) : Option (Reader α) :=
  if rd.phase = .waiting then
    if rd.seen ≠ c.kept.length then some { rd with seen := c.kept.length, phase := .notified }
    else if c.closed then some { rd with phase := .ended }
    else none
  else none

/-- The value is read and reported. -/
def report (c : Channel α) (rd : Reader α) : Option (Reader α) :=
  if rd.phase = .notified then some { rd with phase := .waiting, reports := rd.reports ++ [c.value] }
  else none

end Reader

/-! ### What a reader reports -/

/-- Every value twice. -/
def echoed (values : List α) : List α := values.flatMap fun v => [v, v]

theorem echoed_append (values values' : List α) : echoed (values ++ values') = echoed values ++ echoed values' :=
  List.flatMap_append

theorem echoed_take_succ {values : List α} {k : Nat} {v : α} (h : values[k]? = some v) :
    echoed (values.take (k + 1)) = echoed (values.take k) ++ [v, v] := by
  rw [List.take_add_one, h, echoed_append]
  rfl

theorem echoed_take_sublist (values : List α) {j k : Nat} (h : j ≤ k) :
    (echoed (values.take j)).Sublist (echoed (values.take k)) :=
  List.Sublist.flatMap (List.take_sublist_take_left h) _

/-- The last report is the value at `k`, and the reports before it sample the values before that; the
value at `k` itself was reported before only if it was the newest at the last notification. -/
structure Read (values : List α) (seen : Nat) (reports : List α) (k : Nat) (v : α) : Prop where
  at_k : values[k]? = some v
  seen_le : seen ≤ k + 1
  split : ∃ earlier, reports = earlier ++ [v] ∧
    earlier.Sublist (echoed (values.take k) ++ if seen = k + 1 then [v] else [])

/-- What a reader has reported of the `values` that were kept since it began, when it had seen the first
`seen` of them at its last notification. -/
def Sampled (values : List α) (seen : Nat) (reports : List α) : Phase → Prop
  | .waiting | .ended => (seen = 0 ∧ reports = []) ∨ ∃ k v, Read values seen reports k v
  | .notified =>
      ∃ k v, seen = k + 1 ∧ values[k]? = some v ∧ reports.Sublist (echoed (values.take k) ++ [v])

section Sampled

variable {values reports : List α} {seen k : Nat} {v : α} {phase : Phase}

theorem sampled_start (values : List α) : Sampled values 0 [] .waiting := Or.inl ⟨rfl, rfl⟩

theorem Read.reports_sublist (h : Read values seen reports k v) :
    reports.Sublist (echoed (values.take (k + 1))) := by
  obtain ⟨earlier, rfl, hsub⟩ := h.split
  have hone : (if seen = k + 1 then [v] else []).Sublist [v] := by
    split
    · exact List.Sublist.refl _
    · exact List.nil_sublist _
  have hearlier : earlier.Sublist (echoed (values.take k) ++ [v]) :=
    hsub.trans ((List.Sublist.refl _).append hone)
  calc (earlier ++ [v]).Sublist ((echoed (values.take k) ++ [v]) ++ [v]) := hearlier.append (List.Sublist.refl _)
    _ = echoed (values.take (k + 1)) := by rw [echoed_take_succ h.at_k, List.append_assoc]; rfl

/-- The channel keeps more values. -/
theorem Sampled.mono (h : Sampled values seen reports phase) (more : List α) :
    Sampled (values ++ more) seen reports phase := by
  have hat {k : Nat} {v : α} (hk : values[k]? = some v) :
      (values ++ more)[k]? = some v ∧ (values ++ more).take k = values.take k := by
    have hlt := (List.getElem?_eq_some_iff.mp hk).1
    exact ⟨(List.getElem?_append_left hlt).trans hk, List.take_append_of_le_length (Nat.le_of_lt hlt)⟩
  have hread (h : (seen = 0 ∧ reports = []) ∨ ∃ k v, Read values seen reports k v) :
      (seen = 0 ∧ reports = []) ∨ ∃ k v, Read (values ++ more) seen reports k v := by
    rcases h with h | ⟨k, v, hread⟩
    · exact Or.inl h
    · obtain ⟨hk, htake⟩ := hat hread.at_k
      exact Or.inr ⟨k, v, hk, hread.seen_le, htake ▸ hread.split⟩
  cases phase with
  | waiting => exact hread h
  | ended => exact hread h
  | notified =>
      obtain ⟨k, v, hseen, hk, hsub⟩ := h
      obtain ⟨hk', htake⟩ := hat hk
      exact ⟨k, v, hseen, hk', htake ▸ hsub⟩

/-- A notification: the reader is told of the newest value. -/
theorem Sampled.notify (h : Sampled values seen reports .waiting) (hle : seen ≤ values.length)
    (hne : seen ≠ values.length) : Sampled values values.length reports .notified := by
  obtain ⟨k, hk⟩ : ∃ k, values.length = k + 1 := ⟨values.length - 1, by omega⟩
  have hlt : k < values.length := by omega
  refine ⟨k, values[k], hk, List.getElem?_eq_getElem hlt, ?_⟩
  rcases h with ⟨-, rfl⟩ | ⟨j, v, hread⟩
  · exact List.nil_sublist _
  · have hj := (List.getElem?_eq_some_iff.mp hread.at_k).1
    rcases Nat.lt_or_ge j k with hjk | hjk
    · calc reports.Sublist (echoed (values.take (j + 1))) := hread.reports_sublist
        List.Sublist _ (echoed (values.take k)) := echoed_take_sublist values hjk
        List.Sublist _ (echoed (values.take k) ++ [values[k]]) := List.sublist_append_left _ _
    · -- the newest value was already reported once, before the reader was told of it
      obtain rfl : j = k := by omega
      obtain ⟨earlier, rfl, hsub⟩ := hread.split
      rw [if_neg (by omega), List.append_nil] at hsub
      obtain rfl : values[j] = v := by
        have hat := hread.at_k
        rw [List.getElem?_eq_getElem hlt, Option.some.injEq] at hat
        exact hat
      exact hsub.append (List.Sublist.refl _)

/-- A report: the reader reads the newest value, which may have come after the notification. -/
theorem Sampled.report (h : Sampled values seen reports .notified) {last : α}
    (hlast : values.getLast? = some last) : Sampled values seen (reports ++ [last]) .waiting := by
  obtain ⟨k, v, rfl, hk, hsub⟩ := h
  have hlt := (List.getElem?_eq_some_iff.mp hk).1
  obtain ⟨m, hm⟩ : ∃ m, values.length = m + 1 := ⟨values.length - 1, by omega⟩
  have hlast' : values[m]? = some last := by
    rw [← hlast, List.getLast?_eq_getElem?, hm]
    rfl
  refine Or.inr ⟨m, last, hlast', by omega, reports, rfl, ?_⟩
  by_cases hkm : k = m
  · subst hkm
    obtain rfl : v = last := Option.some.inj (hk.symm.trans hlast')
    rw [if_pos rfl]
    exact hsub
  · rw [if_neg (by omega), List.append_nil]
    calc reports.Sublist (echoed (values.take k) ++ [v]) := hsub
      List.Sublist _ (echoed (values.take k) ++ [v, v]) :=
        (List.Sublist.refl _).append (List.Sublist.cons _ (List.Sublist.refl _))
      _ = echoed (values.take (k + 1)) := (echoed_take_succ hk).symm
      List.Sublist _ (echoed (values.take m)) := echoed_take_sublist values (by omega)

/-- The reports are a subsequence of the values, each of which is reported at most twice. -/
theorem Sampled.sublist_echoed (h : Sampled values seen reports phase) : reports.Sublist (echoed values) := by
  have hwhole (k : Nat) : (echoed (values.take k)).Sublist (echoed values) :=
    List.Sublist.flatMap (List.take_sublist k values) _
  have hread (h : (seen = 0 ∧ reports = []) ∨ ∃ k v, Read values seen reports k v) :
      reports.Sublist (echoed values) := by
    rcases h with ⟨-, rfl⟩ | ⟨k, v, hread⟩
    · exact List.nil_sublist _
    · exact hread.reports_sublist.trans (hwhole (k + 1))
  cases phase with
  | waiting => exact hread h
  | ended => exact hread h
  | notified =>
      obtain ⟨k, v, -, hk, hsub⟩ := h
      refine (hsub.trans ?_).trans (hwhole (k + 1))
      rw [echoed_take_succ hk]
      exact (List.Sublist.refl _).append (List.Sublist.cons _ (List.Sublist.refl _))

/-- A reader that has seen everything has reported the newest value. -/
theorem Sampled.getLast?_eq (h : Sampled values seen reports phase) (hphase : phase ≠ .notified)
    (hseen : seen = values.length) : reports.getLast? = values.getLast? := by
  have hread (h : (seen = 0 ∧ reports = []) ∨ ∃ k v, Read values seen reports k v) :
      reports.getLast? = values.getLast? := by
    rcases h with ⟨rfl, rfl⟩ | ⟨k, v, hread⟩
    · rw [List.eq_nil_of_length_eq_zero hseen.symm]
    · have hlt := (List.getElem?_eq_some_iff.mp hread.at_k).1
      have hle := hread.seen_le
      obtain ⟨earlier, rfl, -⟩ := hread.split
      rw [List.getLast?_concat, List.getLast?_eq_getElem?, ← hread.at_k]
      congr 1
      omega
  cases phase with
  | waiting => exact hread h
  | ended => exact hread h
  | notified => exact absurd rfl hphase

end Sampled

/-! ### A reader of a channel -/

/-- What holds of a reader of `c` that began when `start` values were kept. -/
structure Reader.Follows (c : Channel α) (start : Nat) (rd : Reader α) : Prop where
  start_le : start ≤ rd.seen
  seen_le : rd.seen ≤ c.kept.length
  sampled : Sampled (c.kept.drop start) (rd.seen - start) rd.reports rd.phase
  ended : rd.phase = .ended → c.closed = true ∧ rd.seen = c.kept.length

namespace Reader

variable {c c' : Channel α} {start : Nat} {rd rd' : Reader α}

theorem follows_reader (c : Channel α) : c.reader.Follows c c.kept.length where
  start_le := Nat.le_refl _
  seen_le := Nat.le_refl _
  sampled := by
    rw [show c.reader.seen = c.kept.length from rfl, Nat.sub_self]
    exact sampled_start _
  ended h := by cases h

/-- Others send, as long as the channel is open, or close it. -/
theorem Follows.grow (h : rd.Follows c start) {values : List α} (hkept : c'.kept = c.kept ++ values)
    (hclosed : c.closed = true → values = [] ∧ c'.closed = true) : rd.Follows c' start where
  start_le := h.start_le
  seen_le := by
    rw [hkept, List.length_append]
    exact Nat.le_trans h.seen_le (Nat.le_add_right _ _)
  sampled := by
    have hle : start ≤ c.kept.length := Nat.le_trans h.start_le h.seen_le
    rw [hkept, List.drop_append_of_le_length hle]
    exact h.sampled.mono values
  ended hphase := by
    obtain ⟨hc, hseen⟩ := h.ended hphase
    obtain ⟨hvalues, hc'⟩ := hclosed hc
    rw [hkept, hvalues, List.append_nil]
    exact ⟨hc', hseen⟩

theorem Follows.poll (h : rd.Follows c start) (hpoll : rd.poll c = some rd') : rd'.Follows c start := by
  unfold Reader.poll at hpoll
  split at hpoll
  · rename_i hphase
    have hsampled := h.sampled
    have hle := h.seen_le
    have hstart := h.start_le
    rw [hphase] at hsampled
    split at hpoll
    · rename_i hne
      cases hpoll
      refine ⟨Nat.le_trans hstart hle, Nat.le_refl _, ?_, fun hc => by cases hc⟩
      have hnotify := hsampled.notify (by rw [List.length_drop]; omega) (by rw [List.length_drop]; omega)
      rwa [List.length_drop] at hnotify
    · rename_i hseen
      split at hpoll
      · rename_i hclosed
        cases hpoll
        exact ⟨hstart, hle, hsampled, fun _ => ⟨hclosed, Decidable.not_not.mp hseen⟩⟩
      · cases hpoll
  · cases hpoll

theorem Follows.report (h : rd.Follows c start) (hreport : rd.report c = some rd') : rd'.Follows c start := by
  unfold Reader.report at hreport
  split at hreport
  · rename_i hphase
    cases hreport
    have hsampled := h.sampled
    rw [hphase] at hsampled
    refine ⟨h.start_le, h.seen_le, ?_, fun hc => by cases hc⟩
    have hlt : start < c.kept.length := by
      obtain ⟨k, v, hseen, -⟩ := hsampled
      have hle := h.seen_le
      omega
    have hlast : (c.kept.drop start).getLast? = some c.value := by
      rw [List.getLast?_drop, if_neg (by omega), Channel.value, List.getLastD_eq_getLast?,
        List.getLast?_eq_some_getLast (List.ne_nil_of_length_pos (by omega))]
      rfl
    exact hsampled.report hlast
  · cases hreport

/-- The reports of a reader are a subsequence of the values that were kept since it began, each at most
twice. -/
theorem Follows.reports_sublist (h : rd.Follows c start) :
    rd.reports.Sublist (echoed (c.kept.drop start)) := h.sampled.sublist_echoed

/-- A reader that can do nothing, or that has ended, has reported the newest value. -/
theorem Follows.getLast?_eq (h : rd.Follows c start) (hpoll : rd.poll c = none) (hreport : rd.report c = none) :
    rd.reports.getLast? = (c.kept.drop start).getLast? := by
  have hphase : rd.phase ≠ .notified := by
    intro hphase
    rw [Reader.report, if_pos hphase] at hreport
    cases hreport
  refine h.sampled.getLast?_eq hphase ?_
  have hseen : rd.seen = c.kept.length := by
    cases hcase : rd.phase with
    | waiting =>
        rw [Reader.poll, if_pos hcase] at hpoll
        by_cases hseen : rd.seen = c.kept.length
        · exact hseen
        · rw [if_pos hseen] at hpoll
          cases hpoll
    | notified => exact absurd hcase hphase
    | ended => exact (h.ended hcase).2
  rw [List.length_drop, hseen]

end Reader

end Watch
