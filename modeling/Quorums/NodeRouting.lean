import Quorums.NodeQueue

/-! Sequence numbers and the router over whole runs of a node. As long as the counter has not come round,
no two calls have one number; then an entry of the router always belongs to the call of its number, a
registration finds its number free, and a one-shot caller is sent at most one result. -/

namespace Quorums.Node

open Server ListUpdate

/-! ### Sequence numbers -/

/-- The number of a call, once it has one. -/
def Call.ticket (c : Call) : Option Nat := if c.stage = .issued then none else some c.seq

theorem ticket_of_ne {call : Call} (h : call.stage ≠ .issued) : call.ticket = some call.seq := if_neg h

theorem ticket_of_issued {call : Call} (h : call.stage = .issued) : call.ticket = none := if_pos h

theorem ne_of_ticket {call : Call} {n : Nat} (h : call.ticket = some n) :
    call.stage ≠ .issued ∧ call.seq = n := by
  rw [Call.ticket] at h
  split at h
  · cases h
  · rename_i hstage
    exact ⟨hstage, Option.some.inj h⟩

theorem ticket_withStage {call : Call} {stage : Stage} (h : call.stage ≠ .issued)
    (hstage : stage ≠ .issued) : Call.ticket { call with stage := stage } = call.ticket := by
  rw [ticket_of_ne h]
  exact ticket_of_ne hstage

/-- Numbers are given out in rank order, modulo the width of the counter. -/
structure Numbered (seq : Nat) (tickets : List (Option Nat)) : Prop where
  count : seq = tickets.countP Option.isSome % 2 ^ 64
  rank : ∀ n, some n ∈ tickets →
    ∃ r, 1 ≤ r ∧ r ≤ tickets.countP Option.isSome ∧ n = r % 2 ^ 64
  inj : ∀ (c d n : Nat), tickets[c]? = some (some n) → tickets[d]? = some (some n) → c = d

namespace Numbered

variable {seq : Nat} {tickets : List (Option Nat)}

theorem append_none (h : Numbered seq tickets) : Numbered seq (tickets ++ [none]) := by
  have hcount : (tickets ++ [none]).countP Option.isSome = tickets.countP Option.isSome := by simp
  have hold : ∀ c n : Nat, (tickets ++ [none])[c]? = some (some n) → tickets[c]? = some (some n) := by
    intro c n hc
    rcases getElem?_append_cases hc with h' | ⟨-, h'⟩
    · exact h'
    · cases h'
  constructor
  · rw [hcount]
    exact h.count
  · intro n hn
    rw [hcount]
    exact h.rank n (by simpa using hn)
  · intro c d n hc hd
    exact h.inj c d n (hold c n hc) (hold d n hd)

/-- The next number is new, unless more numbers were given out than there are. -/
theorem set_next (h : Numbered seq tickets) {c : Nat} (hc : tickets[c]? = some none)
    (hbound : tickets.length ≤ 2 ^ 64) :
    Numbered (nextSeq seq) (tickets.set c (some (nextSeq seq))) := by
  obtain ⟨hlt, hget⟩ := List.getElem?_eq_some_iff.mp hc
  have hcount : (tickets.set c (some (nextSeq seq))).countP Option.isSome =
      tickets.countP Option.isSome + 1 := by
    rw [List.countP_set hlt, hget]
    simp
  have hle : tickets.countP Option.isSome + 1 ≤ 2 ^ 64 := by
    rw [← hcount]
    calc (tickets.set c (some (nextSeq seq))).countP Option.isSome
        ≤ (tickets.set c (some (nextSeq seq))).length := List.countP_le_length
      _ = tickets.length := List.length_set
      _ ≤ 2 ^ 64 := hbound
  have hnext : nextSeq seq = (tickets.countP Option.isSome + 1) % 2 ^ 64 := by
    rw [nextSeq, h.count]
    omega
  have hfresh : some (nextSeq seq) ∉ tickets := by
    intro hmem
    obtain ⟨r, hr, hrle, heq⟩ := h.rank _ hmem
    omega
  have hne : ∀ d, tickets[d]? ≠ some (some (nextSeq seq)) := fun d hd =>
    hfresh (List.mem_of_getElem? hd)
  constructor
  · rw [hcount]
    exact hnext
  · intro n hn
    rw [hcount]
    rcases List.mem_or_eq_of_mem_set hn with hold | heq
    · obtain ⟨r, hr, hrle, hn⟩ := h.rank n hold
      exact ⟨r, hr, by omega, hn⟩
    · exact ⟨_, Nat.le_add_left 1 _, le_rfl, (Option.some.inj heq).trans hnext⟩
  · intro a b n ha hb
    rcases getElem?_set_cases ha with ⟨rfl, hna⟩ | ⟨-, hna⟩
    · rcases getElem?_set_cases hb with ⟨rfl, -⟩ | ⟨-, hnb⟩
      · rfl
      · rw [hna] at hnb
        exact absurd hnb (hne b)
    · rcases getElem?_set_cases hb with ⟨rfl, hnb⟩ | ⟨-, hnb⟩
      · rw [hnb] at hna
        exact absurd hna (hne a)
      · exact h.inj a b n hna hnb

end Numbered

def State.Numbered (s : State) : Prop := Node.Numbered s.seq (s.calls.map Call.ticket)

/-- Two calls with one number are one call. -/
theorem State.Numbered.eq {s : State} (h : s.Numbered) {c d : Nat} {x y : Call}
    (hx : s.calls[c]? = some x) (hy : s.calls[d]? = some y) (hxs : x.stage ≠ .issued)
    (hys : y.stage ≠ .issued) (hseq : x.seq = y.seq) : c = d := by
  refine Node.Numbered.inj h c d x.seq ?_ ?_
  · rw [List.getElem?_map, hx, Option.map_some, ticket_of_ne hxs]
  · rw [List.getElem?_map, hy, Option.map_some, ticket_of_ne hys, hseq]

theorem numbered_init : init.Numbered where
  count := rfl
  rank n hn := by cases hn
  inj c d n hc := by simp [init] at hc

variable {srv : Server} {peerAddr : Option String}

theorem length_calls_step {s t : State} {a : Act} (hstep : step srv peerAddr s a = some t) :
    s.calls.length ≤ t.calls.length := by
  cases moves_of_step hstep with
  | issue => simp
  | nextSeq | registerStream | refuse | enqueue => simp
  | _ => exact Nat.le_refl _

theorem numbered_step {s t : State} {a : Act} (h : s.Numbered) (hbound : s.calls.length ≤ 2 ^ 64)
    (hstep : step srv peerAddr s a = some t) : t.Numbered := by
  rw [State.Numbered] at h ⊢
  cases moves_of_step hstep with
  | issue =>
      rw [List.map_append]
      exact h.append_none
  | @nextSeq c call hcall hstage =>
      rw [List.map_set]
      refine h.set_next ?_ (by simpa using hbound)
      rw [List.getElem?_map, hcall, Option.map_some, ticket_of_issued hstage]
  | registerStream hcall hkind hstage =>
      rw [map_set_of_eq hcall (ticket_withStage (by rw [hstage]; decide) (by decide))]
      exact h
  | refuse hcall hstage hphase | enqueue hcall hstage =>
      rw [map_set_of_eq hcall (ticket_withStage (by rw [hstage]; split <;> decide) (by decide))]
      exact h
  | _ => exact h

/-! ### The router -/

def Phase.registered : Phase → List Nat
  | .streaming (.ready req) => [req.call]
  | _ => []

/-- The calls whose request has passed the registration in `sender_loop`. -/
def started (phase : Phase) (streams : List Stream) : List Nat := offered streams ++ phase.registered

/-- An entry belongs to the call with its number; the caller of a one-shot entry has nothing yet. -/
def Owns (calls : List Call) (started : List Nat) (boxes : Nat → Mailbox Reply) (seq : Nat) :
    PendingCall → Prop
  | .response c => ∃ call, calls[c]? = some call ∧ call.ticket = some seq ∧ call.kind = .oneShot ∧
      c ∈ started ∧ (boxes c).items = []
  | .stream c => ∃ call, calls[c]? = some call ∧ call.ticket = some seq ∧ call.kind = .streaming ∧
      call.stage ≠ .numbered

theorem Owns.call {calls : List Call} {started : List Nat} {boxes : Nat → Mailbox Reply} {seq : Nat}
    {p : PendingCall} (h : Owns calls started boxes seq p) :
    ∃ call, calls[p.caller]? = some call ∧ call.ticket = some seq ∧ call.kind ≠ .oneWay := by
  cases p with
  | response c =>
      obtain ⟨call, hcall, hticket, hkind, -⟩ := h
      exact ⟨call, hcall, hticket, by rw [hkind]; decide⟩
  | stream c =>
      obtain ⟨call, hcall, hticket, hkind, -⟩ := h
      exact ⟨call, hcall, hticket, by rw [hkind]; decide⟩

/-- Calls that have a number keep it, and their kind. -/
def Advances (calls calls' : List Call) : Prop :=
  ∀ (c : Nat) (call : Call), calls[c]? = some call → call.stage ≠ .issued →
    ∃ call', calls'[c]? = some call' ∧ call'.kind = call.kind ∧ call'.ticket = call.ticket ∧
      (call.stage ≠ .numbered → call'.stage ≠ .numbered)

theorem advances_append (calls calls' : List Call) : Advances calls (calls ++ calls') :=
  fun _ call hcall _ => ⟨call, getElem?_append_of_some hcall calls', rfl, rfl, id⟩

theorem advances_set_issued {calls : List Call} {c : Nat} {call call' : Call}
    (hcall : calls[c]? = some call) (hstage : call.stage = .issued) :
    Advances calls (calls.set c call') := by
  intro d x hx hxs
  refine ⟨x, ?_, rfl, rfl, id⟩
  have hne : c ≠ d := by
    rintro rfl
    rw [Option.some.inj (hx.symm.trans hcall)] at hxs
    exact hxs hstage
  rw [List.getElem?_set, if_neg hne]
  exact hx

theorem advances_set_stage {calls : List Call} {c : Nat} {call : Call} {stage : Stage}
    (hcall : calls[c]? = some call) (hissued : stage ≠ .issued) (hnumbered : stage ≠ .numbered) :
    Advances calls (calls.set c { call with stage := stage }) := by
  intro d x hx hxs
  by_cases hcd : c = d
  · subst hcd
    have hxc : x = call := Option.some.inj (hx.symm.trans hcall)
    subst hxc
    exact ⟨_, getElem?_set_of_some hx, rfl, ticket_withStage hxs hissued, fun _ => hnumbered⟩
  · refine ⟨x, ?_, rfl, rfl, id⟩
    rw [List.getElem?_set, if_neg hcd]
    exact hx

theorem Owns.advance {calls calls' : List Call} {started started' : List Nat}
    {boxes boxes' : Nat → Mailbox Reply} {seq : Nat} {p : PendingCall}
    (h : Owns calls started boxes seq p) (hadv : Advances calls calls')
    (hsub : ∀ c ∈ started, c ∈ started')
    (hboxes : ∀ c, p = .response c → (boxes c).items = [] → (boxes' c).items = []) :
    Owns calls' started' boxes' seq p := by
  cases p with
  | response c =>
      obtain ⟨call, hcall, hticket, hkind, hstarted, hempty⟩ := h
      obtain ⟨call', hcall', hkind', hticket', -⟩ := hadv c call hcall (ne_of_ticket hticket).1
      exact ⟨call', hcall', hticket'.trans hticket, hkind'.trans hkind, hsub c hstarted,
        hboxes c rfl hempty⟩
  | stream c =>
      obtain ⟨call, hcall, hticket, hkind, hstage⟩ := h
      obtain ⟨call', hcall', hkind', hticket', hstage'⟩ := hadv c call hcall (ne_of_ticket hticket).1
      exact ⟨call', hcall', hticket'.trans hticket, hkind'.trans hkind, hstage' hstage⟩

structure Routed (calls : List Call) (started : List Nat) (router : Router) : Prop where
  entry : ∀ seq p, router.inner.lookup seq = some p → Owns calls started router.boxes seq p
  evicted : router.evicted = []
  fresh : ∀ c, c ∉ started → (calls.map Call.kind)[c]? ≠ some .streaming → (router.boxes c).items = []
  once : ∀ c : Nat, (calls.map Call.kind)[c]? = some .oneShot → (router.boxes c).items.length ≤ 1

namespace Routed

variable {calls calls' : List Call} {started started' : List Nat} {router : Router}

theorem advances_refl (calls : List Call) : Advances calls calls :=
  fun _ call hcall _ => ⟨call, hcall, rfl, rfl, id⟩

theorem withCalls (h : Routed calls started router) (hadv : Advances calls calls')
    (hkinds : calls'.map Call.kind = calls.map Call.kind) : Routed calls' started router where
  entry seq p hp := (h.entry seq p hp).advance hadv (fun _ hc => hc) fun _ _ hempty => hempty
  evicted := h.evicted
  fresh := by
    rw [hkinds]
    exact h.fresh
  once := by
    rw [hkinds]
    exact h.once

theorem issue (h : Routed calls started router) (hstarted : ∀ c ∈ started, c < calls.length)
    (call : Call) : Routed (calls ++ [call]) started router where
  entry seq p hp :=
    (h.entry seq p hp).advance (advances_append calls [call]) (fun _ hc => hc) fun _ _ hempty => hempty
  evicted := h.evicted
  fresh c hc hkind := by
    refine h.fresh c hc fun hold => hkind ?_
    rw [List.map_append]
    exact getElem?_append_of_some hold _
  once c hc := by
    rw [List.map_append] at hc
    rcases getElem?_append_cases hc with hold | ⟨hlen, -⟩
    · exact h.once c hold
    · rw [List.length_map] at hlen
      have hempty : (router.boxes c).items = [] := by
        refine h.fresh c (fun hmem => ?_) ?_
        · have := hstarted c hmem
          omega
        · rw [hlen, List.getElem?_eq_none (by simp)]
          exact nofun
      rw [hempty]
      exact Nat.zero_le 1

theorem grow (h : Routed calls started router) (hsub : ∀ c ∈ started, c ∈ started') :
    Routed calls started' router where
  entry seq p hp :=
    (h.entry seq p hp).advance (advances_refl calls) hsub fun _ _ hempty => hempty
  evicted := h.evicted
  fresh c hc hkind := h.fresh c (fun hmem => hc (hsub c hmem)) hkind
  once := h.once

/-- The number of a call is free as long as no entry can be the call's own. -/
theorem lookup_eq_none (h : Routed calls started router)
    (hinj : ∀ (d : Nat) (x : Call) (n : Nat), calls[d]? = some x → x.ticket = some n →
      ∀ (c : Nat) (call : Call), calls[c]? = some call → call.ticket = some n → c = d)
    {c seq : Nat} {call : Call} (hcall : calls[c]? = some call) (hticket : call.ticket = some seq)
    (hown : ∀ p : PendingCall, p.caller = c → ¬Owns calls started router.boxes seq p) :
    router.inner.lookup seq = none := by
  cases hp : router.inner.lookup seq with
  | none => rfl
  | some p =>
      have howns := h.entry seq p hp
      obtain ⟨x, hx, hxt, -⟩ := howns.call
      have hc := hinj p.caller x seq hx hxt c call hcall hticket
      exact absurd howns (hown p hc.symm)

theorem registerStream (h : Routed calls started router) {c : Nat} {call : Call}
    (hcall : calls[c]? = some call) (hkind : call.kind = .streaming)
    (hfree : router.inner.lookup call.seq = none) :
    Routed (calls.set c { call with stage := .registered }) started
      (router.registerStream call.seq c) := by
  have hadv : Advances calls (calls.set c { call with stage := .registered }) :=
    advances_set_stage hcall (by decide) (by decide)
  have hm := h.withCalls hadv (map_set_of_eq hcall rfl)
  have hreg := Router.insert_of_lookup_none (p := .stream c) hfree
  rw [Router.registerStream]
  constructor
  · intro seq p hp
    rcases Router.lookup_insert_cases hfree hp with ⟨rfl, rfl⟩ | ⟨-, hold⟩
    · exact ⟨_, getElem?_set_of_some hcall, ticket_of_ne (fun h => by cases h), hkind,
        fun h => by cases h⟩
    · rw [hreg]
      exact hm.entry seq p hold
  · rw [hreg]
    exact hm.evicted
  · rw [hreg]
    exact hm.fresh
  · rw [hreg]
    exact hm.once

theorem registerWithSender (h : Routed calls started router) {c : Nat} {call : Call}
    (hcall : calls[c]? = some call) (hkind : call.kind = .oneShot) (hticket : call.ticket = some call.seq)
    (hstarted : c ∈ started) (hempty : (router.boxes c).items = [])
    (hfree : router.inner.lookup call.seq = none) :
    Routed calls started (router.registerWithSender call.seq c) := by
  have hreg := Router.insert_of_lookup_none (p := .response c) hfree
  rw [Router.registerWithSender]
  constructor
  · intro seq p hp
    rcases Router.lookup_insert_cases hfree hp with ⟨rfl, rfl⟩ | ⟨-, hold⟩
    · rw [hreg]
      exact ⟨call, hcall, hticket, hkind, hstarted, hempty⟩
    · rw [hreg]
      exact h.entry seq p hold
  · rw [hreg]
    exact h.evicted
  · rw [hreg]
    exact h.fresh
  · rw [hreg]
    exact h.once

theorem dropReceiver (h : Routed calls started router) (d : Nat) :
    Routed calls started (router.onBox d Mailbox.drop) := by
  have hitems : ∀ c, ((router.onBox d Mailbox.drop).boxes c).items = (router.boxes c).items := by
    intro c
    by_cases hc : c = d
    · rw [hc, Router.boxes_onBox_self, Mailbox.items_drop]
    · rw [Router.boxes_onBox_of_ne hc]
  constructor
  · intro seq p hp
    refine (h.entry seq p hp).advance (advances_refl calls) (fun _ hc => hc) fun c _ hempty => ?_
    rw [hitems, hempty]
  · exact h.evicted
  · intro c hc hkind
    rw [hitems]
    exact h.fresh c hc hkind
  · intro c hc
    rw [hitems]
    exact h.once c hc

/-- Entries of one caller have one number. -/
theorem seq_unique (h : Routed calls started router) {seq seq' : Nat} {p q : PendingCall}
    (hp : router.inner.lookup seq = some p) (hq : router.inner.lookup seq' = some q)
    (hcaller : p.caller = q.caller) : seq = seq' := by
  obtain ⟨x, hx, hxt, -⟩ := (h.entry seq p hp).call
  obtain ⟨y, hy, hyt, -⟩ := (h.entry seq' q hq).call
  rw [hcaller, hy, Option.some.injEq] at hx
  rw [← hx, hyt] at hxt
  exact (Option.some.inj hxt).symm

/-- A caller without a stream of its own that was not started has no entry. -/
theorem caller_ne (h : Routed calls started router) {c seq : Nat} {p : PendingCall} (hc : c ∉ started)
    (hkind : (calls.map Call.kind)[c]? ≠ some .streaming) (hp : router.inner.lookup seq = some p) :
    p.caller ≠ c := by
  rintro rfl
  cases p with
  | response d =>
      obtain ⟨call, -, -, -, hstarted, -⟩ := h.entry seq _ hp
      exact hc hstarted
  | stream d =>
      obtain ⟨call, hcall, -, hk, -⟩ := h.entry seq _ hp
      refine hkind ?_
      rw [List.getElem?_map, PendingCall.caller, hcall, Option.map_some, hk]

/-- The entry of a one-shot caller is a one-shot entry, and the caller has nothing yet. -/
theorem oneShot_entry (h : Routed calls started router) {c seq : Nat} {p : PendingCall}
    (hkind : (calls.map Call.kind)[c]? = some .oneShot) (hp : router.inner.lookup seq = some p)
    (hc : p.caller = c) : (router.boxes c).items = [] := by
  subst hc
  cases p with
  | response d =>
      obtain ⟨call, -, -, -, -, hempty⟩ := h.entry seq _ hp
      exact hempty
  | stream d =>
      obtain ⟨call, hcall, -, hk, -⟩ := h.entry seq _ hp
      rw [List.getElem?_map, PendingCall.caller, hcall, Option.map_some, hk] at hkind
      cases hkind

theorem receive (h : Routed calls started router) (msg : Message) :
    Routed calls started (router.receive msg) := by
  constructor
  · intro seq p hp
    have hold := Router.lookup_receive_some hp
    refine (h.entry seq p hold).advance (advances_refl calls) (fun _ hc => hc) ?_
    rintro c rfl hempty
    rw [Router.boxes_receive_of_ne, hempty]
    intro q hq hcaller
    have hseq := h.seq_unique hq hold hcaller
    subst hseq
    exact absurd hp Router.not_response_of_lookup_receive
  · rw [Router.evicted_receive]
    exact h.evicted
  · intro c hc hkind
    rw [Router.boxes_receive_of_ne fun p hp => h.caller_ne hc hkind hp]
    exact h.fresh c hc hkind
  · intro c hkind
    rcases Router.items_receive router msg c with hsame | ⟨p, hp, hcaller, hitems⟩
    · rw [hsame]
      exact h.once c hkind
    · rw [hitems, h.oneShot_entry hkind hp hcaller]
      exact Nat.le_refl 1

theorem cancelAll (h : Routed calls started router) (err : Error) :
    Routed calls started (router.cancelAll err) := by
  have hnodup : router.callers.Nodup :=
    Router.nodup_callers fun seq seq' p q hp hq hcaller => h.seq_unique hp hq hcaller
  constructor
  · intro seq p hp
    rw [Router.lookup_cancelAll] at hp
    cases hp
  · exact h.evicted
  · intro c hc hkind
    rw [Router.boxes_cancelAll_of_not_mem]
    · exact h.fresh c hc hkind
    · intro hmem
      obtain ⟨seq, p, hp, hcaller⟩ := Router.mem_callers.mp hmem
      exact h.caller_ne hc hkind hp hcaller
  · intro c hkind
    by_cases hmem : c ∈ router.callers
    · obtain ⟨seq, p, hp, hcaller⟩ := Router.mem_callers.mp hmem
      rw [Router.boxes_cancelAll_of_mem hnodup hmem, Mailbox.items_close]
      refine Nat.le_trans (Mailbox.length_items_send_le _ _) ?_
      rw [h.oneShot_entry hkind hp hcaller]
      exact Nat.le_refl 1
    · rw [Router.boxes_cancelAll_of_not_mem hmem]
      exact h.once c hkind

end Routed

def State.Routed (s : State) : Prop := Node.Routed s.calls (started s.phase s.streams) s.router

theorem routed_init : init.Routed where
  entry seq p hp := by
    rw [init, Router.new, AList.lookup_empty] at hp
    cases hp
  evicted := rfl
  fresh _ _ _ := rfl
  once _ _ := Nat.zero_le 1

theorem mem_offered_set {streams : List Stream} {k c : Nat} {st st' : Stream}
    (hst : streams[k]? = some st) (hsub : c ∈ st.offered → c ∈ st'.offered)
    (hc : c ∈ offered streams) : c ∈ offered (streams.set k st') := by
  rw [offered, List.mem_flatMap] at hc ⊢
  exact exists_mem_set hst hsub hc

theorem started_of_registered_nil {phase phase' : Phase} {streams streams' : List Stream}
    (hphase : phase.registered = []) (hsub : ∀ c ∈ offered streams, c ∈ offered streams') :
    ∀ c ∈ started phase streams, c ∈ started phase' streams' := by
  intro c hc
  rw [started, hphase, List.append_nil] at hc
  exact List.mem_append_left _ (hsub c hc)

/-- The registered call becomes one that was offered. -/
theorem started_of_ready {req : OutboundRequest} {phase' : Phase} {streams : List Stream} {k : Nat}
    {st st' : Stream} (hst : streams[k]? = some st) (hsub : ∀ c ∈ st.offered, c ∈ st'.offered)
    (hreq : req.call ∈ st'.offered) :
    ∀ c ∈ started (.streaming (.ready req)) streams, c ∈ started phase' (streams.set k st') := by
  intro c hc
  refine List.mem_append_left _ ?_
  rcases List.mem_append.mp hc with hold | hnew
  · exact mem_offered_set hst (hsub c) hold
  · rw [Phase.registered, List.mem_singleton] at hnew
    rw [hnew, offered, List.mem_flatMap]
    exact ⟨st', List.mem_of_getElem? (getElem?_set_of_some hst), hreq⟩

/-- A stream changes in what has nothing to do with the calls offered to it. -/
theorem started_set {phase : Phase} {streams : List Stream} {k : Nat} {st st' : Stream}
    (hst : streams[k]? = some st) (hoffered : st'.offered = st.offered) :
    ∀ c ∈ started phase streams, c ∈ started phase (streams.set k st') := by
  rw [started, offered, ← flatMap_set_of_eq hst hoffered, started, offered]
  exact fun _ hc => hc

namespace State

variable {s : State}

theorem Accounted.mem_log_of_started (hacc : s.Accounted) {c : Nat}
    (hc : c ∈ started s.phase s.streams) : c ∈ s.log := by
  rw [Node.Accounted.order hacc, List.mem_append]
  rcases List.mem_append.mp hc with hold | hnew
  · exact Or.inl hold
  · right
    unfold Phase.registered at hnew
    split at hnew
    · rename_i req hphase
      rw [List.mem_singleton] at hnew
      rw [ahead, hphase, hnew]
      exact List.mem_map_of_mem (List.mem_append_left _ (by simp [Phase.inHand]))
    · cases hnew

theorem Accounted.lt_of_started (hacc : s.Accounted) : ∀ c ∈ started s.phase s.streams,
    c < s.calls.length := by
  intro c hc
  obtain ⟨call, hcall, -⟩ := Node.Accounted.enqueued hacc c (hacc.mem_log_of_started hc)
  exact (List.getElem?_eq_some_iff.mp hcall).1

/-- A request in hand was not offered to any stream before. -/
theorem Accounted.not_offered {req : OutboundRequest} (hacc : s.Accounted)
    (hreq : req ∈ s.phase.inHand) : req.call ∉ offered s.streams := by
  have hnodup := Node.Accounted.nodup hacc
  rw [Node.Accounted.order hacc, List.nodup_append] at hnodup
  intro hmem
  refine hnodup.2.2 req.call hmem req.call ?_ rfl
  exact List.mem_map_of_mem (List.mem_append_left _ hreq)

theorem Numbered.ticket_eq (hnum : s.Numbered) (d : Nat) (x : Call) (n : Nat)
    (hx : s.calls[d]? = some x) (hxt : x.ticket = some n) (c : Nat) (call : Call)
    (hcall : s.calls[c]? = some call) (hticket : call.ticket = some n) : c = d := by
  obtain ⟨hxs, hxn⟩ := ne_of_ticket hxt
  obtain ⟨hcs, hcn⟩ := ne_of_ticket hticket
  exact hnum.eq hcall hx hcs hxs (hcn.trans hxn.symm)

end State

/-- A stream is registered under a number that is free. -/
theorem State.Routed.lookup_registerStream {s : State} (hnum : s.Numbered) (h : s.Routed) {c : Nat}
    {call : Call} (hcall : s.calls[c]? = some call) (hkind : call.kind = .streaming)
    (hstage : call.stage = .numbered) : s.router.inner.lookup call.seq = none := by
  refine Node.Routed.lookup_eq_none h hnum.ticket_eq hcall (ticket_of_ne (by rw [hstage]; decide)) ?_
  rintro p rfl hown
  cases p with
  | response d =>
      obtain ⟨x, hx, -, hxkind, -⟩ := hown
      rw [Option.some.inj (hcall.symm.trans hx), hxkind] at hkind
      cases hkind
  | stream d =>
      obtain ⟨x, hx, -, -, hxstage⟩ := hown
      rw [Option.some.inj (hcall.symm.trans hx)] at hstage
      exact hxstage hstage

/-- So is a one-shot call, whose request was not offered to any stream before. -/
theorem State.Routed.lookup_register {s : State} (hacc : s.Accounted) (hnum : s.Numbered) (h : s.Routed)
    {req : OutboundRequest} {c : Nat} (hphase : s.phase = .streaming (.dequeued req))
    (htx : req.responseTx = some c) :
    ∃ call, c = req.call ∧ s.calls[c]? = some call ∧ call.stage = .enqueued ∧ call.kind = .oneShot ∧
      req.msg.messageSeqNo = call.seq ∧ c ∉ started s.phase s.streams ∧
      s.router.inner.lookup call.seq = none := by
  have hin : req ∈ s.phase.inHand := by simp [hphase, Phase.inHand]
  obtain ⟨call, hcall, hstage, hreq⟩ := Node.Accounted.waiting hacc req (List.mem_append_left _ hin)
  rw [hreq] at htx
  obtain ⟨hc, hkind⟩ := responseTx_request htx
  have hmsg : req.msg.messageSeqNo = call.seq := by
    rw [hreq]
    rfl
  have hnone : s.phase.registered = [] := by
    rw [hphase]
    rfl
  have hnot : c ∉ started s.phase s.streams := by
    rw [hc, started, hnone, List.append_nil]
    exact hacc.not_offered hin
  rw [← hc] at hcall
  refine ⟨call, hc, hcall, hstage, hkind, hmsg, hnot, ?_⟩
  refine Node.Routed.lookup_eq_none h hnum.ticket_eq hcall (ticket_of_ne (by rw [hstage]; decide)) ?_
  rintro p rfl hown
  cases p with
  | response d =>
      obtain ⟨x, -, -, -, hstarted, -⟩ := hown
      exact hnot hstarted
  | stream d =>
      obtain ⟨x, hx, -, hxkind, -⟩ := hown
      rw [Option.some.inj (hcall.symm.trans hx), hxkind] at hkind
      cases hkind

theorem routed_step {s t : State} {a : Act} (hacc : s.Accounted) (hnum : s.Numbered) (h : s.Routed)
    (hstep : step srv peerAddr s a = some t) : t.Routed := by
  rw [State.Routed] at h ⊢
  cases moves_of_step hstep with
  | issue => exact h.issue hacc.lt_of_started _
  | nextSeq hcall hstage =>
      exact h.withCalls (advances_set_issued hcall hstage) (map_set_of_eq hcall rfl)
  | registerStream hcall hkind hstage =>
      exact h.registerStream hcall hkind (State.Routed.lookup_registerStream hnum h hcall hkind hstage)
  | refuse hcall hstage hphase | enqueue hcall hstage =>
      exact h.withCalls (advances_set_stage hcall (by decide) (by decide)) (map_set_of_eq hcall rfl)
  | dropReceiver => exact h.dropReceiver _
  | dropHandles => exact h
  | @register req c hphase htx =>
      obtain ⟨call, hc, hcall, hstage, hkind, hmsg, hnot, hfree⟩ :=
        State.Routed.lookup_register hacc hnum h hphase htx
      have hempty : (s.router.boxes c).items = [] := by
        refine h.fresh c hnot ?_
        rw [List.getElem?_map, hcall, Option.map_some, hkind]
        decide
      have hgrow : Node.Routed s.calls (started (.streaming (.ready req)) s.streams) s.router :=
        h.grow (started_of_registered_nil (by rw [hphase]; rfl) fun _ hd => hd)
      rw [hmsg]
      refine hgrow.registerWithSender hcall hkind (ticket_of_ne (by rw [hstage]; decide)) ?_ hempty hfree
      rw [hc]
      exact List.mem_append_right _ (by simp [Phase.registered])
  | pass hphase htx =>
      exact h.grow (started_of_registered_nil (by rw [hphase]; rfl) fun _ hc => hc)
  | send hphase hst hopen =>
      rw [hphase] at h
      refine h.grow (started_of_ready hst ?_ ?_)
      · intro c hc
        simp only [Stream.offered, List.mem_append] at hc ⊢
        tauto
      · simp [Stream.offered]
  | sendErr hphase hst hopen =>
      rw [hphase] at h
      refine h.grow (started_of_ready hst ?_ ?_)
      · intro c hc
        simp only [Stream.offered, List.mem_append] at hc ⊢
        tauto
      · simp [Stream.offered]
  | openOk hphase =>
      refine h.grow (started_of_registered_nil (by rw [hphase]; rfl) fun c hc => ?_)
      rw [offered, List.flatMap_append]
      exact List.mem_append_left _ hc
  | cancel hphase =>
      exact (h.grow (started_of_registered_nil (by rw [hphase]; rfl) fun _ hc => hc)).cancelAll _
  | ack hphase htx | skipAck hphase htx | recvRequest hphase hqueue | recvClosed hphase hqueue =>
      exact h.grow (started_of_registered_nil (by rw [hphase]; rfl) fun _ hc => hc)
  | connectErr hphase | connectOk hphase | openErr hphase | retry hphase | announce hphase =>
      exact h.grow (started_of_registered_nil (by rw [hphase]; rfl) fun _ hc => hc)
  | abort hphase hst | close hphase hst =>
      exact h.grow (started_of_registered_nil (by rw [hphase]; rfl) fun c hc =>
        mem_offered_set hst (fun hmem => hmem) hc)
  | closeWire hst | server hst hserver | fetch hst hmsg hrecv | fetchEnd hst hrecv
  | fetchErr hst hrecv | stopRecv hst hrecv haborted =>
      exact h.grow (started_set hst rfl)
  | deliver hst hrecv =>
      exact (h.receive _).grow (started_set hst rfl)
  | fail hst hrecv =>
      exact (h.cancelAll _).grow (started_set hst rfl)

end Quorums.Node
