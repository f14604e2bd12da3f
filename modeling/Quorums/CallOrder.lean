import Quorums.CallCover
import Quorums.CallFrame

/-! The order in which the messages of two calls enter the queue of a node that both address. When the
second call is dispatched after the first is over, its message follows that of the first, provided the
first waits for all its nodes: its fan-out tasks enqueue on their own, and `send_now` or a terminal
method that returns before it has heard from a node does not wait for them. -/

namespace Quorums.Client

open State

variable {T : Type} {env : Env T}

/-- Every message of `b` in the log comes after a message of `a`, and before none. -/
def Precedes (a b : Nat) (log : List (Nat × Message)) : Prop :=
  ∀ pre post wire, log = pre ++ (b, wire) :: post →
    (∃ w, (a, w) ∈ pre) ∧ ∀ w, (a, w) ∉ post

theorem precedes_of_not_mem {a b : Nat} {log : List (Nat × Message)} (h : ∀ wire, (b, wire) ∉ log) :
    Precedes a b log := by
  intro pre post wire hlog
  exact absurd (by rw [hlog]; simp) (h wire)

/-- A message of a call other than `a` is added; if it is one of `b`, there is one of `a` already. -/
theorem Precedes.append {a b c : Nat} {log : List (Nat × Message)} (h : Precedes a b log)
    (hca : c ≠ a) (hcb : c = b → ∃ w, (a, w) ∈ log) (wire : Message) :
    Precedes a b (log ++ [(c, wire)]) := by
  intro pre post wire' hlog
  rcases List.eq_nil_or_concat post with rfl | ⟨post, last, rfl⟩
  · obtain ⟨hpre, hlast⟩ := List.append_inj' hlog rfl
    cases hlast
    rw [← hpre]
    exact ⟨hcb rfl, fun w => List.not_mem_nil⟩
  · have hlog' : log ++ [(c, wire)] = (pre ++ (b, wire') :: post) ++ [last] := by
      rw [hlog]
      simp
    obtain ⟨hpre, hlast⟩ := List.append_inj' hlog' rfl
    obtain ⟨hex, hnot⟩ := h pre post wire' hpre
    refine ⟨hex, fun w hw => ?_⟩
    rcases List.mem_append.mp (List.concat_eq_append ▸ hw) with hw | hw
    · exact hnot w hw
    · rw [← List.mem_singleton.mp hw] at hlast
      cases hlast
      exact hca rfl

namespace Call

/-- The call is dispatched in a way that waits for all nodes: not by `send_now`, by a terminal method
that waits for all, with the token not firing before it returns and, on a correctable call of more
than one node, no transport error. -/
def CalmAct (call : Call T) : CallAct T → Prop
  | .sendNow => False
  | .terminal t => call.size ≤ 1 ∨ t.WaitsForAll call.kind call.size
  | .take =>
      call.kind = .correctableCall → call.phase = .collecting (.threshold call.size) → 1 < call.size →
        ∀ r rest, call.results = r :: rest → ∀ status, r.result ≠ .error (.transport status)
  | .cancel => ∀ t, call.phase = .collecting t → t.fits call.kind = false
  | _ => True

/-- What holds of a call all of whose steps are calm. -/
structure Calm (env : Env T) (call : Call T) : Prop where
  notSent : call.sentNow = false
  notLaunched : call.phase ≠ .launched
  waits : ∀ t, call.Awaits t → call.size ≤ 1 ∨ t.WaitsForAll call.kind call.size
  quiet : call.kind = .correctableCall → call.Awaits (.threshold call.size) → 1 < call.size →
    ∀ r ∈ call.taken, ∀ status, r.result ≠ .error (.transport status)
  returned : ∀ t out, call.phase = .returned t out → t.fits call.kind = true →
    (env.loop call.kind call.size t).2.exit? call.taken = some out ∨ call.AllEnded

variable {call call' : Call T}

theorem not_idle_of_returned {t : Terminal T} {out : Outcome T} (h : call.phase = .returned t out) :
    ¬ call.Idle := by
  rintro (hc | ⟨out, hc⟩) <;> rw [h] at hc <;> cases hc

theorem Inv.passed_of_mem_taken (h : Inv env call) {r : OrderedNodeResponse T} (hr : r ∈ call.taken) :
    call.Passed r.position := by
  rcases (h.fromTask r (List.mem_append_left _ hr)).stage with hended | ⟨hwaiting, -⟩
  · exact ⟨_, hended, rfl⟩
  · exact ⟨_, hwaiting, rfl⟩

/-- `rpc_call`, `unicast` and `multicast` return `Ok` only after their tasks have ended. -/
theorem Settled.allEnded_of_ok {t : Terminal T} {r : Except Error T} (h : Settled env call t (.returned r))
    (ht : t = .reply ∨ t = .acks) (hok : r.isOk = true) : call.AllEnded := by
  have hloop (out : Outcome T) : (env.loop call.kind call.size t).2.exit? call.taken ≠ some out := by
    rcases ht with rfl | rfl <;>
      simp only [Env.loop, ReceiveLoop.exit?_comap, multicastLoop_exit?] <;> rintro ⟨⟩
  generalize hout : Outcome.returned r = out at h
  cases h with
  | reply hended => exact hended
  | left hexit => exact absurd hexit (hloop out)
  | closed hended => exact hended
  | cancelled =>
      cases hout
      cases hok

/-- A calm call whose dispatch is over has every one of its tasks past the queue. -/
theorem Calm.allPassed (h : Calm env call) (hinv : Inv env call) (hover : call.dispatched = true)
    {p : Nat} (hp : p < call.size) : call.Passed p := by
  simp only [Call.dispatched, h.notSent, Bool.false_or] at hover
  have hended {t : Terminal T} {out : Outcome T} (hphase : call.phase = .returned t out)
      (hended : call.AllEnded) : call.Passed p :=
    passed_of_allEnded hended (hinv.started (not_idle_of_returned hphase)) hp
  split at hover
  · rename_i r hphase
    exact hended hphase ((hinv.settled _ _ hphase).allEnded_of_ok (Or.inl rfl) hover)
  · rename_i r hphase
    exact hended hphase ((hinv.settled _ _ hphase).allEnded_of_ok (Or.inr rfl) hover)
  · rename_i t r hreply hacks hphase
    have hawaits : call.Awaits t := Or.inr ⟨_, hphase⟩
    have hfits : t.fits call.kind = true := by
      cases hinv.suits t hawaits with
      | reply => exact (hreply rfl).elim
      | acks => exact (hacks rfl).elim
      | handle hfits => exact hfits
    rcases h.returned t _ hphase hfits with hexit | hall
    · obtain ⟨x, hx, rfl⟩ := hinv.covers hexit hfits (h.waits t hawaits)
        (fun hkind ht => h.quiet hkind (ht ▸ hawaits)) hp
      exact hinv.passed_of_mem_taken hx
    · exact hended hphase hall
  · cases hover

theorem Calm.invoke {earlier : List Nat} {kind : CallKind} {method : String} {payload : Payload}
    {metadata : List (String × String)} {nodes : List NodeHandle}
    (hinvoked : Invoked earlier kind method payload metadata nodes call) : Calm env call := by
  cases hinvoked with
  | idle hphase =>
      refine ⟨rfl, ?_, ?_, fun _ _ _ r hr => absurd hr List.not_mem_nil, ?_⟩
      · rcases hphase with rfl | ⟨out, rfl⟩ <;> nofun
      · rintro t (ht | ⟨out', ht⟩) <;> rcases hphase with rfl | ⟨out, rfl⟩ <;> cases ht
      · intro t out' ht
        rcases hphase with rfl | ⟨out, rfl⟩ <;> cases ht
  | started _ ht =>
      refine ⟨rfl, by simp, ?_, fun _ _ _ r hr => absurd hr List.not_mem_nil, by simp⟩
      rintro u (hu | ⟨out, hu⟩)
      · cases hu
        rcases ht with rfl | rfl <;> exact Or.inr trivial
      · cases hu

/-- The caller returns from `t`. -/
theorem Calm.return (h : Calm env call) {t : Terminal T} {out : Outcome T}
    (hphase : call.phase = .collecting t)
    (hreturned : t.fits call.kind = true →
      (env.loop call.kind call.size t).2.exit? call.taken = some out ∨ call.AllEnded) :
    Calm env { call with phase := .returned t out } where
  notSent := h.notSent
  notLaunched := nofun
  waits := by
    rintro u (hu | ⟨out', hu⟩)
    · cases hu
    · cases hu
      exact h.waits t (Or.inl hphase)
  quiet := by
    rintro hkind (hu | ⟨out', hu⟩) hsize
    · cases hu
    · have ht : t = .threshold call.size := (Phase.returned.inj hu).1
      exact h.quiet hkind (Or.inl (ht ▸ hphase)) hsize
  returned := by
    intro u out' hu hfits
    cases hu
    exact hreturned hfits

/-- The caller reads a result, which the condition on `take` allows. -/
theorem Calm.read (h : Calm env call) {t : Terminal T} {r : OrderedNodeResponse T}
    {rest : List (OrderedNodeResponse T)} (hcalm : call.CalmAct .take)
    (hphase : call.phase = .collecting t) (hresults : call.results = r :: rest) :
    Calm env { call with results := rest, taken := call.taken ++ [r] } := by
  refine { h with
    quiet := fun hkind hawaits hsize x hx => ?_
    returned := fun u out hu => ?_ }
  · rcases List.mem_append.mp hx with hx | hx
    · exact h.quiet hkind hawaits hsize x hx
    · rw [List.mem_singleton.mp hx]
      refine hcalm hkind ?_ hsize r rest hresults
      rcases hawaits with hc | ⟨out, hc⟩
      · exact hc
      · have hc' : call.phase = .returned (.threshold call.size) out := hc
        rw [hphase] at hc'
        cases hc'
  · have hu' : call.phase = .returned u out := hu
    rw [hphase] at hu'
    cases hu'

theorem Calm.callerStep (h : Calm env call) (hinv : Inv env call) {earlier : List Nat} {a : CallAct T}
    (hcalm : call.CalmAct a) (hmoves : CallerMoves env earlier call a call') : Calm env call' := by
  cases hmoves with
  | sendNow => exact hcalm.elim
  | sendAgain => exact hcalm.elim
  | terminal _ hphase =>
      refine ⟨h.notSent, by simp, ?_, fun _ _ _ r hr => ?_, by simp⟩
      · rintro u (hu | ⟨out', hu⟩)
        · cases hu
          exact hcalm
        · cases hu
      · -- nothing was read before the fan-out started
        have hstage := (hinv.fromTask r (List.mem_append_left _ hr)).stage
        rw [hinv.idle (Or.inl hphase)] at hstage
        simp at hstage
  | await _ hphase => exact absurd hphase h.notLaunched
  | leave hphase _ hresults _ hexit =>
      exact (h.read hcalm hphase hresults).return hphase fun _ => Or.inl hexit
  | take hphase _ hresults => exact h.read hcalm hphase hresults
  | close hphase _ _ _ hended => exact h.return hphase fun _ => Or.inr hended
  | cancelReply hphase =>
      have hended : Calm env { call with tasks := [.ended] } :=
        { h with
          returned := fun u out hu => by
            have hu' : call.phase = .returned u out := hu
            rw [hphase] at hu'
            cases hu' }
      exact hended.return hphase nofun
  | cancel hphase =>
      refine h.return hphase fun hfits => ?_
      rw [hcalm _ hphase] at hfits
      cases hfits
  | fire => exact { h with }

/-- What a task leaves alone: the values its caller has read, and the phase of the caller, unless the
caller itself is the task. -/
structure TaskQuiet (stage : Stage) (call call' : Call T) : Prop where
  notEnded : stage ≠ .ended
  nodes : call'.nodes = call.nodes
  kind : call'.kind = call.kind
  taken : call'.taken = call.taken
  sentNow : call'.sentNow = call.sentNow
  phase : call'.phase = call.phase ∨ ∃ out, call'.phase = .returned .reply out

theorem TaskQuiet.report {stage : Stage} (h : TaskQuiet stage call call') (p : Nat) (node : NodeHandle)
    (result : Except Error T) : TaskQuiet stage call (call'.report p node result) := by
  rw [Call.report]
  split
  · exact { h with phase := Or.inr ⟨_, rfl⟩ }
  · exact { h with }

theorem taskQuiet {id p : Nat} {stage : Stage} {node : NodeHandle} {ch ch' : Channel} {a : CallAct T}
    (hmoves : TaskMoves env id call p node ch stage a call' ch') : TaskQuiet stage call call' := by
  have hne : stage ≠ .ended := by
    cases hmoves <;> nofun
  have hset (next : Stage) : TaskQuiet stage call (call.setTask p next) :=
    ⟨hne, rfl, rfl, rfl, rfl, Or.inl rfl⟩
  cases hmoves with
  | nextSeq | enqueue | finish => exact hset _
  | refuse | reply | ack => exact (hset _).report p node _
  | update => exact TaskQuiet.report ⟨hne, rfl, rfl, rfl, rfl, Or.inl rfl⟩ p node _

theorem Calm.taskStep (h : Calm env call) {stage : Stage} {p : Nat} (hp : call.tasks[p]? = some stage)
    (hquiet : TaskQuiet stage call call') : Calm env call' := by
  have hsize : call'.size = call.size := by rw [Call.size, hquiet.nodes, Call.size]
  have hawaits {t : Terminal T} (ht : call'.Awaits t) : t = .reply ∨ call.Awaits t := by
    rcases hquiet.phase with hsame | ⟨out, hreply⟩
    · rw [Awaits, hsame] at ht
      exact Or.inr ht
    · rw [Awaits, hreply] at ht
      rcases ht with ht | ⟨out', ht⟩
      · cases ht
      · cases ht
        exact Or.inl rfl
  refine ⟨by rw [hquiet.sentNow, h.notSent], ?_, ?_, ?_, ?_⟩
  · rcases hquiet.phase with hsame | ⟨out, hreply⟩
    · rw [hsame]
      exact h.notLaunched
    · rw [hreply]
      rintro ⟨⟩
  · intro t ht
    rw [hsize, hquiet.kind]
    rcases hawaits ht with rfl | ht
    · exact Or.inr trivial
    · exact h.waits t ht
  · rw [hsize, hquiet.kind, hquiet.taken]
    intro hkind ht
    exact h.quiet hkind ((hawaits ht).resolve_left (by rintro ⟨⟩))
  · rw [hsize, hquiet.kind, hquiet.taken]
    intro t out hphase hfits
    rcases hquiet.phase with hsame | ⟨out', hreply⟩
    · rw [hsame] at hphase
      exact Or.inl ((h.returned t out hphase hfits).resolve_right (not_allEnded hp hquiet.notEnded))
    · rw [hreply] at hphase
      cases hphase
      cases hfits

end Call

/-- The actions that are calm for call `a`; the other calls do as they like. -/
def CalmFor (a : Nat) (s : State T) : Act T → Prop
  | .on c act => c = a → ∀ call, s.calls[a]? = some call → call.CalmAct act
  | _ => True

/-- The first call is calm, and every call dispatched after it comes after it in every queue of its
nodes. -/
structure OrderInv (env : Env T) (a : Nat) (s : State T) : Prop where
  inv : s.Inv env
  queue : s.QueueInv
  calm : ∀ call, s.calls[a]? = some call → call.Calm env
  order : ∀ (b : Nat) later call, s.calls[b]? = some later → a ∈ later.after → s.calls[a]? = some call →
    ∀ node ∈ call.nodes, Precedes a b (s.channels node.channel).log

variable {s t : State T} {a : Nat}

/-- While a later call is there, the first has no task left that could enqueue. -/
theorem OrderInv.allPassed (h : OrderInv env a s) {b : Nat} {later call : Call T}
    (hlater : s.calls[b]? = some later) (hafter : a ∈ later.after) (hcall : s.calls[a]? = some call)
    {p : Nat} (hp : p < call.size) : call.Passed p := by
  obtain ⟨call', hcall', hover⟩ := h.queue.after b later hlater a hafter
  rw [hcall] at hcall'
  cases hcall'
  exact (h.calm call hcall).allPassed (h.inv call (List.mem_of_getElem? hcall)) hover hp

/-- A call that has not started is in no queue. -/
theorem OrderInv.not_logged_of_created (h : OrderInv env a s) {b : Nat} {call : Call T}
    (hcall : s.calls[b]? = some call) (hphase : call.phase = .created) (x : Nat) : ¬ s.Logged b x := by
  intro hlog
  obtain ⟨call', p, hcall', st, hst, -⟩ := h.queue.passed b x hlog
  rw [hcall] at hcall'
  cases hcall'
  rw [(h.inv call (List.mem_of_getElem? hcall)).idle (Or.inl hphase)] at hst
  cases hst

theorem OrderInv.not_logged_of_none (h : OrderInv env a s) {b : Nat} (hcall : s.calls[b]? = none)
    (x : Nat) : ¬ s.Logged b x := by
  intro hlog
  obtain ⟨call', p, hcall', -⟩ := h.queue.passed b x hlog
  rw [hcall] at hcall'
  cases hcall'

theorem precedes_of_not_logged {b x : Nat} (h : ¬ s.Logged b x) : Precedes a b (s.channels x).log :=
  precedes_of_not_mem fun wire hwire => h ⟨wire, hwire⟩

theorem OrderInv.order_call (h : OrderInv env a s) (new : Call T) {b : Nat} {later call : Call T}
    (hlater : (s.calls ++ [new])[b]? = some later) (hafter : a ∈ later.after)
    (hcall : (s.calls ++ [new])[a]? = some call) {node : NodeHandle} (hnode : node ∈ call.nodes) :
    Precedes a b (s.channels node.channel).log := by
  rcases ListUpdate.getElem?_append_cases hlater with hlater | ⟨rfl, -⟩
  · obtain ⟨call', hcall', -⟩ := h.queue.after b later hlater a hafter
    have heq := ListUpdate.getElem?_append_of_some hcall' [new]
    rw [hcall] at heq
    cases heq
    exact h.order b later call hlater hafter hcall' node hnode
  · exact precedes_of_not_logged (h.not_logged_of_none (List.getElem?_length _) _)

theorem OrderInv.order_caller (h : OrderInv env a s) {c b : Nat}
    {old new later call : Call T} (hold : s.calls[c]? = some old)
    (hframe : Call.CallerFrame s.dispatched old new) (hlater : (s.calls.set c new)[b]? = some later)
    (hafter : a ∈ later.after) (hcall : (s.calls.set c new)[a]? = some call) {node : NodeHandle}
    (hnode : node ∈ call.nodes) : Precedes a b (s.channels node.channel).log := by
  obtain ⟨call₀, hcall₀, hnodes⟩ :=
    ListUpdate.exists_getElem?_of_set (f := Call.nodes) hold hframe.nodes hcall
  rw [hnodes] at hnode
  rcases ListUpdate.getElem?_set_cases hlater with ⟨rfl, rfl⟩ | ⟨-, hlater⟩
  · rcases hframe.kept with hcreated | ⟨hsame, -⟩
    · exact precedes_of_not_logged (h.not_logged_of_created hold hcreated _)
    · exact h.order b old call₀ hold (hsame ▸ hafter) hcall₀ node hnode
  · exact h.order b later call₀ hlater hafter hcall₀ node hnode

theorem OrderInv.order_task (h : OrderInv env a s) {c p b : Nat} {stage : Stage} {target : NodeHandle}
    {ch : Channel} {old new later call : Call T} (hold : s.calls[c]? = some old)
    (hp : old.tasks[p]? = some stage) (htarget : old.nodes[p]? = some target)
    (hframe : Call.TaskFrame c p stage (s.channels target.channel) ch old new)
    (hlater : (s.calls.set c new)[b]? = some later) (hafter : a ∈ later.after)
    (hcall : (s.calls.set c new)[a]? = some call) {node : NodeHandle} (hnode : node ∈ call.nodes) :
    Precedes a b (Function.update s.channels target.channel ch node.channel).log := by
  obtain ⟨call₀, hcall₀, hnodes⟩ :=
    ListUpdate.exists_getElem?_of_set (f := Call.nodes) hold hframe.nodes hcall
  obtain ⟨later₀, hlater₀, hsame⟩ :=
    ListUpdate.exists_getElem?_of_set (f := Call.after) hold hframe.after hlater
  rw [hnodes] at hnode
  rw [hsame] at hafter
  have horder := h.order b later₀ call₀ hlater₀ hafter hcall₀ node hnode
  by_cases hchannel : node.channel = target.channel
  · rw [hchannel, Function.update_self]
    rw [hchannel] at horder
    rcases hframe.effect with ⟨hsame, -⟩ | ⟨hnot, hopen, ⟨wire, hwire⟩, -⟩
    · rwa [hsame]
    · rw [hwire]
      refine horder.append ?_ (fun hcb => ?_) wire
      · -- a task of the first call would still have to pass the queue
        rintro rfl
        rw [hold] at hcall₀
        cases hcall₀
        obtain ⟨st, hst, hpassed⟩ := h.allPassed hlater₀ hafter hold
          (List.getElem?_eq_some_iff.mp htarget).1
        rw [Option.some.inj (hp.symm.trans hst), hpassed] at hnot
        cases hnot
      · obtain ⟨q, hq⟩ := List.mem_iff_getElem?.mp hnode
        have hpassed := h.allPassed hlater₀ hafter hcall₀ (List.getElem?_eq_some_iff.mp hq).1
        rcases h.queue.logged a call₀ q node hcall₀ hq hpassed with hlog | hclosed
        · rw [hchannel] at hlog
          exact hlog
        · rw [hchannel, hopen] at hclosed
          cases hclosed
  · rw [Function.update_of_ne hchannel]
    exact horder

theorem orderInv_step {act : Act T} (h : OrderInv env a s) (hcalm : CalmFor a s act)
    (hstep : step env s act = some t) : OrderInv env a t := by
  have hinv := inv_step h.inv hstep
  have hqueue := queueInv_step h.inv h.queue hstep
  cases step_cases hstep with
  | call hsingle =>
      refine ⟨hinv, hqueue, fun call hcall => ?_, fun b later call hlater hafter hcall node hnode => ?_⟩
      · rcases ListUpdate.getElem?_append_cases hcall with hcall | ⟨-, rfl⟩
        · exact h.calm call hcall
        · exact Call.Calm.invoke (Call.invoked ..)
      · exact h.order_call _ hlater hafter hcall hnode
  | caller hold htask hcaller =>
      have hmoves := Call.moves_of_callerStep hcaller
      have hframe := Call.callerFrame hmoves
      refine ⟨hinv, hqueue, fun call hcall => ?_, fun b later call hlater hafter hcall node hnode => ?_⟩
      · rcases ListUpdate.getElem?_set_cases hcall with ⟨rfl, rfl⟩ | ⟨-, hcall⟩
        · exact (h.calm _ hold).callerStep (h.inv _ (List.mem_of_getElem? hold)) (hcalm rfl _ hold) hmoves
        · exact h.calm call hcall
      · exact h.order_caller hold hframe hlater hafter hcall hnode
  | task hold htask hp htarget htaskStep =>
      have hmoves := Call.moves_of_taskStep htaskStep
      have hframe := Call.taskFrame hp hmoves
      refine ⟨hinv, hqueue, fun call hcall => ?_, fun b later call hlater hafter hcall node hnode => ?_⟩
      · rcases ListUpdate.getElem?_set_cases hcall with ⟨rfl, rfl⟩ | ⟨-, hcall⟩
        · exact (h.calm _ hold).taskStep hp (Call.taskQuiet hmoves)
        · exact h.calm call hcall
      · exact h.order_task hold hp htarget hframe hlater hafter hcall hnode
  | @closeChannel x =>
      refine ⟨hinv, hqueue, h.calm, fun b later call hlater hafter hcall node hnode => ?_⟩
      have horder := h.order b later call hlater hafter hcall node hnode
      dsimp only
      by_cases hx : node.channel = x
      · rw [hx, Function.update_self]
        rwa [hx] at horder
      · rwa [Function.update_of_ne hx]

/-- In every run in which call `a` is dispatched by a method that waits for all its nodes, its message
comes first in the queue of each of its nodes, whatever call is dispatched after it. -/
theorem precedes_of_calm {acts : List (Act T)} (hrun : Transition.run (step env) init acts = some s)
    (hcalm : Transition.Within (step env) (CalmFor a) init acts) {b : Nat} {call later : Call T}
    (hcall : s.calls[a]? = some call) (hlater : s.calls[b]? = some later) (hafter : a ∈ later.after)
    {node : NodeHandle} (hnode : node ∈ call.nodes) : Precedes a b (s.channels node.channel).log := by
  have hinit : OrderInv env a (init : State T) := by
    refine ⟨fun _ hx => absurd hx List.not_mem_nil, queueInv_init, ?_, ?_⟩
    · intro call hcall
      cases hcall
    · intro b later call hlater
      cases hlater
  have hinv := Transition.run_invariant_within (P := OrderInv env a)
    (fun _ _ _ h hok hstep => orderInv_step h hok hstep) hinit hcalm hrun
  exact hinv.order b later call hlater hafter hcall node hnode

/-- A quorum call that waits for both its nodes, then a unicast to the second. -/
def allThenUnicast : List (Act Bool) :=
  [.call .quorumCall "/s/A" [] [] [⟨1, 0⟩, ⟨2, 1⟩] [], .on 0 (.terminal (.all 2))] ++
  answered 0 0 ++ answered 0 1 ++
  [.call .unicast "/s/B" [] [] [⟨2, 1⟩] [], .on 1 (.nextSeq 0), .on 1 (.enqueue 0)]

theorem precedes_of_calm_allThenUnicast :
    ∃ s, Transition.run (step boolEnv) init allThenUnicast = some s ∧
      (s.channels 1).log.map Prod.fst = [0, 1] ∧ Precedes 0 1 (s.channels 1).log := by
  obtain ⟨s, hrun⟩ : ∃ s, Transition.run (step boolEnv) init allThenUnicast = some s := ⟨_, rfl⟩
  have hlog := Transition.eq_of_run_map (f := fun s : State Bool =>
    (s.channels 1).log.map Prod.fst) rfl hrun
  obtain ⟨call, hcall, hnodes⟩ :=
    Transition.exists_of_run_map (f := fun s : State Bool => s.calls[0]?) (g := Call.nodes) rfl hrun
  obtain ⟨later, hlater, hafter⟩ :=
    Transition.exists_of_run_map (f := fun s : State Bool => s.calls[1]?) (g := Call.after) rfl hrun
  refine ⟨s, hrun, hlog, ?_⟩
  have hnode : (⟨2, 1⟩ : NodeHandle) ∈ call.nodes := by rw [hnodes]; decide
  refine precedes_of_calm hrun ?_ hcall hlater (by rw [hafter]; decide) hnode
  refine Transition.within_cons rfl trivial ?_
  refine Transition.within_cons rfl (fun _ call hcall => ?_) ?_
  · cases hcall
    exact Or.inr (Nat.le_refl 2)
  · iterate 3 refine Transition.within_cons rfl (fun _ _ _ => trivial) ?_
    refine Transition.within_cons rfl (fun _ call hcall hkind => ?_) ?_
    · cases hcall
      cases hkind
    · iterate 3 refine Transition.within_cons rfl (fun _ _ _ => trivial) ?_
      refine Transition.within_cons rfl (fun _ call hcall hkind => ?_) ?_
      · cases hcall
        cases hkind
      · refine Transition.within_cons rfl trivial ?_
        iterate 2 refine Transition.within_cons rfl nofun ?_
        exact trivial

/-- With `send_now`, the spawned task of a quorum call has not run when the call is over. -/
def sendNowThenUnicast : List (Act Bool) :=
  [.call .quorumCall "/s/A" [] [] [⟨1, 0⟩] [], .on 0 .sendNow,
    .call .unicast "/s/B" [] [] [⟨1, 0⟩] [], .on 1 (.nextSeq 0), .on 1 (.enqueue 0),
    .on 1 (.ack 0 (some (.ok ()))), .on 0 (.nextSeq 0), .on 0 (.enqueue 0)]

theorem send_now_overtaken : ∃ s call later,
    Transition.run (step boolEnv) init sendNowThenUnicast = some s ∧
      s.calls[0]? = some call ∧ s.calls[1]? = some later ∧ 0 ∈ later.after ∧ ⟨1, 0⟩ ∈ call.nodes ∧
      (s.channels 0).log.map Prod.fst = [1, 0] ∧ ¬ Precedes 0 1 (s.channels 0).log := by
  obtain ⟨s, hrun⟩ : ∃ s, Transition.run (step boolEnv) init sendNowThenUnicast = some s := ⟨_, rfl⟩
  have hlog := Transition.eq_of_run_map (f := fun s : State Bool => (s.channels 0).log) rfl hrun
  obtain ⟨call, hcall, hnodes⟩ :=
    Transition.exists_of_run_map (f := fun s : State Bool => s.calls[0]?) (g := Call.nodes) rfl hrun
  obtain ⟨later, hlater, hafter⟩ :=
    Transition.exists_of_run_map (f := fun s : State Bool => s.calls[1]?) (g := Call.after) rfl hrun
  refine ⟨s, call, later, hrun, hcall, hlater, by rw [hafter]; decide, by rw [hnodes]; decide,
    by rw [hlog]; rfl, fun hprecedes => ?_⟩
  obtain ⟨⟨w, hw⟩, -⟩ := hprecedes [] _ _ hlog
  cases hw

end Quorums.Client
