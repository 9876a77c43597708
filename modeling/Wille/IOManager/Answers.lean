import Wille.IOManager.Resize

/-!
# What delEvent and cancelEvent answer

Both take a waiter out of a context and tell by their result whether there was one. `delEvent` tests
the bit of the direction before it does anything; `cancelEvent` tests whether any bit is set, so it
goes on with a direction nobody waits for when the other one is registered, and ends the program in
the assertion of `triggerEvent`.

A call is looked at as a whole here: the lookup in the table and the section under the lock of the
context, with no other thread in between. The state it starts from is any that the threads can
reach together.

## Main definitions

* `State.Filled` — the table has a context in every entry
* `State.call`, `State.delEvent`, `State.cancelEvent` — the calls
* `State.Withdraws` — what such a call is to do

## Main results

* `State.exec_delEvent`, `exec_cancelEvent` — the calls are runs of the thread that makes them
* `State.withdraws_iff` — when both do what they are to do
* `State.cancelEvent_fails` — a direction nobody waits for, next to one that is registered
-/

namespace Wille

namespace IOManager

open TransitionSystem

variable {Th Sched Fn Fb : Type*}

/-! ### The entries of the table -/

theorem toInt_le (n : ℕ) : toInt n ≤ n := by
  have hbmod : ∀ m : ℕ, (n : ℤ).bmod m ≤ n := by
    intro m
    have hmod := Nat.mod_le n m
    rw [Int.bmod_def, ← Int.natCast_mod]
    split <;> omega
  exact hbmod _

theorem fillContexts_filled {table : List (Option ℕ)} :
    ∀ {i : ℕ} {heap : List (FdContext Sched Fn Fb)}, (∀ p, some p ∈ table → p < heap.length) →
      ∀ x ∈ (fillContexts i table heap).1, ∃ p, x = some p ∧
        p < (fillContexts i table heap).2.length := by
  induction table with
  | nil => exact fun _ x hx => absurd hx List.not_mem_nil
  | cons entry rest ih =>
    intro i heap hold x hx
    cases entry with
    | some p =>
      have hrest := ih (i := i + 1) fun q hq => hold q (List.mem_cons_of_mem _ hq)
      rcases List.mem_cons.mp hx with rfl | hx
      · obtain ⟨new, hnew, -⟩ := @State.fillContexts_heap Sched Fn Fb rest (i + 1) heap
        refine ⟨p, rfl, ?_⟩
        have hp := hold p (List.mem_cons_self ..)
        show p < (fillContexts (i + 1) rest heap).2.length
        rw [hnew, List.length_append]
        omega
      · exact hrest x hx
    | none =>
      have hrest := @ih (i + 1) (heap ++ [{ fd := toInt i }]) fun q hq => by
        have hq' := hold q (List.mem_cons_of_mem _ hq)
        rw [List.length_append, List.length_singleton]
        omega
      rcases List.mem_cons.mp hx with rfl | hx
      · obtain ⟨new, hnew, -⟩ :=
          @State.fillContexts_heap Sched Fn Fb rest (i + 1) (heap ++ [{ fd := toInt i }])
        refine ⟨heap.length, rfl, ?_⟩
        show heap.length < (fillContexts (i + 1) rest (heap ++ [{ fd := toInt i }])).2.length
        rw [hnew]
        simp only [List.length_append, List.length_singleton]
        omega
      · exact hrest x hx

namespace State

/-- Every entry of the table is a context. -/
def Filled (s : State Th Sched Fn Fb) : Prop :=
  ∀ x ∈ s.table, ∃ p, x = some p ∧ p < s.heap.length

theorem filled_contextResize {size : ℕ} {table : List (Option ℕ)}
    {heap : List (FdContext Sched Fn Fb)} (h : ∀ x ∈ table, ∃ p, x = some p ∧ p < heap.length) :
    ∀ x ∈ (contextResize size table heap).1, ∃ p, x = some p ∧
      p < (contextResize size table heap).2.length := by
  refine fillContexts_filled fun p hp => ?_
  rcases List.mem_append.mp hp with hp | hp
  · obtain ⟨q, hq, hlt⟩ := h _ (List.mem_of_mem_take hp)
    rwa [Option.some.inj hq]
  · exact absurd (List.eq_of_mem_replicate hp) (Option.some_ne_none p)

section Step

variable [DecidableEq Th]

theorem Filled.of_effect {s s' : State Th Sched Fn Fb} (h : s.Filled) {a : Act Th Sched Fn Fb}
    (he : Effect s a s') : s'.Filled := by
  have huse : ∀ {t : State Th Sched Fn Fb}, t.Filled → ∀ a v fd p,
      (t.useContext a v fd p).Filled := by
    intro t ht a v fd p
    rw [State.useContext]
    split <;> exact ht
  have hset : ∀ p (l : Locked Sched (ℕ × Fn) (ℕ × Fb)), (s.unlock p l).Filled := by
    intro p l x hx
    obtain ⟨q, hq, hlt⟩ := h x hx
    exact ⟨q, hq, by rw [unlock, List.length_set]; exact hlt⟩
  cases he with
  | lookUp ha hpc hsize => exact huse h _ _ _ _
  | reject ha hpc hsize => exact h
  | short ha hpc hsize => exact h
  | @grow v fd _ _ _ _ _ ha hpc =>
    have hgrown : Filled { s with
        table := (contextResize (fd * 3 / 2).toNat s.table s.heap).1
        heap := (contextResize (fd * 3 / 2).toNat s.table s.heap).2 } := filled_contextResize h
    exact huse hgrown _ _ _ _
  | idle hp => exact h
  | hand hp hc hh => exact hset _ _
  | drop hc hd => exact hset _ _
  | add hpc hc ha => exact hset _ _
  | fail hf => exact h

theorem filled {ok : State Th Sched Fn Fb → Act Th Sched Fn Fb → Prop} {s : State Th Sched Fn Fb}
    (hr : Reachable step ok State.init s) : s.Filled := by
  refine hr.invariant_of_reachable (P := Filled) (J := Balanced)
    (fun u hu => Balanced.of_reachable hu) ?_ fun u a v b h _ hs =>
      h.of_effect (effect_of_step b.consistent hs)
  rw [Filled, State.init_table_heap.1, State.init_table_heap.2]
  exact filled_contextResize fun x hx => absurd hx List.not_mem_nil

end Step

/-! ### The calls -/

/-- An operation on a descriptor that does nothing when the table is too short: look the context up
and run a section under its lock. -/
def call (s : State Th Sched Fn Fb) (fd : ℤ)
    (f : Locked Sched (ℕ × Fn) (ℕ × Fb) → Except Fault (Bool × Locked Sched (ℕ × Fn) (ℕ × Fb))) :
    Except Fault (Bool × State Th Sched Fn Fb) :=
  if s.size ≤ fd then .ok (false, s)
  else
    match s.lookup fd with
    | .error fault => .error fault
    | .ok ptr =>
      match s.heap[ptr]? with
      | none => .error .nullContext
      | some c => (f (s.lock c)).map fun r => (r.1, s.unlock ptr r.2)

/-- `IOManager::delEvent` -/
def delEvent (s : State Th Sched Fn Fb) (fd : ℤ) (event : Event) (ok : Bool) :
    Except Fault (Bool × State Th Sched Fn Fb) :=
  s.call fd fun l => .ok (l.delEvent fd event ok)

/-- `IOManager::cancelEvent` -/
def cancelEvent (s : State Th Sched Fn Fb) (fd : ℤ) (event : Event) (ok : Bool) :
    Except Fault (Bool × State Th Sched Fn Fb) :=
  s.call fd fun l => l.cancelEvent fd event ok

/-- `fd` has the context `c`, which is the one at `p`. -/
def ContextAt (s : State Th Sched Fn Fb) (fd : ℤ) (p : ℕ)
    (c : FdContext Sched (ℕ × Fn) (ℕ × Fb)) : Prop :=
  s.lookup fd = .ok p ∧ s.heap[p]? = some c

/-- The bit of the direction is set for the descriptor. -/
def RegisteredAt (s : State Th Sched Fn Fb) (fd : ℤ) (event : Event) : Prop :=
  ∃ p c, s.ContextAt fd p c ∧ c.Registered event

/-- The direction is withdrawn from the context `c` at `p`, and nothing else is touched but the
queue and the record of `epoll_ctl` calls. -/
structure Withdrawn (s s' : State Th Sched Fn Fb) (p : ℕ)
    (c : FdContext Sched (ℕ × Fn) (ℕ × Fb)) (event : Event) : Prop where
  table : s'.table = s.table
  others : ∀ q, q ≠ p → s'.heap[q]? = s.heap[q]?
  context : ∃ c', s'.heap[p]? = some c' ∧ c'.fd = c.fd ∧
    c'.events = c.events &&& ~~~event.bit ∧ (c'.getContext event).Empty ∧
    ∀ e, e ≠ event → (c'.Registered e ↔ c.Registered e) ∧ c'.getContext e = c.getContext e
  pending : s'.pending = s.pending - 1

/-- What `delEvent` and `cancelEvent` are to do: nothing, and say so, for a direction that is not
registered; withdraw one that is, if `epoll_ctl` succeeds. `queue` is what becomes of the queue. -/
structure Withdraws (s : State Th Sched Fn Fb) (fd : ℤ) (event : Event) (ok : Bool)
    (queue : EventContext Sched (ℕ × Fn) (ℕ × Fb) → State Th Sched Fn Fb → Prop)
    (r : Except Fault (Bool × State Th Sched Fn Fb)) : Prop where
  /-- Not registered: no more than a failed call of `epoll_ctl`. -/
  unset : ¬s.RegisteredAt fd event → ∃ ctl, r = .ok (false, { s with ctl := ctl }) ∧
    ctl.filter (·.ok) = s.ctl.filter (·.ok)
  /-- Registered. -/
  set : ok = true → ∀ p c, s.ContextAt fd p c → c.Registered event →
    ∃ s', r = .ok (true, s') ∧ s.Withdrawn s' p c event ∧ queue (c.getContext event) s'

/-- The waiter is queued at its scheduler, once. -/
def QueuesWaiter (s : State Th Sched Fn Fb) (ctx : EventContext Sched (ℕ × Fn) (ℕ × Fb))
    (s' : State Th Sched Fn Fb) : Prop :=
  ∃ scheduler task, ctx.scheduler = some scheduler ∧
    (ctx.cb.map Task.cb).toList ++ (ctx.fiber.map Task.fiber).toList = [task] ∧
    s'.scheduled = (scheduler, task) :: s.scheduled

end State

/-! ### The sections -/

namespace Locked

variable {s : Locked Sched Fn Fb} {e : Event}

/-- With something registered and `epoll_ctl` succeeding, `cancelEvent` comes to the trigger. -/
theorem cancelEvent_cases_ok (hc : s.ctx.Consistent) (h0 : s.ctx.events ≠ 0) (fd : ℤ) :
    (s.cancelEvent fd e true = .error .notRegistered ∧ ¬s.ctx.Registered e) ∨
    (s.cancelEvent fd e true = .error .nullScheduler ∧ s.ctx.Registered e ∧
      (s.ctx.getContext e).scheduler = none) ∨
    ∃ s', s.cancelEvent fd e true = .ok (true, s') ∧ Handing s s' e := by
  rw [cancelEvent, if_neg h0]
  simp only [Bool.not_true, Bool.false_eq_true, if_false]
  set s₁ := s.epoll_ctl (if s.ctx.events &&& ~~~e.bit ≠ 0 then EpollOp.MOD else .DEL) fd
    (EPOLLET ||| s.ctx.events &&& ~~~e.bit) true with hs₁
  have hc₁ : s₁.ctx.Consistent := hc
  rcases triggerPending_cases (e := e) hc₁ with
    ⟨heq, he⟩ | ⟨heq, he, hnone⟩ | ⟨s', heq, hh⟩ <;> rw [heq]
  · exact Or.inl ⟨rfl, he⟩
  · exact Or.inr (Or.inl ⟨rfl, he, hnone⟩)
  · exact Or.inr (Or.inr ⟨s', rfl, hh.registered, hh.ctx, hh.pending, hh.scheduled⟩)

end Locked

theorem FdContext.events_ne_zero {c : FdContext Sched Fn Fb} {e : Event} (he : c.Registered e) :
    c.events ≠ 0 := by
  intro h0
  rw [FdContext.Registered, h0] at he
  exact he BitVec.zero_and

namespace State

/-! ### When the calls answer right -/

section Calls

variable {s : State Th Sched Fn Fb} {fd : ℤ} {event : Event} {ok : Bool} {p : ℕ}
  {c : FdContext Sched (ℕ × Fn) (ℕ × Fb)}
  {f : Locked Sched (ℕ × Fn) (ℕ × Fb) → Except Fault (Bool × Locked Sched (ℕ × Fn) (ℕ × Fb))}

theorem ContextAt.unique (h : s.ContextAt fd p c) {q : ℕ}
    {d : FdContext Sched (ℕ × Fn) (ℕ × Fb)} (h' : s.ContextAt fd q d) : q = p ∧ d = c := by
  obtain rfl : q = p := Except.ok.inj (h'.1.symm.trans h.1)
  exact ⟨rfl, Option.some.inj (h'.2.symm.trans h.2)⟩

theorem ContextAt.registeredAt_iff (h : s.ContextAt fd p c) :
    s.RegisteredAt fd event ↔ c.Registered event := by
  constructor
  · rintro ⟨q, d, hd, he⟩
    rwa [← (h.unique hd).2]
  · exact fun he => ⟨p, c, h, he⟩

/-- Within its size the table has a context for every descriptor. -/
theorem Filled.contextAt (h : s.Filled) (hfd : 0 ≤ fd) (hsize : fd < s.size) :
    ∃ p c, s.ContextAt fd p c := by
  have hlt : fd.toNat < s.table.length := by
    have hle := toInt_le s.table.length
    rw [size] at hsize
    omega
  obtain ⟨p, hp, hlt'⟩ := h _ (List.getElem_mem hlt)
  refine ⟨p, s.heap[p], lookup_ok.mpr ⟨hfd, ?_⟩, List.getElem?_eq_getElem hlt'⟩
  rw [List.getElem?_eq_getElem hlt, hp]

theorem call_of_short (hsize : s.size ≤ fd) : s.call fd f = .ok (false, s) := if_pos hsize

theorem call_of_contextAt (hsize : fd < s.size) (h : s.ContextAt fd p c) :
    s.call fd f = (f (s.lock c)).map fun r => (r.1, s.unlock p r.2) := by
  rw [call, if_neg (Int.not_le.mpr hsize)]
  simp only [h.1, h.2]

/-- What one context loses when a direction is withdrawn from it. -/
theorem withdrawn_unlock (b : s.Balanced) (h : s.ContextAt fd p c)
    {l : Locked Sched (ℕ × Fn) (ℕ × Fb)} (hctx : l.ctx = c.unset event)
    (hpending : l.pending = s.pending - 1) : s.Withdrawn (s.unlock p l) p c event := by
  have hlt : p < s.heap.length := (List.getElem?_eq_some_iff.mp h.2).1
  have hc := b.consistent p c h.2
  refine ⟨rfl, fun q hq => List.getElem?_set_ne (Ne.symm hq), ?_, hpending⟩
  refine ⟨l.ctx, List.getElem?_set_self hlt, ?_⟩
  rw [hctx, FdContext.unset_fd, FdContext.unset_events, FdContext.getContext_unset_self]
  refine ⟨rfl, rfl, ⟨rfl, rfl, rfl⟩, fun e he => ⟨?_, FdContext.getContext_unset_of_ne he⟩⟩
  exact (FdContext.registered_unset hc).trans (and_iff_right he)

/-- A call that says no and makes no more than a failed call of `epoll_ctl`. -/
theorem unlock_of_refused (h : s.ContextAt fd p c) {ctl : List EpollCtl} :
    s.unlock p ⟨c, s.pending, s.scheduled, ctl⟩ = { s with ctl := ctl } := by
  obtain ⟨hlt, heq⟩ := List.getElem?_eq_some_iff.mp h.2
  simp only [unlock, ← heq, List.set_getElem_self hlt]

/-- A call on a direction that is not registered. -/
theorem call_of_not_registeredAt (hf : s.Filled) (hfd : 0 ≤ fd)
    (he : ¬s.RegisteredAt fd event)
    (hrefuse : ∀ p c, s.ContextAt fd p c → ¬c.Registered event → fd < s.size →
      ∃ ctl, f (s.lock c) = .ok (false, ⟨c, s.pending, s.scheduled, ctl⟩) ∧
        ctl.filter (·.ok) = s.ctl.filter (·.ok)) :
    ∃ ctl, s.call fd f = .ok (false, { s with ctl := ctl }) ∧
      ctl.filter (·.ok) = s.ctl.filter (·.ok) := by
  by_cases hsize : fd < s.size
  · obtain ⟨p, c, h⟩ := hf.contextAt hfd hsize
    obtain ⟨ctl, heq, hctl⟩ := hrefuse p c h (fun hc => he ⟨p, c, h, hc⟩) hsize
    refine ⟨ctl, ?_, hctl⟩
    rw [call_of_contextAt hsize h, heq]
    exact congrArg (fun s' => Except.ok (false, s')) (unlock_of_refused h)
  · exact ⟨s.ctl, call_of_short (Int.not_lt.mp hsize), rfl⟩

/-- **`delEvent`** does its part wherever the size of the table fits an `int`. -/
theorem delEvent_withdraws (hf : s.Filled) (b : s.Balanced) (hfd : 0 ≤ fd)
    (hsize : ok = true → s.RegisteredAt fd event → fd < s.size) :
    s.Withdraws fd event ok (fun _ s' => s'.scheduled = s.scheduled)
      (s.delEvent fd event ok) := by
  refine ⟨fun he => call_of_not_registeredAt hf hfd he fun p c h hc _ => ?_,
    fun hok p c h hc => ?_⟩
  · refine ⟨s.ctl, ?_, rfl⟩
    rcases Locked.delEvent_cases (s := s.lock c) (e := event) fd ok with ⟨heq, -⟩ | ⟨l, -, hd⟩
    · rw [heq]
      rfl
    · exact absurd hd.registered hc
  · have hlt := hsize hok ⟨p, c, h, hc⟩
    rw [delEvent, call_of_contextAt hlt h]
    rcases Locked.delEvent_cases (s := s.lock c) (e := event) fd ok with ⟨-, hno⟩ | ⟨l, heq, hd⟩
    · exact absurd hc hno
    · rw [heq]
      exact ⟨_, rfl, withdrawn_unlock b h hd.ctx hd.pending, hd.scheduled⟩

/-- The condition for `cancelEvent`. -/
def CancelFits (s : State Th Sched Fn Fb) (fd : ℤ) (event : Event) : Prop :=
  ∀ p c, s.ContextAt fd p c →
    (c.Registered event → fd < s.size ∧ (c.getContext event).scheduler.isSome) ∧
    (¬c.Registered event → fd < s.size → c.events = 0)

theorem cancelEvent_withdraws (hf : s.Filled) (b : s.Balanced) (hfd : 0 ≤ fd)
    (hfits : ok = true → s.CancelFits fd event) :
    s.Withdraws fd event ok s.QueuesWaiter (s.cancelEvent fd event ok) := by
  refine ⟨fun he => call_of_not_registeredAt hf hfd he fun p c h hc hlt => ?_,
    fun hok p c h hc => ?_⟩
  · by_cases h0 : c.events = 0
    · exact ⟨s.ctl, if_pos h0, rfl⟩
    · cases ok with
      | true => exact absurd ((hfits rfl p c h).2 hc hlt) h0
      | false =>
        have hrefused : (s.lock c).cancelEvent fd event false = .ok (false, (s.lock c).epoll_ctl
            (if c.events &&& ~~~event.bit ≠ 0 then EpollOp.MOD else .DEL) fd
            (EPOLLET ||| c.events &&& ~~~event.bit) false) := if_neg h0
        exact ⟨_, hrefused, List.filter_cons_of_neg (by simp)⟩
  · obtain ⟨hlt, hsched⟩ := (hfits hok p c h).1 hc
    subst hok
    rw [cancelEvent, call_of_contextAt hlt h]
    rcases Locked.cancelEvent_cases_ok (s := s.lock c) (e := event) (b.consistent p c h.2)
      (FdContext.events_ne_zero hc) fd with ⟨-, hno⟩ | ⟨-, -, hnone⟩ | ⟨l, heq, hh⟩
    · exact absurd hc hno
    · simp [show (c.getContext event).scheduler = none from hnone] at hsched
    · rw [heq]
      obtain ⟨scheduler, task, hs, hqueue, htask⟩ := hh.scheduled
      exact ⟨_, rfl, withdrawn_unlock b h hh.ctx hh.pending, scheduler, task, hs, htask, hqueue⟩

/-- Where the condition does not hold, `cancelEvent` goes wrong. -/
theorem cancelFits_of_withdraws (b : s.Balanced)
    (h : s.Withdraws fd event true s.QueuesWaiter (s.cancelEvent fd event true)) :
    s.CancelFits fd event := by
  intro p c hat
  by_cases hsize : fd < s.size
  · have hcall := call_of_contextAt (f := fun l => l.cancelEvent fd event true) hsize hat
    refine ⟨fun hc => ⟨hsize, ?_⟩, fun hc _ => ?_⟩
    · obtain ⟨s', -, -, scheduler, task, hsched, -⟩ := h.set rfl p c hat hc
      rw [hsched]
      rfl
    · by_contra h0
      obtain ⟨ctl, heq, -⟩ := h.unset fun hreg => hc (hat.registeredAt_iff.mp hreg)
      rcases Locked.cancelEvent_cases_ok (s := s.lock c) (e := event) (b.consistent p c hat.2)
        h0 fd with ⟨hfail, -⟩ | ⟨-, hreg, -⟩ | ⟨l, -, hh⟩
      · rw [cancelEvent, hcall, hfail] at heq
        exact absurd heq (by simp [Except.map])
      · exact hc hreg
      · exact hc hh.registered
  · refine ⟨fun hc => ?_, fun _ hlt => absurd hlt hsize⟩
    obtain ⟨s', heq, -⟩ := h.set rfl p c hat hc
    rw [cancelEvent, call_of_short (Int.not_lt.mp hsize)] at heq
    exact absurd heq (by simp)

end Calls

section Step

variable [DecidableEq Th] {s : State Th Sched Fn Fb}

/-- A call of `delEvent` is what the thread that makes it does in its two steps. -/
theorem exec_delEvent {v : Th} {fd : ℤ} {event : Event} {ok b : Bool} {p : ℕ}
    {c : FdContext Sched (ℕ × Fn) (ℕ × Fb)} {s' : State Th Sched Fn Fb} (hrun : s.stopped = none)
    (hpc : s.pc v = .rest) (hsize : fd < s.size) (h : s.ContextAt fd p c)
    (hcall : s.delEvent fd event ok = .ok (b, s')) :
    exec step anyAction s [.delEvent v fd event, .del v ok] =
      some { s'.goto v .rest with
        dropped := if b then (c.getContext event).tags ++ s.dropped else s.dropped } := by
  rw [delEvent, call_of_contextAt hsize h] at hcall
  obtain ⟨rfl, rfl⟩ := Prod.ext_iff.mp (Except.ok.inj hcall)
  rw [exec_cons_eq_some]
  refine ⟨trivial, _, step_opens hrun rfl hpc hsize h.1, ?_⟩
  rw [exec_cons_eq_some]
  refine ⟨trivial, _, ?_, rfl⟩
  have hheap : (s.goto v (.deleting p fd event)).heap[p]? = some c := h.2
  simp only [step, goto, hrun, stepRunning, Function.update_self, inSection]
  simp only [goto] at hheap
  rw [hheap]
  simp only [lock, unlock, hrun, Option.isSome_none, Bool.false_eq_true, if_false, Option.map_some,
    Function.update_idem]
  rfl

/-- The same for `cancelEvent`, which may end the program. -/
theorem exec_cancelEvent {v : Th} {fd : ℤ} {event : Event} {ok : Bool} {p : ℕ}
    {c : FdContext Sched (ℕ × Fn) (ℕ × Fb)} (hrun : s.stopped = none)
    (hpc : s.pc v = .rest) (hsize : fd < s.size) (h : s.ContextAt fd p c) :
    exec step anyAction s [.cancelEvent v fd event, .cancel v ok] =
      some (match s.cancelEvent fd event ok with
        | .error f => (s.goto v (.cancelling p fd event)).fail (.cancel v ok) f
        | .ok (_, s') => s'.goto v .rest) := by
  rw [exec_cons_eq_some]
  refine ⟨trivial, _, step_opens hrun rfl hpc hsize h.1, ?_⟩
  rw [exec_cons_eq_some]
  refine ⟨trivial, _, ?_, rfl⟩
  have hheap : (s.goto v (.cancelling p fd event)).heap[p]? = some c := h.2
  rw [cancelEvent, call_of_contextAt hsize h]
  simp only [step, goto, hrun, stepRunning, Function.update_self, inSection]
  simp only [goto] at hheap
  rw [hheap]
  have hlock : lock { s with pc := Function.update s.pc v (.cancelling p fd event) } c =
      s.lock c := rfl
  simp only [hrun] at hlock
  cases hcancel : (s.lock c).cancelEvent fd event ok with
  | error f => simp [hlock, hcancel, Except.map, fail]
  | ok r => simp [hlock, hcancel, Except.map, unlock, hrun]

/-- **When `delEvent` and `cancelEvent` answer right.** In every state the threads can reach, on
every descriptor: both do nothing and return `false` for a direction that is not registered, and
withdraw one that is when `epoll_ctl` succeeds, exactly if the condition for `cancelEvent` holds. -/
theorem withdraws_iff (hr : Reachable step anyAction State.init s) {fd : ℤ} (hfd : 0 ≤ fd)
    (event : Event) (ok : Bool) :
    (s.Withdraws fd event ok (fun _ s' => s'.scheduled = s.scheduled) (s.delEvent fd event ok) ∧
      s.Withdraws fd event ok s.QueuesWaiter (s.cancelEvent fd event ok)) ↔
      (ok = true → s.CancelFits fd event) := by
  have hf := filled hr
  have b := Balanced.of_reachable hr
  constructor
  · rintro ⟨-, h⟩ rfl
    exact cancelFits_of_withdraws b h
  · intro hfits
    refine ⟨delEvent_withdraws hf b hfd fun hok ⟨p, c, hat, hc⟩ => ?_,
      cancelEvent_withdraws hf b hfd hfits⟩
    exact ((hfits hok p c hat).1 hc).1

end Step

/-- A fiber on a scheduler waits to read from descriptor `3`. -/
def readRun : List (Act ℕ ℕ ℕ ℕ) := [.addEvent 0 3 .READ none (some 9) 5 true, .add 0 true]

/-- The state it ends in. -/
def readEnd : State ℕ ℕ ℕ ℕ := (exec step anyAction State.init readRun).get (by decide)

/-- The context of the descriptor. -/
def readContext : FdContext ℕ (ℕ × ℕ) (ℕ × ℕ) :=
  { read := { scheduler := some 9, fiber := some (0, 5) }, fd := 3, events := 1 }

theorem readEnd_contextAt : readEnd.ContextAt 3 3 readContext := ⟨rfl, rfl⟩

theorem withdraws_iff_readEnd :
    readEnd.RegisteredAt 3 .READ ∧
      readEnd.Withdraws 3 .READ true readEnd.QueuesWaiter (readEnd.cancelEvent 3 .READ true) := by
  have hr : Reachable step anyAction State.init readEnd := reachable_get _
  have hfits : readEnd.CancelFits 3 .READ := by
    intro p c hat
    obtain ⟨rfl, rfl⟩ := readEnd_contextAt.unique hat
    exact ⟨fun _ => by decide, fun hno => absurd (by decide : readContext.Registered .READ) hno⟩
  exact ⟨⟨3, readContext, readEnd_contextAt, by decide⟩,
    ((withdraws_iff hr (by decide : (0 : ℤ) ≤ 3) .READ true).mpr fun _ => hfits).2⟩

/-- **A direction nobody waits for, next to one that is registered.** `delEvent` returns `false`,
`cancelEvent` ends the program. -/
theorem cancelEvent_fails :
    Reachable step anyAction State.init readEnd ∧ ¬readEnd.RegisteredAt 3 .WRITE ∧
      readEnd.delEvent 3 .WRITE true = .ok (false, readEnd) ∧
      readEnd.cancelEvent 3 .WRITE true = .error .notRegistered := by
  have hsize : 3 < readEnd.size := by decide
  refine ⟨reachable_get _, ?_, ?_, ?_⟩
  · rw [readEnd_contextAt.registeredAt_iff]
    decide
  · rw [delEvent, call_of_contextAt hsize readEnd_contextAt]
    exact congrArg (fun s' => Except.ok (false, s')) (unlock_of_refused readEnd_contextAt)
  · rw [cancelEvent, call_of_contextAt hsize readEnd_contextAt]
    rfl

end State

end IOManager

end Wille
