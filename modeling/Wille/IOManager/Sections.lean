import Wille.IOManager.FdContext
import Mathlib.Data.List.Perm.Basic
import Mathlib.Tactic.Common

/-!
# What the sections do to a context

The five operations clean up along different paths: `triggerEvent` swaps the waiter into a task,
`delEvent` resets its context, `addEvent` fills one. Under the relation between mask and contexts
that all of them rely on, each comes down to one of three moves on a direction: `register` it,
`unset` it and hand the waiter over, or `unset` it and drop the waiter.

## Main definitions

* `EventContext.Full`, `EventContext.Empty`, `FdContext.Consistent` — mask and contexts agree
* `FdContext.register`, `FdContext.unset` — the moves
* `Handing` — a direction is unset and its waiter is queued

## Main results

* `triggerPending_cases` — under the relation `triggerEvent` hands over and leaves nothing behind
* `addEvent_cases`, `delEvent_cases`, `cancelEvent_cases`, `cancelAll_cases`, `idle_cases`
-/

namespace Wille

namespace IOManager

variable {Sched Fn Fb : Type*}

/-- Somebody waits: exactly one of callback and fiber. -/
def EventContext.Full (ctx : EventContext Sched Fn Fb) : Prop :=
  (ctx.cb.isSome ∧ ctx.fiber = none) ∨ (ctx.cb = none ∧ ctx.fiber.isSome)

/-- Nobody waits. -/
def EventContext.Empty (ctx : EventContext Sched Fn Fb) : Prop :=
  ctx.scheduler = none ∧ ctx.fiber = none ∧ ctx.cb = none

namespace FdContext

/-- The bit of the direction is set. -/
def Registered (c : FdContext Sched Fn Fb) (e : Event) : Prop := c.events &&& e.bit ≠ 0

instance (c : FdContext Sched Fn Fb) (e : Event) : Decidable (c.Registered e) :=
  inferInstanceAs (Decidable (_ ≠ _))

/-- Mask and contexts agree. -/
structure Consistent (c : FdContext Sched Fn Fb) : Prop where
  /-- No other bit is ever set. -/
  mask : c.events = 0 ∨ c.events = 1 ∨ c.events = 4 ∨ c.events = 5
  /-- Somebody waits for a registered direction. -/
  full : ∀ e, c.Registered e → (c.getContext e).Full
  /-- Nobody waits for one that is not. -/
  empty : ∀ e, ¬c.Registered e → (c.getContext e).Empty

/-- How many directions are registered. -/
def bits (c : FdContext Sched Fn Fb) : ℕ :=
  (if c.Registered .READ then 1 else 0) + (if c.Registered .WRITE then 1 else 0)

/-- Clear the bit of a direction and empty its context. -/
def unset (c : FdContext Sched Fn Fb) (e : Event) : FdContext Sched Fn Fb :=
  { c with events := c.events &&& ~~~e.bit }.setContext e {}

/-- Set the bit of a direction and fill its context. -/
def register (c : FdContext Sched Fn Fb) (e : Event) (ctx : EventContext Sched Fn Fb) :
    FdContext Sched Fn Fb :=
  { c with events := c.events ||| e.bit }.setContext e ctx

/-! ### The moves -/

section Moves

variable {c : FdContext Sched Fn Fb} {e : Event} {ctx : EventContext Sched Fn Fb}

@[simp] theorem setContext_fd : (c.setContext e ctx).fd = c.fd := by cases e <;> rfl

@[simp] theorem setContext_events : (c.setContext e ctx).events = c.events := by cases e <;> rfl

@[simp] theorem getContext_setContext_self : (c.setContext e ctx).getContext e = ctx := by
  cases e <;> rfl

theorem getContext_setContext_of_ne {e' : Event} (h : e' ≠ e) :
    (c.setContext e ctx).getContext e' = c.getContext e' := by
  cases e <;> cases e' <;> first | rfl | exact absurd rfl h

@[simp] theorem unset_events : (c.unset e).events = c.events &&& ~~~e.bit := setContext_events

@[simp] theorem register_events : (c.register e ctx).events = c.events ||| e.bit :=
  setContext_events

@[simp] theorem unset_fd : (c.unset e).fd = c.fd := setContext_fd

@[simp] theorem register_fd : (c.register e ctx).fd = c.fd := setContext_fd

theorem getContext_unset_self : (c.unset e).getContext e = {} := getContext_setContext_self

theorem getContext_unset_of_ne {e' : Event} (h : e' ≠ e) :
    (c.unset e).getContext e' = c.getContext e' := by
  rw [unset, getContext_setContext_of_ne h]
  cases e' <;> rfl

theorem getContext_register_self : (c.register e ctx).getContext e = ctx :=
  getContext_setContext_self

theorem getContext_register_of_ne {e' : Event} (h : e' ≠ e) :
    (c.register e ctx).getContext e' = c.getContext e' := by
  rw [register, getContext_setContext_of_ne h]
  cases e' <;> rfl

theorem registered_unset (hc : c.Consistent) {e' : Event} :
    (c.unset e).Registered e' ↔ e' ≠ e ∧ c.Registered e' := by
  rw [Registered, Registered, unset_events]
  rcases hc.mask with h | h | h | h <;> rw [h] <;> cases e <;> cases e' <;> decide

theorem registered_register (hc : c.Consistent) {e' : Event} :
    (c.register e ctx).Registered e' ↔ e' = e ∨ c.Registered e' := by
  rw [Registered, Registered, register_events]
  rcases hc.mask with h | h | h | h <;> rw [h] <;> cases e <;> cases e' <;> decide

theorem bits_unset (hc : c.Consistent) (he : c.Registered e) : (c.unset e).bits + 1 = c.bits := by
  cases e <;> simp [bits, registered_unset hc, he, Nat.add_comm]

theorem bits_register (hc : c.Consistent) (he : ¬c.Registered e) :
    (c.register e ctx).bits = c.bits + 1 := by
  cases e <;> simp [bits, registered_register hc, he, Nat.add_comm]

theorem Consistent.unset (hc : c.Consistent) : (c.unset e).Consistent where
  mask := by
    rw [unset_events]
    rcases hc.mask with h | h | h | h <;> rw [h] <;> cases e <;> decide
  full e' he' := by
    obtain ⟨hne, hreg⟩ := (registered_unset hc).mp he'
    rw [getContext_unset_of_ne hne]
    exact hc.full e' hreg
  empty e' he' := by
    rcases eq_or_ne e' e with rfl | hne
    · rw [getContext_unset_self]
      exact ⟨rfl, rfl, rfl⟩
    · rw [getContext_unset_of_ne hne]
      exact hc.empty e' fun hreg => he' ((registered_unset hc).mpr ⟨hne, hreg⟩)

theorem Consistent.register (hc : c.Consistent) (hctx : ctx.Full) :
    (c.register e ctx).Consistent where
  mask := by
    rw [register_events]
    rcases hc.mask with h | h | h | h <;> rw [h] <;> cases e <;> decide
  full e' he' := by
    rcases eq_or_ne e' e with rfl | hne
    · rw [getContext_register_self]
      exact hctx
    · rw [getContext_register_of_ne hne]
      exact hc.full e' (((registered_register hc).mp he').resolve_left hne)
  empty e' he' := by
    have hne : e' ≠ e := fun h => he' ((registered_register hc).mpr (Or.inl h))
    rw [getContext_register_of_ne hne]
    exact hc.empty e' fun hreg => he' ((registered_register hc).mpr (Or.inr hreg))

theorem events_eq_zero_iff (hc : c.Consistent) :
    c.events = 0 ↔ ¬c.Registered .READ ∧ ¬c.Registered .WRITE := by
  rw [Registered, Registered]
  rcases hc.mask with h | h | h | h <;> rw [h] <;> decide

/-- A new context. -/
theorem not_registered_new (fd : ℤ) (e : Event) :
    ¬({ fd := fd } : FdContext Sched Fn Fb).Registered e :=
  not_not.mpr BitVec.zero_and

theorem bits_new (fd : ℤ) : ({ fd := fd } : FdContext Sched Fn Fb).bits = 0 := by
  rw [bits, if_neg (not_registered_new fd .READ), if_neg (not_registered_new fd .WRITE)]

theorem Consistent.new (fd : ℤ) : ({ fd := fd } : FdContext Sched Fn Fb).Consistent where
  mask := Or.inl rfl
  full e he := absurd he (not_registered_new fd e)
  empty e _ := by cases e <;> exact ⟨rfl, rfl, rfl⟩

end Moves

end FdContext

/-! ### The sections -/

/-- Only the record of `epoll_ctl` calls may have changed. -/
structure Kept (s s' : Locked Sched Fn Fb) : Prop where
  ctx : s'.ctx = s.ctx
  pending : s'.pending = s.pending
  scheduled : s'.scheduled = s.scheduled

/-- A direction is unset and its waiter is queued at its scheduler. -/
structure Handing (s s' : Locked Sched Fn Fb) (e : Event) : Prop where
  registered : s.ctx.Registered e
  ctx : s'.ctx = s.ctx.unset e
  pending : s'.pending = s.pending - 1
  scheduled : ∃ scheduler task, (s.ctx.getContext e).scheduler = some scheduler ∧
    s'.scheduled = (scheduler, task) :: s.scheduled ∧
    ((s.ctx.getContext e).cb.map Task.cb).toList ++
      ((s.ctx.getContext e).fiber.map Task.fiber).toList = [task]

/-- One direction after another is handed over, perhaps none. -/
def HandsOver : Locked Sched Fn Fb → Locked Sched Fn Fb → Prop :=
  Relation.ReflTransGen fun s s' => Kept s s' ∨ ∃ e, Handing s s' e

theorem HandsOver.of_kept {s s' : Locked Sched Fn Fb} (h : Kept s s') : HandsOver s s' :=
  .single (Or.inl h)

theorem HandsOver.of_handing {s s' : Locked Sched Fn Fb} {e : Event} (h : Handing s s' e) :
    HandsOver s s' :=
  .single (Or.inr ⟨e, h⟩)

theorem HandsOver.trans {s s' s'' : Locked Sched Fn Fb} (h : HandsOver s s')
    (h' : HandsOver s' s'') : HandsOver s s'' :=
  Relation.ReflTransGen.trans h h'

/-- A direction is unset and its waiter is dropped. -/
structure Dropping (s s' : Locked Sched Fn Fb) (e : Event) : Prop where
  registered : s.ctx.Registered e
  ctx : s'.ctx = s.ctx.unset e
  pending : s'.pending = s.pending - 1
  scheduled : s'.scheduled = s.scheduled

/-- A direction is registered. -/
structure Adding (s s' : Locked Sched Fn Fb) (e : Event) (ctx : EventContext Sched Fn Fb) :
    Prop where
  free : ¬s.ctx.Registered e
  ctx : s'.ctx = s.ctx.register e ctx
  pending : s'.pending = s.pending + 1
  scheduled : s'.scheduled = s.scheduled

/-- The context `addEvent` fills in. -/
def newContext (cb : Option Fn) (scheduler : Option Sched) (fiber : Fb) :
    EventContext Sched Fn Fb :=
  { scheduler, cb, fiber := if cb.isSome then none else some fiber }

theorem newContext_full (cb : Option Fn) (scheduler : Option Sched) (fiber : Fb) :
    (newContext cb scheduler fiber).Full := by
  cases cb with
  | none => exact Or.inr ⟨rfl, rfl⟩
  | some cb => exact Or.inl ⟨rfl, rfl⟩

/-- Whoever waits has a scheduler. -/
def FdContext.Scheduled (c : FdContext Sched Fn Fb) : Prop :=
  ∀ e, c.Registered e → (c.getContext e).scheduler.isSome

theorem FdContext.not_scheduled {c : FdContext Sched Fn Fb} {e : Event} (he : c.Registered e)
    (hnone : (c.getContext e).scheduler = none) : ¬c.Scheduled := by
  intro h
  simpa [hnone] using h e he

theorem FdContext.Scheduled.unset {c : FdContext Sched Fn Fb} {e : Event} (h : c.Scheduled)
    (hc : c.Consistent) : (c.unset e).Scheduled := by
  intro e' he'
  obtain ⟨hne, hreg⟩ := (registered_unset hc).mp he'
  rw [getContext_unset_of_ne hne]
  exact h e' hreg

namespace Locked

variable {s : Locked Sched Fn Fb} {e : Event}

/-- **`triggerEvent` hands over and leaves nothing behind**, if the direction is registered and its
scheduler is there. -/
theorem triggerPending_cases (hc : s.ctx.Consistent) :
    (s.triggerPending e = .error .notRegistered ∧ ¬s.ctx.Registered e) ∨
    (s.triggerPending e = .error .nullScheduler ∧ s.ctx.Registered e ∧
      (s.ctx.getContext e).scheduler = none) ∨
    ∃ s', s.triggerPending e = .ok s' ∧ Handing s s' e := by
  by_cases he : s.ctx.Registered e
  · refine Or.inr ?_
    rw [triggerPending, triggerEvent, if_neg he]
    rcases hsched : (s.ctx.getContext e).scheduler with _ | scheduler
    · exact Or.inl ⟨by simp only [hsched]; rfl, he, rfl⟩
    refine Or.inr ?_
    -- exactly one of callback and fiber is there, and it is swapped out
    rcases hc.full e he with ⟨hcb, hfiber⟩ | ⟨hcb, hfiber⟩
    · obtain ⟨cb, hcb⟩ := Option.isSome_iff_exists.mp hcb
      simp only [hsched, hcb, hfiber]
      exact ⟨_, rfl, he, rfl, rfl, scheduler, .cb cb, hsched, rfl, by rw [hcb, hfiber]; rfl⟩
    · obtain ⟨fiber, hfiber⟩ := Option.isSome_iff_exists.mp hfiber
      simp only [hsched, hcb, hfiber]
      exact ⟨_, rfl, he, rfl, rfl, scheduler, .fiber fiber, hsched, rfl,
        by rw [hcb, hfiber]; rfl⟩
  · refine Or.inl ⟨?_, he⟩
    rw [triggerPending, triggerEvent, if_pos (not_not.mp he)]
    rfl

theorem kept_epoll_ctl (op : EpollOp) (fd : ℤ) (events : BitVec 32) (ok : Bool) :
    Kept s (s.epoll_ctl op fd events ok) := ⟨rfl, rfl, rfl⟩

theorem addEvent_cases (hc : s.ctx.Consistent) (fd : ℤ) (cb : Option Fn)
    (scheduler : Option Sched) (fiber : Fb) (exec ok : Bool) :
    (∃ f, s.addEvent fd e cb scheduler fiber exec ok = .error f ∧
      (f = .registered ∨ f = .fiberState)) ∨
    (∃ s', s.addEvent fd e cb scheduler fiber exec ok = .ok (false, s') ∧ Kept s s') ∨
    ∃ s', s.addEvent fd e cb scheduler fiber exec ok = .ok (true, s') ∧
      Adding s s' e (newContext cb scheduler fiber) := by
  by_cases he : s.ctx.Registered e
  · exact Or.inl ⟨_, if_pos he, Or.inl rfl⟩
  obtain ⟨hsched, hfiber, hcb⟩ := hc.empty e he
  rw [addEvent, if_neg (show ¬(s.ctx.events &&& e.bit ≠ 0) from he)]
  cases ok with
  | false => exact Or.inr (Or.inl ⟨_, rfl, kept_epoll_ctl ..⟩)
  | true =>
    simp only [Locked.epoll_ctl, hsched, hfiber, hcb]
    cases cb with
    | some cb => exact Or.inr (Or.inr ⟨_, rfl, he, rfl, rfl, rfl⟩)
    | none =>
      cases exec with
      | false => exact Or.inl ⟨_, rfl, Or.inr rfl⟩
      | true => exact Or.inr (Or.inr ⟨_, rfl, he, rfl, rfl, rfl⟩)

theorem delEvent_cases (fd : ℤ) (ok : Bool) :
    (s.delEvent fd e ok = (false, s) ∧ ¬s.ctx.Registered e) ∨
    ∃ s', s.delEvent fd e ok = (true, s') ∧ Dropping s s' e := by
  rw [delEvent]
  by_cases he : s.ctx.Registered e
  · exact Or.inr ⟨_, if_neg he, he, rfl, rfl, rfl⟩
  · exact Or.inl ⟨if_pos (not_not.mp he), he⟩

theorem cancelEvent_cases (hc : s.ctx.Consistent) (fd : ℤ) (ok : Bool) :
    (s.cancelEvent fd e ok = .error .notRegistered ∧ ¬s.ctx.Registered e) ∨
    (s.cancelEvent fd e ok = .error .nullScheduler ∧ ¬s.ctx.Scheduled) ∨
    ∃ b s', s.cancelEvent fd e ok = .ok (b, s') ∧ HandsOver s s' := by
  rw [cancelEvent]
  split
  · exact Or.inr (Or.inr ⟨_, _, rfl, .refl⟩)
  cases ok with
  | false => exact Or.inr (Or.inr ⟨_, _, rfl, .of_kept (kept_epoll_ctl ..)⟩)
  | true =>
    simp only [Bool.not_true, Bool.false_eq_true, if_false]
    set s₁ := s.epoll_ctl (if s.ctx.events &&& ~~~e.bit ≠ 0 then EpollOp.MOD else .DEL) fd
      (EPOLLET ||| s.ctx.events &&& ~~~e.bit) true with hs₁
    have hk : Kept s s₁ := kept_epoll_ctl ..
    have hc₁ : s₁.ctx.Consistent := hc
    rcases triggerPending_cases (e := e) hc₁ with
      ⟨heq, he⟩ | ⟨heq, he, hnone⟩ | ⟨s', heq, he⟩ <;> rw [heq]
    · exact Or.inl ⟨rfl, he⟩
    · exact Or.inr (Or.inl ⟨rfl, FdContext.not_scheduled he hnone⟩)
    · exact Or.inr (Or.inr ⟨_, _, rfl, (HandsOver.of_kept hk).trans (.of_handing he)⟩)

/-- A conditional trigger whose condition is that the direction is registered. -/
theorem triggerIf_cases (hc : s.ctx.Consistent) (events : BitVec 32) :
    (s.triggerIf events e = .error .notRegistered ∧ events &&& e.bit ≠ 0 ∧
      ¬s.ctx.Registered e) ∨
    (s.triggerIf events e = .error .nullScheduler ∧ ¬s.ctx.Scheduled) ∨
    (s.triggerIf events e = .ok s ∧ events &&& e.bit = 0) ∨
    ∃ s', s.triggerIf events e = .ok s' ∧ Handing s s' e := by
  rw [triggerIf]
  split
  · rename_i hev
    rcases triggerPending_cases (e := e) hc with
      ⟨heq, he⟩ | ⟨heq, he, hnone⟩ | ⟨s', heq, he⟩ <;> rw [heq]
    · exact Or.inl ⟨rfl, hev, he⟩
    · exact Or.inr (Or.inl ⟨rfl, FdContext.not_scheduled he hnone⟩)
    · exact Or.inr (Or.inr (Or.inr ⟨s', rfl, he⟩))
  · rename_i hev
    exact Or.inr (Or.inr (Or.inl ⟨rfl, not_not.mp hev⟩))

/-- What is left registered after one direction was handed over, if its bit was set in `events`. -/
theorem triggerIf_ok {s' : Locked Sched Fn Fb} {events : BitVec 32} (hc : s.ctx.Consistent)
    (h : s.triggerIf events e = .ok s') :
    HandsOver s s' ∧ s'.ctx.Consistent ∧ (s.ctx.Scheduled → s'.ctx.Scheduled) ∧
      (events &&& e.bit ≠ 0 → s.ctx.Registered e ∧ ¬s'.ctx.Registered e) ∧
      ∀ e', e' ≠ e → (s'.ctx.Registered e' ↔ s.ctx.Registered e') := by
  rcases triggerIf_cases (e := e) hc events with
    ⟨heq, -⟩ | ⟨heq, -⟩ | ⟨heq, hev⟩ | ⟨s₁, heq, hh⟩ <;> rw [heq] at h
  · exact absurd h (by simp)
  · exact absurd h (by simp)
  · obtain rfl := Except.ok.inj h
    exact ⟨.refl, hc, id, fun hne => absurd hev hne, fun _ _ => Iff.rfl⟩
  · obtain rfl := Except.ok.inj h
    rw [hh.ctx]
    refine ⟨.of_handing hh, hc.unset, fun hs => hs.unset hc, fun _ => ⟨hh.registered, ?_⟩,
      fun e' hne => (FdContext.registered_unset hc).trans (and_iff_right hne)⟩
    exact fun he => ((FdContext.registered_unset hc).mp he).1 rfl

/-- A trigger conditional on the current mask finds its direction registered. -/
theorem triggerIf_own (hc : s.ctx.Consistent) :
    (s.triggerIf s.ctx.events e = .error .nullScheduler ∧ ¬s.ctx.Scheduled) ∨
    ∃ s', s.triggerIf s.ctx.events e = .ok s' ∧ ¬s'.ctx.Registered e := by
  rcases triggerIf_cases (e := e) hc s.ctx.events with
    ⟨-, hev, he⟩ | hnull | ⟨heq, hev⟩ | ⟨s', heq, hh⟩
  · exact absurd hev he
  · exact Or.inl hnull
  · exact Or.inr ⟨s, heq, not_not.mpr hev⟩
  · refine Or.inr ⟨s', heq, fun he => ?_⟩
    rw [hh.ctx] at he
    exact ((FdContext.registered_unset hc).mp he).1 rfl

theorem cancelAll_cases (hc : s.ctx.Consistent) (fd : ℤ) (ok : Bool) :
    (s.cancelAll fd ok = .error .nullScheduler ∧ ¬s.ctx.Scheduled) ∨
    ∃ b s', s.cancelAll fd ok = .ok (b, s') ∧ HandsOver s s' := by
  by_cases h0 : s.ctx.events = 0
  · exact Or.inr ⟨false, s, by rw [cancelAll, if_pos h0], .refl⟩
  rw [cancelAll, if_neg h0]
  have hk : Kept s (s.epoll_ctl .DEL fd 0 ok) := kept_epoll_ctl ..
  cases ok with
  | false => exact Or.inr ⟨_, _, rfl, .of_kept hk⟩
  | true =>
    simp only [Bool.not_true, Bool.false_eq_true, if_false]
    have hc₀ : (s.epoll_ctl .DEL fd 0 true).ctx.Consistent := hc
    rcases triggerIf_own (e := .READ) hc₀ with ⟨heq, hs⟩ | ⟨s₁, heq, hread⟩ <;> rw [heq]
    · exact Or.inl ⟨rfl, hs⟩
    obtain ⟨hh₁, hc₁, hsched₁, -, -⟩ := triggerIf_ok hc₀ heq
    simp only [Except.bind]
    rcases triggerIf_own (e := .WRITE) hc₁ with ⟨heq₂, hs⟩ | ⟨s₂, heq₂, hwrite⟩ <;> rw [heq₂]
    · exact Or.inl ⟨rfl, fun h => hs (hsched₁ h)⟩
    obtain ⟨hh₂, hc₂, -, -, hsub⟩ := triggerIf_ok hc₁ heq₂
    -- both directions have been handed over, so nothing is left
    have hnone : s₂.ctx.events = 0 :=
      (FdContext.events_eq_zero_iff hc₂).mpr
        ⟨fun h => hread ((hsub .READ (by decide)).mp h), hwrite⟩
    simp only [hnone, if_true]
    exact Or.inr ⟨_, _, rfl, ((HandsOver.of_kept hk).trans hh₁).trans hh₂⟩

/-- **One reported entry.** It goes wrong exactly when a direction is reported that is not
registered while another one is. -/
theorem idle_cases (hc : s.ctx.Consistent) (reported : BitVec 32) (ok : Bool) :
    (s.idle reported ok = .error .notRegistered ∧ ok = true ∧
      s.ctx.events &&& real_events s.ctx.events reported ≠ 0 ∧
      ∃ e : Event, real_events s.ctx.events reported &&& e.bit ≠ 0 ∧ ¬s.ctx.Registered e) ∨
    (s.idle reported ok = .error .nullScheduler ∧ ¬s.ctx.Scheduled) ∨
    ∃ s', s.idle reported ok = .ok s' ∧ HandsOver s s' ∧
      (ok = true → s.ctx.events &&& real_events s.ctx.events reported ≠ 0 →
        ∀ e : Event, real_events s.ctx.events reported &&& e.bit ≠ 0 → s.ctx.Registered e) := by
  rw [idle]
  set real := real_events s.ctx.events reported
  by_cases h0 : s.ctx.events &&& real = 0
  · exact Or.inr (Or.inr ⟨s, if_pos h0, .refl, fun _ h => absurd h0 h⟩)
  simp only [if_neg h0]
  set s₀ := s.epoll_ctl (if s.ctx.events &&& ~~~real ≠ 0 then EpollOp.MOD else .DEL) s.ctx.fd
    (EPOLLET ||| s.ctx.events &&& ~~~real) ok with hs₀
  have hk : Kept s s₀ := kept_epoll_ctl ..
  have hc₀ : s₀.ctx.Consistent := hc
  cases ok with
  | false => exact Or.inr (Or.inr ⟨_, rfl, .of_kept hk, fun h => absurd h (by simp)⟩)
  | true =>
    simp only [Bool.not_true, Bool.false_eq_true, if_false]
    rcases hread : s₀.triggerIf real .READ with f | s₁
    · rcases triggerIf_cases (e := .READ) hc₀ real with
        ⟨heq, hev, he⟩ | ⟨heq, hs⟩ | ⟨heq, -⟩ | ⟨s₁, heq, -⟩ <;> rw [hread] at heq
      · exact Or.inl ⟨by rw [Except.error.inj heq]; rfl, trivial, h0, .READ, hev, he⟩
      · exact Or.inr (Or.inl ⟨by rw [Except.error.inj heq]; rfl, hs⟩)
      · exact absurd heq (by simp)
      · exact absurd heq (by simp)
    obtain ⟨hh₁, hc₁, hsched₁, hev₁, hsub₁⟩ := triggerIf_ok hc₀ hread
    simp only [Except.bind]
    rcases hwrite : s₁.triggerIf real .WRITE with f | s₂
    · rcases triggerIf_cases (e := .WRITE) hc₁ real with
        ⟨heq, hev, he⟩ | ⟨heq, hs⟩ | ⟨heq, -⟩ | ⟨s₂, heq, -⟩ <;> rw [hwrite] at heq
      · refine Or.inl ⟨by rw [Except.error.inj heq], trivial, h0, .WRITE, hev, fun h => ?_⟩
        exact he ((hsub₁ .WRITE (by decide)).mpr h)
      · exact Or.inr (Or.inl ⟨by rw [Except.error.inj heq], fun h => hs (hsched₁ h)⟩)
      · exact absurd heq (by simp)
      · exact absurd heq (by simp)
    · obtain ⟨hh₂, -, -, hev₂, -⟩ := triggerIf_ok hc₁ hwrite
      refine Or.inr (Or.inr ⟨s₂, rfl, ((HandsOver.of_kept hk).trans hh₁).trans hh₂,
        fun _ _ e he => ?_⟩)
      cases e with
      | READ => exact (hev₁ he).1
      | WRITE => exact (hsub₁ .WRITE (by decide)).mp (hev₂ he).1

end Locked

end IOManager

end Wille
