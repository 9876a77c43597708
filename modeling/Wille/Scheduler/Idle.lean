import Wille.Scheduler.Steps

/-!
# The end of the idle fiber

`MainFunc` ends a fiber in one of two states, `TERM` if its function has returned and `EXCEPT` if
it has thrown. Where `run` has left the idle fiber it asks for both (`stateTermOrExcept`), but
where it is about to enter it, only for `TERM`. So once an overridden `idle` has thrown, a worker
that finds no task resumes a context that has ended, and does so over and over.

The state of the idle fiber is written in few places, and only a throw writes `EXCEPT`. As long as
`idle` does not throw on a worker, that worker never enters its idle fiber again after the end, and
leaves `run` instead.

## Main definitions

* `Sys.IdleReturns` — `idle` does not throw on this worker in this step

## Main results

* `Sys.ended_idle_resumed` — a run in which an idle fiber is resumed after it has ended
* `Sys.ended_idle_not_resumed` — as long as `idle` does not throw, none is
-/

namespace Wille

namespace Scheduler

open TransitionSystem

variable {W Cb : Type*}

namespace Sys

/-- The step is not the one in which `idle` throws on worker `w`. -/
def IdleReturns (w : W) (_ : Sys W Cb) : Act W Cb → Prop
  | .leaveIdle u st => u = w → st ≠ .EXCEPT
  | _ => True

instance [DecidableEq W] (w : W) (s : Sys W Cb) :
    (a : Act W Cb) → Decidable (s.IdleReturns w a)
  | .leaveIdle u st => inferInstanceAs (Decidable (u = w → st ≠ .EXCEPT))
  | .newFiber | .schedule _ | .scheduleRange _ | .tickle | .callTickle | .callWrite _ | .setAutoStop
  | .setStopping | .run _ | .leave _ _ | .write _ _ | .askTimer _ _ | .askPending _ _
  | .epoll_wait _ | .epollReturn _ | .handled _ _ => instDecidableTrue

/-- The idle fiber of worker `w` has not failed, and it is not about to be entered after its
end. -/
structure Sound (w : W) (s : Sys W Cb) : Prop where
  idle : s.idleFiber w ≠ .EXCEPT
  entering : s.pc w = .idleEnter → s.idleFiber w ≠ .TERM

section Step

variable [DecidableEq W] {k : Kind} {tid : W → ℤ} {s s' : Sys W Cb} {w : W}

/-! ### Who writes the state of an idle fiber -/

theorem idleFiber_update_ne_except {u : W} {st : Fiber.State} (h : s.idleFiber w ≠ .EXCEPT)
    (hst : u = w → st ≠ .EXCEPT) : Function.update s.idleFiber u st w ≠ .EXCEPT := by
  rcases eq_or_ne w u with rfl | hne
  · rw [Function.update_self]
    exact hst rfl
  · rwa [Function.update_of_ne hne]

theorem idleFiber_dispatchCb (u : W) (cb : Option Cb) :
    (s.dispatchCb u cb).idleFiber = s.idleFiber := by
  cases cb <;> rfl

theorem idleFiber_of_woken {reader : Option W} (h : Woken s reader s') :
    s'.idleFiber = s.idleFiber := by
  cases h <;> rfl

/-- `run` itself stores no failure: what it stores after a turn is `HOLD`, or what was there. -/
theorem idle_of_run {u : W} (h : s.idleFiber w ≠ .EXCEPT) (hs : s.run k tid u = some s') :
    s'.idleFiber w ≠ .EXCEPT := by
  cases hpc : s.pc u <;> simp only [run, hpc] at hs
  case dispatch tk =>
    have hcb : (s.dispatchCb u tk.cb).idleFiber w ≠ .EXCEPT := by rwa [idleFiber_dispatchCb]
    split at hs
    · split at hs <;> obtain rfl := Option.some.inj hs
      · exact h
      · exact hcb
    · obtain rfl := Option.some.inj hs
      exact hcb
  case idleEnter =>
    split at hs <;> obtain rfl := Option.some.inj hs
    · exact h
    · exact idleFiber_update_ne_except h fun _ => by decide
  case idleBody =>
    split at hs
    · obtain rfl := Option.some.inj hs
      exact idleFiber_update_ne_except h fun _ => by split <;> decide
    · exact absurd hs (Option.some_ne_none _).symm
  case idleDone =>
    obtain rfl := Option.some.inj hs
    refine idleFiber_update_ne_except h fun hu => ?_
    split
    · rwa [hu]
    · decide
  all_goals
    (repeat' split at hs) <;> first
      | exact absurd hs (Option.some_ne_none _).symm
      | obtain rfl := Option.some.inj hs
        exact h

variable [Fintype W]

/-- **Only a throw makes an idle fiber fail.** -/
theorem idle_of_step {a : Act W Cb} (h : s.idleFiber w ≠ .EXCEPT) (ha : s.IdleReturns w a)
    (hs : s.step k tid a = some s') : s'.idleFiber w ≠ .EXCEPT := by
  rw [step, Option.ite_none_left_eq_some] at hs
  obtain ⟨-, hs⟩ := hs
  cases a with
  | run u => exact idle_of_run h hs
  | callWrite reader =>
    obtain ⟨-, hs⟩ := Option.ite_none_left_eq_some.mp hs
    rwa [idleFiber_of_woken (woken_of_wake hs)]
  | write u reader =>
    simp only [stepRunning] at hs
    split at hs
    · obtain ⟨s₁, hw, rfl⟩ := Option.map_eq_some_iff.mp hs
      exact fun hex => h (idleFiber_of_woken (woken_of_wake hw) ▸ hex)
    · obtain ⟨s₁, hw, rfl⟩ := Option.map_eq_some_iff.mp hs
      exact fun hex => h (idleFiber_of_woken (woken_of_wake hw) ▸ hex)
    · exact absurd hs (Option.some_ne_none _).symm
  | askPending u zero =>
    simp only [stepRunning] at hs
    split at hs
    · split at hs <;> obtain rfl := Option.some.inj hs
      · exact idleFiber_update_ne_except h fun _ => by decide
      · exact h
    · exact absurd hs (Option.some_ne_none _).symm
  | leaveIdle u st =>
    simp only [stepRunning, leaveIdle] at hs
    split at hs
    all_goals first
      | exact absurd hs (Option.some_ne_none _).symm
      | obtain rfl := Option.some.inj hs
        exact idleFiber_update_ne_except h ha
  | _ =>
    simp only [stepRunning, leave] at hs
    (repeat' split at hs) <;> first
      | exact absurd hs (Option.some_ne_none _).symm
      | obtain rfl := Option.some.inj hs
        exact h

/-! ### Who is about to enter one -/

omit [Fintype W] in
/-- A worker that goes somewhere else than to its idle fiber is not one that is about to enter
it. -/
theorem entering_of_goto {u : W} {p : Pc Cb} (hpc : s'.pc = Function.update s.pc u p)
    (hp : p ≠ .idleEnter) (hother : ∀ v, v ≠ u → s'.idleFiber v = s.idleFiber v)
    (h : s'.pc w = .idleEnter) : s'.idleFiber w = s.idleFiber w ∧ s.pc w = .idleEnter := by
  have hne : w ≠ u := by
    rintro rfl
    rw [hpc, Function.update_self] at h
    exact hp h
  rw [hpc, Function.update_of_ne hne] at h
  exact ⟨hother w hne, h⟩

omit [Fintype W] in
theorem entering_of_woken {reader : Option W} (hw : Woken s reader s')
    (h : s'.pc w = .idleEnter) : s'.idleFiber w = s.idleFiber w ∧ s.pc w = .idleEnter := by
  cases hw with
  | reader hx => exact entering_of_goto rfl (by rintro ⟨⟩) (fun _ _ => rfl) h
  | pipe hnone => exact ⟨rfl, h⟩

omit [Fintype W] [DecidableEq W] in
theorem ne_idleEnter_of_moves {u : W} {p p' : Pc Cb} (hm : Moves s u p p') : p' ≠ .idleEnter := by
  rintro rfl
  cases hm

omit [Fintype W] in
/-- **The only way to the idle fiber** is from the place where its state is looked at. -/
theorem entering_of_effect {a : Act W Cb} (he : Effect k tid s a s')
    (h : s'.pc w = .idleEnter) : s'.idleFiber w = s.idleFiber w ∧
      (s.pc w = .idleEnter ∨ a = .run w ∧ s.pc w = .noTask) := by
  have hgo : ∀ {u : W} {p : Pc Cb}, s'.pc = Function.update s.pc u p → p ≠ .idleEnter →
      (∀ v, v ≠ u → s'.idleFiber v = s.idleFiber v) →
      s'.idleFiber w = s.idleFiber w ∧ (s.pc w = .idleEnter ∨ a = .run w ∧ s.pc w = .noTask) :=
    fun hpc hp hother => (entering_of_goto hpc hp hother h).imp id Or.inl
  cases he with
  | move hpc hm => exact hgo rfl (ne_idleEnter_of_moves hm) fun _ _ => rfl
  | idleUp hpc =>
    rename_i u
    rcases eq_or_ne w u with rfl | hne
    · exact ⟨rfl, Or.inr ⟨rfl, hpc⟩⟩
    · exact ⟨rfl, Or.inl ((goto_pc_of_ne _ hne _).symm.trans h)⟩
  | uncount hpc hp | deaf hpc hp => exact hgo rfl (by rintro rfl; cases hp) fun _ _ => rfl
  | requeue hpc hp => exact hgo rfl (by rcases hp with ⟨-, rfl⟩ | rfl <;> rintro ⟨⟩) fun _ _ => rfl
  | idleIn hpc | idleOut hpc hp hst | idleRest hpc hst =>
    exact hgo rfl (by rintro ⟨⟩) fun v hv => Function.update_of_ne hv ..
  | write hpc hp hwake =>
    rename_i u p p' reader s₁
    have hp' : p' ≠ .idleEnter := by
      rintro rfl
      cases hp
    obtain ⟨hsame, hin⟩ := entering_of_goto
      (rfl : (s₁.goto u p').pc = Function.update s₁.pc u p') hp' (fun _ _ => rfl) h
    obtain ⟨hsame', hin'⟩ := entering_of_woken hwake hin
    exact ⟨hsame.trans hsame', Or.inl hin'⟩
  | callWrite hwriting hwake => exact (entering_of_woken hwake h).imp id Or.inl
  | newFiber | called | tickle | callTickle | callDeaf | flags | fail => exact ⟨rfl, Or.inl h⟩
  | _ => exact hgo rfl (by rintro ⟨⟩) fun _ _ => rfl

/-! ### Runs -/

/-- **The step lemma.** -/
theorem Sound.of_step {a : Act W Cb} (h : s.Sound w) (ha : s.IdleReturns w a)
    (hs : s.step k tid a = some s') : s'.Sound w := by
  refine ⟨idle_of_step h.idle ha hs, fun hin => ?_⟩
  obtain ⟨hsame, hold | ⟨rfl, hpc⟩⟩ := entering_of_effect (effect_of_step hs) hin
  · rw [hsame]
    exact h.entering hold
  · -- the test in `run` has just been passed
    rw [hsame]
    intro hterm
    rw [step, Option.ite_none_left_eq_some] at hs
    simp only [stepRunning, run, hpc, hterm, if_true] at hs
    obtain rfl := Option.some.inj hs.2
    rw [goto_pc_self] at hin
    cases hin

/-- **An idle fiber that has ended is not resumed, as long as `idle` does not throw.** In every
state reached in which `idle` has not thrown on worker `w`, by whatever order of steps: if the
worker is about to enter its idle fiber, the fiber has not ended; and if it has found no task and
the fiber has ended, it leaves `run`. -/
theorem ended_idle_not_resumed (hr : Reachable (step k tid) (IdleReturns w) Sys.init s) :
    (s.pc w = .idleEnter → (s.idleFiber w).termOrExcept = false) ∧
    (s.pc w = .noTask → (s.idleFiber w).termOrExcept = true → s.fault = none →
      s.step k tid (.run w) = some (s.goto w .exited)) := by
  have h : s.Sound w := hr.invariant (P := Sound w)
    ⟨by rintro ⟨⟩, by rintro ⟨⟩⟩ fun _ _ _ h ha hs => h.of_step ha hs
  have hended : (s.idleFiber w).termOrExcept = true → s.idleFiber w = .TERM := by
    intro hend
    simp only [Fiber.State.termOrExcept, Bool.or_eq_true, decide_eq_true_eq] at hend
    exact hend.resolve_right h.idle
  constructor
  · intro hpc
    rw [← Bool.not_eq_true]
    exact fun hend => h.entering hpc (hended hend)
  · intro hpc hend hfault
    simp [step, hfault, stepRunning, run, hpc, hended hend]

end Step

/-- A worker finds no task, enters its idle fiber, and `idle` of a subclass ends with this state. -/
def idleRun (st : Fiber.State) : List (Act Unit ℕ) :=
  [.run (), .run (), .run (), .leaveIdle () st, .run (), .run (), .run ()]

/-- The worker has found no task again after `idle` has returned. -/
def returnedEnd : Sys Unit ℕ :=
  (exec (step .custom fun _ => 1) (IdleReturns ()) Sys.init (idleRun .TERM)).get (by decide)

theorem ended_idle_not_resumed_returnedEnd :
    (returnedEnd.idleFiber ()).termOrExcept = true ∧
      returnedEnd.step .custom (fun _ => 1) (.run ()) = some (returnedEnd.goto () .exited) :=
  have hpc : returnedEnd.pc () = .noTask := rfl
  have hend : (returnedEnd.idleFiber ()).termOrExcept = true := by decide
  ⟨hend, (ended_idle_not_resumed (reachable_get (by decide : (exec (step .custom fun _ => 1)
    (IdleReturns ()) Sys.init (idleRun .TERM)).isSome))).2 hpc hend rfl⟩

/-- **After a throw the idle fiber is resumed.** `idle` throws, and the worker is about to enter
the fiber again; instead of leaving `run`, it goes there from where it has found no task. -/
theorem ended_idle_resumed :
    ¬∀ s : Sys Unit ℕ, Reachable (step .custom fun _ => 1) anyAction Sys.init s →
      (s.pc () = .idleEnter → (s.idleFiber ()).termOrExcept = false) ∧
      (s.pc () = .noTask → (s.idleFiber ()).termOrExcept = true → s.fault = none →
        s.step .custom (fun _ => 1) (.run ()) = some (s.goto () .exited)) := by
  intro h
  have hbad := (h _ (reachable_get (by decide : (exec (step .custom fun _ => 1) anyAction Sys.init
    (idleRun .EXCEPT ++ [.run ()])).isSome))).1 rfl
  exact absurd hbad (by decide)

end Sys

end Scheduler

end Wille
