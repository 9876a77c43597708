import Wille.ForMathlib.Counting
import Wille.Scheduler.Steps

/-!
# What `stopping` knows of the workers

`stopping` looks at the queue, under the mutex, and at `m_activeThreadCount`, which `run` changes
outside of it. So there are two windows in which a worker has a task and neither shows it: after
taking the task out of the queue and before the increment, and after the decrement and before a
fiber that is `READY` is back in the queue.

The counter itself is exact. Hence these two windows are all there is: whenever `stopping` holds,
either a worker stands in one of them or no worker has anything left to do.

## Main definitions

* `Sys.Outstanding` — a worker has a task it has still to run, is running one, or has still to put
  a `READY` fiber back
* `Sys.Window` — the two windows

## Main results

* `Sys.active_eq` — the counter counts the workers between the two changes
* `Sys.stopping_too_early` — a run in which `stopping` holds with a task outstanding
* `Sys.stopping_iff` — when `stopping` holds, nothing is outstanding iff the windows are empty
-/

namespace Wille

namespace Scheduler

open TransitionSystem Counting

variable {W Cb : Type*}

/-- Whether a worker at this place counts in `m_activeThreadCount`. -/
def Pc.active : Pc Cb → ℕ
  | .counted _ | .tickling _ | .dispatch _ | .prepare _ | .enter _ _ | .body _ _ | .leave _ _
  | .back _ _ | .drop => 1
  | _ => 0

namespace Sys

/-- There is something to run in the task. -/
def Runnable (s : Sys W Cb) (t : Task Cb) : Prop :=
  (∃ f ∈ t.fiber, (s.state f).termOrExcept = false) ∨ t.cb.isSome

instance (s : Sys W Cb) (t : Task Cb) : Decidable (s.Runnable t) :=
  inferInstanceAs (Decidable (_ ∨ _))

/-- A worker at this place holds a task it has still to run, is running one, or has still to put a
`READY` fiber back. -/
def Outstanding (s : Sys W Cb) : Pc Cb → Prop
  | .picked tk | .counted tk | .tickling tk | .dispatch tk => s.Runnable tk
  | .prepare _ | .enter _ _ | .body _ _ | .leave _ _ | .requeue _ _ => True
  | .back f _ | .done f _ => s.state f = .READY
  | _ => False

/-- It is in one of the two windows: its task is in neither the queue nor the counter, or its
`READY` fiber is in neither any more. -/
def Window (s : Sys W Cb) : Pc Cb → Prop
  | .picked tk => s.Runnable tk
  | .done f _ => s.state f = .READY
  | .requeue _ _ => True
  | _ => False

theorem Window.outstanding {s : Sys W Cb} {p : Pc Cb} (h : s.Window p) : s.Outstanding p := by
  cases p <;> first | exact h | exact absurd h id

/-- Who is not counted and has a task is in one of the windows. -/
theorem Outstanding.window {s : Sys W Cb} {p : Pc Cb} (h : s.Outstanding p) (hp : p.active = 0) :
    s.Window p := by
  cases p <;> first | exact h | exact absurd h id | exact absurd hp Nat.one_ne_zero

section Step

variable [DecidableEq W] [Fintype W] {k : Kind} {tid : W → ℤ} {s s' : Sys W Cb}

/-- The counter counts the workers between its two changes. -/
def Counted (s : Sys W Cb) : Prop := s.active = (∑ w, (s.pc w).active : ℕ)

omit [DecidableEq W] [Fintype W] in
theorem active_of_moves {w : W} {p p' : Pc Cb} (hm : Moves s w p p') : p'.active = p.active := by
  cases hm <;> rfl

namespace Counted

theorem goto (h : s.Counted) {w : W} {p p' : Pc Cb} (hpc : s.pc w = p)
    (hpc' : s'.pc = Function.update s.pc w p')
    (hactive : s'.active + p.active = s.active + p'.active := by rfl) : s'.Counted := by
  have hsum := sum_update_add Pc.active s.pc w p'
  rw [Counted] at h ⊢
  rw [hpc] at hsum
  rw [hpc']
  omega

theorem woken (h : s.Counted) {reader : Option W} (hw : Woken s reader s') : s'.Counted := by
  cases hw with
  | reader hx => exact h.goto hx rfl
  | pipe hnone => exact h

theorem of_effect (h : s.Counted) {a : Act W Cb} (he : Effect k tid s a s') : s'.Counted := by
  cases he with
  | move hpc hm => exact h.goto hpc rfl (by rw [active_of_moves hm]; rfl)
  | count hpc =>
    refine h.goto hpc rfl ?_
    show s.active + 1 + (0 : ℕ) = s.active + (1 : ℕ)
    omega
  | @uncount w p p' hpc hp =>
    refine h.goto hpc rfl ?_
    have hcosts : p.active = 1 ∧ p'.active = 0 := by cases hp <;> exact ⟨rfl, rfl⟩
    show s.active - 1 + p.active = s.active + p'.active
    omega
  | @deaf w p p' hpc hp hidle =>
    refine h.goto hpc rfl ?_
    have hcosts : p.active = p'.active := by cases hp <;> rfl
    rw [hcosts]
    rfl
  | @requeue w f own p hpc hp =>
    refine h.goto hpc rfl ?_
    have hcosts : p.active = 0 := by rcases hp with ⟨-, rfl⟩ | rfl <;> rfl
    rw [hcosts]
    rfl
  | @idleOut a w p st hpc hp hst =>
    refine h.goto hpc rfl ?_
    have hcosts : p.active = 0 := by cases p <;> first | rfl | exact absurd hp id
    rw [hcosts]
    rfl
  | miss hpc | pick hpc | reuse hpc | create hpc | enter hpc | leave hpc | hold hpc | finish hpc
  | idleUp hpc | idleIn hpc | idleDown hpc | idleRest hpc | report hpc | handled hpc =>
    exact h.goto hpc rfl
  | @write w p p' reader s₁ hpc hp hwake =>
    have hpc₁ := pc_of_afterWrite hwake hpc hp
    refine (h.woken hwake).goto hpc₁ rfl ?_
    have hcosts : p.active = p'.active := by cases hp <;> rfl
    rw [hcosts]
    rfl
  | callWrite hwriting hwake =>
    have h₁ : Counted { s with writing := s.writing - 1 } := h
    exact h₁.woken hwake
  | newFiber | called | tickle | callTickle | callDeaf | flags | fail => exact h

end Counted

/-- The counter is exact in every state reached. -/
theorem active_eq {ok : Sys W Cb → Act W Cb → Prop}
    (hr : Reachable (step k tid) ok Sys.init s) : s.active = (∑ w, (s.pc w).active : ℕ) := by
  refine hr.invariant (P := Counted) ?_ fun _ _ _ h _ hs => h.of_effect (effect_of_step hs)
  show (0 : ℤ) = (∑ _w : W, (0 : ℕ) : ℕ)
  rw [Finset.sum_const_zero]
  rfl

/-- **When `stopping` holds.** In every state reached, by whatever order of steps, nothing is
outstanding iff no worker is in one of the windows. -/
theorem stopping_iff {ok : Sys W Cb → Act W Cb → Prop}
    (hr : Reachable (step k tid) ok Sys.init s) (hstop : s.stopping = true) :
    (∀ w, ¬s.Outstanding (s.pc w)) ↔ ∀ w, ¬s.Window (s.pc w) := by
  have hzero : s.active = 0 := by
    simp only [stopping, Bool.and_eq_true, decide_eq_true_eq] at hstop
    exact hstop.2
  have hnone : ∀ w, (s.pc w).active = 0 := by
    rw [active_eq hr] at hzero
    exact (sum_eq_zero_iff_forall Pc.active s.pc).mp (Int.natCast_eq_zero.mp hzero)
  exact ⟨fun h w hw => h w hw.outstanding, fun h w hw => h w (hw.window (hnone w))⟩

end Step

/-- One worker has taken the only task, and another one is about to call `stopping`. -/
def takenRun : List (Act Bool ℕ) :=
  [.run true, .run true, .run true, .schedule ⟨none, some 7, -1⟩, .run false, .setAutoStop,
    .setStopping]

/-- **`stopping` holds too early.** -/
theorem stopping_too_early :
    ¬∀ s : Sys Bool ℕ,
      Reachable (step .scheduler fun w => if w then 1 else 2) anyAction Sys.init s →
      s.stopping = true → ∀ w, ¬s.Outstanding (s.pc w) := by
  intro h
  exact h _ (reachable_get (by decide : (exec (step .scheduler fun w => if w then 1 else 2)
    anyAction Sys.init takenRun).isSome)) (by decide) false (Or.inr rfl)

/-- The first worker runs the task to its end. -/
def finishedRun : List (Act Bool ℕ) :=
  takenRun ++ [.run false, .run false, .run false, .run false, .run false, .leave false .TERM,
    .run false, .run false]

/-- The state it ends in. -/
def finishedEnd : Sys Bool ℕ :=
  (exec (step .scheduler fun w => if w then 1 else 2) anyAction Sys.init finishedRun).get
    (by decide)

theorem stopping_iff_finishedEnd :
    finishedEnd.stopping = true ∧ ∀ w, ¬finishedEnd.Outstanding (finishedEnd.pc w) :=
  have hstop : finishedEnd.stopping = true := by decide
  ⟨hstop, (stopping_iff (reachable_get (by decide : (exec (step .scheduler fun w =>
    if w then 1 else 2) anyAction Sys.init finishedRun).isSome)) hstop).mpr
      fun w => by cases w <;> exact fun h => nomatch h⟩

end Sys

end Scheduler

end Wille
