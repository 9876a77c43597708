import Wille.Timer.History

/-!
# What a handle answers

A `Timer::ptr` stays usable after its timer has fired or was cancelled, and its operations tell by
their result whether there was anything to do. They read it off the callback slot, which is right
for a timer that was created with a callback, whatever other timers were created with: the slot is
emptied exactly when the timer leaves the set for good.

`reset` has one more exit, in front of the lock. If it is told the period the timer has, and not to
count from now, it reports success without asking whether the timer is pending.

## Main definitions

* `TimerManager.Answers` — the result tells whether the timer was pending

## Main results

* `History.answers_iff` — when the three operations answer so
* `History.reset_answers_gone` — a timer that is gone, and a `reset` that succeeds
-/

namespace Wille

open TransitionSystem

namespace TimerManager

variable {Cb : Type*} {m : TimerManager Cb} {t : ℕ}

/-- The result of an operation on a handle says whether the timer was pending. If it was not,
nothing is done; if it was, the new state satisfies `after`. -/
structure Answers (m : TimerManager Cb) (t : ℕ) (r : Bool × TimerManager Cb)
    (after : TimerManager Cb → Prop) : Prop where
  /-- `true` for a pending timer. -/
  iff : r.1 = true ↔ t ∈ m.timers
  /-- `false` leaves the manager and the timers alone. -/
  unchanged : r.1 = false → r.2 = m
  /-- What `true` stands for. -/
  done : r.1 = true → after r.2

/-! ### The three operations -/

theorem addTimerLocked_timer (t : ℕ) : (m.addTimerLocked t).1.timer = m.timer := rfl

section Answers

variable (h : WellFormed m []) (hc : t < m.created)
  (hslot : t ∈ m.timers ↔ (m.timer t).cb.isSome)
include h hc hslot

theorem WellFormed.cancel_answers :
    ∃ r, m.cancel t = some r ∧ Answers m t r fun m' => t ∉ m'.timers := by
  by_cases hcb : (m.timer t).cb.isSome
  · refine ⟨_, h.cancel_of_isSome hc hcb, by simpa using hslot.mpr hcb, by simp, fun _ hmem => ?_⟩
    exact (h.mem_takeOut.mp hmem).1 rfl
  · refine ⟨(false, m), by rw [TimerManager.cancel, if_neg hcb], ?_, fun _ => rfl, by simp⟩
    simpa [hslot] using hcb

theorem WellFormed.refresh_answers (now : UInt64) :
    Answers m t (m.refresh t now) fun m' =>
      t ∈ m'.timers ∧ (m'.timer t).next = now + (m.timer t).ms := by
  have hmem := h.mem_refresh (s := t) hc now
  by_cases hcb : (m.timer t).cb.isSome
  · rw [h.refresh_of_isSome hc hcb] at hmem ⊢
    refine ⟨by simpa using hslot.mpr hcb, by simp, fun _ => ⟨hmem.mpr (hslot.mpr hcb), ?_⟩⟩
    rw [insert_timer, modify_timer_self]
  · rw [refresh_of_isNone hcb]
    exact ⟨by simpa [hslot] using hcb, fun _ => rfl, by simp⟩

theorem WellFormed.resetLocked_answers (ms : UInt64) (from_now : Bool) (now : UInt64) :
    Answers m t ((m.resetLocked t ms from_now now).1, (m.resetLocked t ms from_now now).2.1)
      fun m' => t ∈ m'.timers ∧ (m'.timer t).next =
        (if from_now then now else (m.timer t).next - (m.timer t).ms) + ms := by
  have hmem := h.mem_resetLocked (s := t) hc ms from_now now
  by_cases hcb : (m.timer t).cb.isSome
  · rw [h.resetLocked_of_isSome hc hcb] at hmem ⊢
    refine ⟨by simpa using hslot.mpr hcb, by simp, fun _ => ⟨hmem.mpr (hslot.mpr hcb), ?_⟩⟩
    simp only [addTimerLocked_timer, modify_timer_self]
  · rw [resetLocked_of_isNone hcb]
    exact ⟨by simpa [hslot] using hcb, fun _ => rfl, by simp⟩

/-- The exit in front of the lock is right for a pending timer, and for no other. -/
theorem WellFormed.reset_answers_iff (ms : UInt64) (from_now : Bool) (now : UInt64) :
    (Answers m t ((m.reset t ms from_now now).1, (m.reset t ms from_now now).2.1)
      fun m' => t ∈ m'.timers ∧ (m'.timer t).next =
        (if from_now then now else (m.timer t).next - (m.timer t).ms) + ms) ↔
      ¬(ms = (m.timer t).ms ∧ from_now = false ∧ t ∉ m.timers) := by
  by_cases hexit : ms = (m.timer t).ms ∧ from_now = false
  · obtain ⟨rfl, rfl⟩ := hexit
    have heq : m.reset t (m.timer t).ms false now = (true, m, false) := by
      simp [TimerManager.reset]
    rw [heq]
    constructor
    · rintro ⟨hiff, -, -⟩ ⟨-, -, hgone⟩
      exact hgone (hiff.mp rfl)
    · intro hnot
      have hpending : t ∈ m.timers := by
        by_contra hgone
        exact hnot ⟨rfl, rfl, hgone⟩
      refine ⟨by simpa using hpending, by simp, fun _ => ⟨hpending, ?_⟩⟩
      simp
  · have heq : m.reset t ms from_now now = m.resetLocked t ms from_now now := by
      rw [TimerManager.reset, if_neg]
      simpa using hexit
    rw [heq]
    exact iff_of_true (h.resetLocked_answers hc hslot ms from_now now)
      fun hbad => hexit ⟨hbad.1, hbad.2.1⟩

end Answers

end TimerManager

namespace History

section Runs

variable {Fn Obj : Type*} {object : ℕ → Timer (Callback Fn Obj)} {now₀ : UInt64}
  {h : History Fn Obj} (hr : Reachable step anyAction (init object now₀) h) {t : ℕ}
  (hc : t < h.manager.created) (hg : (h.given t).isSome)
include hr hc hg

/-- **When the answers are right.** In every history, for a timer created with a callback: `cancel`,
`refresh` and `reset` return `true` exactly for a pending timer, do nothing where they return
`false` and do their work where they return `true`, unless `reset` takes the exit in front of the
lock on a timer that is not pending. -/
theorem answers_iff (ms : UInt64) (from_now : Bool) (now : UInt64) :
    ((∃ r, h.manager.cancel t = some r ∧
        h.manager.Answers t r fun m' => t ∉ m'.timers) ∧
      (h.manager.Answers t (h.manager.refresh t now) fun m' =>
        t ∈ m'.timers ∧ (m'.timer t).next = now + (h.manager.timer t).ms) ∧
      h.manager.Answers t
        ((h.manager.reset t ms from_now now).1, (h.manager.reset t ms from_now now).2.1)
        fun m' => t ∈ m'.timers ∧ (m'.timer t).next =
          (if from_now then now else (h.manager.timer t).next - (h.manager.timer t).ms) + ms) ↔
      ¬(ms = (h.manager.timer t).ms ∧ from_now = false ∧ t ∉ h.manager.timers) := by
  have ag := ((Accounted.init object now₀).of_reachable hr).agrees
  have hslot := ag.mem_iff hc hg
  rw [ag.reset_answers_iff hc hslot]
  constructor
  · exact fun hall => hall.2.2
  · exact fun hnot => ⟨ag.cancel_answers hc hslot, ag.refresh_answers hc hslot now, hnot⟩

end Runs

/-- A one-shot timer fires, next to one without a callback. -/
def firedRun : List (Op ℕ ℕ) :=
  [.addTimer 16 5 (some 0) false 100, .addTimer 32 50 none true 100, .listExpiredCb 110 48]

/-- The state it ends in. -/
def firedEnd : History ℕ ℕ :=
  (exec step anyAction (init (fun _ => Timer.probe 0 0) 0) firedRun).get (by decide)

theorem answers_iff_firedEnd :
    firedEnd.manager.timers = [1] ∧
      firedEnd.manager.Answers 0
        ((firedEnd.manager.reset 0 5 true 120).1, (firedEnd.manager.reset 0 5 true 120).2.1)
        fun m' => 0 ∈ m'.timers ∧ (m'.timer 0).next = 120 + 5 :=
  have hr := reachable_get (by decide : (exec step anyAction
    (init (fun _ => Timer.probe 0 0) 0) firedRun).isSome)
  ⟨by decide, ((answers_iff hr (t := 0) (by decide) (by decide) 5 true 120).mpr (by decide)).2.2⟩

/-- **A timer that is gone, and a `reset` that succeeds.** It has fired; resetting it to the period
it had returns `true`, and it is pending neither before nor after. -/
theorem reset_answers_gone :
    Reachable step anyAction (init (fun _ => Timer.probe 0 0) 0) firedEnd ∧
      0 < firedEnd.manager.created ∧ (firedEnd.given 0).isSome ∧ 0 ∉ firedEnd.manager.timers ∧
      (firedEnd.manager.reset 0 5 false 120).1 = true ∧
      0 ∉ (firedEnd.manager.reset 0 5 false 120).2.1.timers :=
  ⟨reachable_get (by decide : (exec step anyAction
    (init (fun _ => Timer.probe 0 0) 0) firedRun).isSome), by decide⟩

end History

end Wille
