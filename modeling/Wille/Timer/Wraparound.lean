import Wille.Timer.Handle

/-!
# Sums and differences that wrap

Due times are sums `start + ms` of two `uint64_t`, computed in five places and checked in none, and
the rollover threshold is the difference `m_previousTime - 3600000`. Both wrap, and both results
are compared afterwards.

A sum that wraps lies before its summands. So a period beyond the end of the clock, `~0ull` for
"never" say, is due at once, and before every shorter one. The difference `m_next - m_ms` that
`reset` takes as the old start wraps as well, but that does no harm: it undoes the wrap of the sum.

The threshold wraps while the clock shows less than an hour. It is then at the far end of the
range, and any step back is taken for a rollover.

## Main definitions

* `SetsDue` — an operation gives a timer the due time `start + ms`, whichever of the five it is

## Main results

* `SetsDue.due_in_order_iff` — due times are ordered as the periods iff the longer sum fits
* `Ordered.rollover_iff` — a rollover is a step back of over an hour iff the threshold fits
-/

namespace Wille

namespace TimerManager

variable {Cb : Type*} {m m' : TimerManager Cb} {t : ℕ} {start ms : UInt64}

/-! ### Due times -/

/-- An operation on `m` sets the due time of `t` for the period `ms`, counted from `start`. -/
inductive SetsDue : TimerManager Cb → ℕ → UInt64 → UInt64 → TimerManager Cb → Prop
  /-- A timer is added; its handle is the next one. -/
  | addTimer (m : TimerManager Cb) (addr : ℕ) (ms : UInt64) (cb : Option Cb) (recurring : Bool)
      (now : UInt64) : SetsDue m m.created now ms (m.addTimer addr ms cb recurring now).1
  /-- `refresh` succeeds. -/
  | refresh (m : TimerManager Cb) (t : ℕ) (now : UInt64) (hr : (m.refresh t now).1 = true) :
      SetsDue m t now (m.timer t).ms (m.refresh t now).2
  /-- `reset` from now succeeds. -/
  | resetFromNow (m : TimerManager Cb) (t : ℕ) (ms now : UInt64)
      (hr : (m.reset t ms true now).1 = true) : SetsDue m t now ms (m.reset t ms true now).2.1
  /-- `reset` from the old start succeeds; it may be that there is nothing to change. -/
  | resetFromStart (m : TimerManager Cb) (t : ℕ) (ms now : UInt64)
      (hr : (m.reset t ms false now).1 = true) :
      SetsDue m t ((m.timer t).next - (m.timer t).ms) ms (m.reset t ms false now).2.1
  /-- `listExpiredCb` hands over a recurring timer and arms it again. -/
  | rearm (m : TimerManager Cb) (h : m.Ordered []) (t : ℕ) (cb : Option Cb) (now : UInt64)
      (addr : ℕ) (ht : (t, cb) ∈ (m.listExpiredCb now addr).1)
      (hrec : (m.timer t).recurring = true) :
      SetsDue m t now (m.timer t).ms (m.listExpiredCb now addr).2

/-- A `reset` that goes past its first test and succeeds has found the timer. -/
theorem resetLocked_timer {from_now : Bool} {now : UInt64}
    (hr : (m.resetLocked t ms from_now now).1 = true) :
    (m.resetLocked t ms from_now now).2.1.timer t =
      { m.timer t with
        ms := ms
        next := (if from_now then now else (m.timer t).next - (m.timer t).ms) + ms } := by
  rw [resetLocked] at hr ⊢
  split at hr
  · exact absurd hr Bool.false_ne_true
  · rename_i hcb
    rw [if_neg hcb]
    split at hr
    · exact absurd hr Bool.false_ne_true
    · simp only [addTimerLocked_timer, modify_timer_self]
      rfl

namespace SetsDue

/-- **The five sums.** Each operation leaves the period in `m_ms` and the wrapping sum in
`m_next`. -/
theorem timer_eq (h : SetsDue m t start ms m') :
    (m'.timer t).ms = ms ∧ (m'.timer t).next = start + ms := by
  cases h with
  | addTimer addr _ cb recurring _ =>
    have hnew : (m.addTimer addr ms cb recurring start).1.timer m.created =
        Timer.make addr ms cb recurring start := Function.update_self ..
    rw [hnew]
    exact ⟨rfl, rfl⟩
  | refresh _ _ hr =>
    rw [TimerManager.refresh] at hr ⊢
    split at hr
    · exact absurd hr Bool.false_ne_true
    · rename_i hcb
      rw [if_neg hcb]
      split at hr
      · exact absurd hr Bool.false_ne_true
      · rw [insert_timer, modify_timer_self]
        exact ⟨rfl, rfl⟩
  | resetFromNow _ _ _ hr =>
    have heq : m.reset t ms true start = m.resetLocked t ms true start := by
      simp [TimerManager.reset]
    rw [heq] at hr ⊢
    rw [resetLocked_timer hr]
    exact ⟨rfl, rfl⟩
  | resetFromStart _ _ now hr =>
    rw [TimerManager.reset] at hr ⊢
    split at hr
    · -- the period is the old one, and so is the due time
      rename_i hsame
      rw [if_pos hsame]
      have hms : ms = (m.timer t).ms := by simpa using hsame
      rw [hms]
      exact ⟨rfl, (UInt64.sub_add_cancel _ _).symm⟩
    · rename_i hchange
      rw [if_neg hchange, resetLocked_timer hr]
      exact ⟨rfl, rfl⟩
  | rearm h _ cb _ addr ht hrec =>
    rw [h.listExpiredCb_timer start addr, if_pos (h.mem_expired_of_handed ht), Timer.fired,
      if_pos hrec]
    exact ⟨rfl, rfl⟩

/-- A due time is not before the integer sum iff the sum fits. -/
theorem sum_le_next_iff (h : SetsDue m t start ms m') :
    start.toNat + ms.toNat ≤ (m'.timer t).next.toNat ↔ start.toNat + ms.toNat < 2 ^ 64 := by
  rw [h.timer_eq.2, UInt64.toNat_add]
  constructor
  · intro hle
    exact Nat.lt_of_le_of_lt hle (Nat.mod_lt _ (Nat.two_pow_pos 64))
  · intro hlt
    rw [Nat.mod_eq_of_lt hlt]

/-- **Longer periods are due later while the sums fit, and only then.** Two operations of any kind
set due times from one start. -/
theorem due_in_order_iff {m₁ m₁' m₂ m₂' : TimerManager Cb} {t₁ t₂ : ℕ} {ms₁ ms₂ : UInt64}
    (h₁ : SetsDue m₁ t₁ start ms₁ m₁') (h₂ : SetsDue m₂ t₂ start ms₂ m₂') (hle : ms₁ ≤ ms₂) :
    ((m₁'.timer t₁).next ≤ (m₂'.timer t₂).next ∧
      start.toNat + ms₁.toNat ≤ (m₁'.timer t₁).next.toNat ∧
      start.toNat + ms₂.toNat ≤ (m₂'.timer t₂).next.toNat) ↔
      start.toNat + ms₂.toNat < 2 ^ 64 := by
  rw [h₁.sum_le_next_iff, h₂.sum_le_next_iff]
  refine ⟨fun hall => hall.2.2, fun hfits => ?_⟩
  have hms : ms₁.toNat ≤ ms₂.toNat := UInt64.le_iff_toNat_le.mp hle
  have hfits₁ : start.toNat + ms₁.toNat < 2 ^ 64 := by omega
  refine ⟨?_, hfits₁, hfits⟩
  rw [UInt64.le_iff_toNat_le, h₁.timer_eq.2, h₂.timer_eq.2, UInt64.toNat_add, UInt64.toNat_add,
    Nat.mod_eq_of_lt hfits₁, Nat.mod_eq_of_lt hfits]
  omega

/-- A manager without timers, made when the clock showed one second. -/
def atOneSecond : TimerManager ℕ := TimerManager.make (fun _ => Timer.probe 0 0) 1000

/-- Two timers added at one reading, and one of them reset from its start. -/
theorem due_in_order_iff_atOneSecond :
    ((atOneSecond.addTimer 16 5 (some 7) false 1000).1.timer 0).next ≤
        (((atOneSecond.addTimer 16 5 (some 7) false 1000).1.reset 0 60000 false 1004).2.1.timer
          0).next ∧
      (1000 : UInt64).toNat + (5 : UInt64).toNat ≤
        ((atOneSecond.addTimer 16 5 (some 7) false 1000).1.timer 0).next.toNat :=
  have h₁ : SetsDue atOneSecond 0 1000 5 (atOneSecond.addTimer 16 5 (some 7) false 1000).1 :=
    .addTimer atOneSecond 16 5 (some 7) false 1000
  have h₂ : SetsDue (atOneSecond.addTimer 16 5 (some 7) false 1000).1 0 1000 60000
      ((atOneSecond.addTimer 16 5 (some 7) false 1000).1.reset 0 60000 false 1004).2.1 :=
    .resetFromStart (atOneSecond.addTimer 16 5 (some 7) false 1000).1 0 60000 1004 (by decide)
  have hall := (due_in_order_iff h₁ h₂ (by decide)).mpr (by decide)
  ⟨hall.1, hall.2.1⟩

/-- **A timer that is never to fire is due before one that is due now.** The period `~0ull` makes
the sum wrap. -/
theorem never_is_due_first :
    (0 : UInt64) ≤ ~~~0 ∧
      ¬((atOneSecond.addTimer 16 0 (some 7) false 1000).1.timer 0).next ≤
        ((atOneSecond.addTimer 16 (~~~0) (some 8) false 1000).1.timer 0).next ∧
      ¬(1000 : UInt64).toNat + (~~~0 : UInt64).toNat ≤
        ((atOneSecond.addTimer 16 (~~~0) (some 8) false 1000).1.timer 0).next.toNat := by
  decide

end SetsDue

/-! ### The rollover threshold -/

theorem detectClockRollover_iff (now_ms : UInt64) :
    (m.detectClockRollover now_ms).1 = true ↔
      now_ms.toNat < m.previousTime.toNat ∧
        (now_ms.toNat + 3600000 < m.previousTime.toNat ∨ m.previousTime.toNat < 3600000) := by
  have hsub : (m.previousTime - 60 * 60 * 1000).toNat =
      (2 ^ 64 - 3600000 + m.previousTime.toNat) % 2 ^ 64 := UInt64.toNat_sub ..
  have hprev := m.previousTime.toNat_lt
  rw [detectClockRollover, Bool.and_eq_true, decide_eq_true_eq, decide_eq_true_eq,
    UInt64.lt_iff_toNat_lt, UInt64.lt_iff_toNat_lt, hsub]
  omega

/-- **A rollover is a step back of more than an hour, unless the clock shows less than that.** Then
a step back of any length is one, and hands over timers that are not due. -/
theorem Ordered.rollover_iff (h : Ordered m []) (now_ms : UInt64) (addr : ℕ) :
    (((m.detectClockRollover now_ms).1 = true ↔
        now_ms.toNat + 3600000 < m.previousTime.toNat) ∧
      (m.previousTime.toNat ≤ now_ms.toNat + 3600000 →
        ∀ handed ∈ (m.listExpiredCb now_ms addr).1, (m.timer handed.1).next ≤ now_ms)) ↔
      3600000 ≤ m.previousTime.toNat ∨ m.previousTime ≤ now_ms := by
  rw [UInt64.le_iff_toNat_le]
  constructor
  · rintro ⟨hiff, -⟩
    rw [detectClockRollover_iff] at hiff
    omega
  · intro hfits
    have hiff : (m.detectClockRollover now_ms).1 = true ↔
        now_ms.toNat + 3600000 < m.previousTime.toNat := by
      rw [detectClockRollover_iff]
      omega
    refine ⟨hiff, fun hle handed hmem => ?_⟩
    refine (mem_expired.mp (h.mem_expired_of_handed hmem)).2.resolve_left fun hroll => ?_
    exact absurd (hiff.mp hroll) (Nat.not_lt.mpr hle)

/-- A timer of one minute, added when the clock showed ten seconds. -/
def setBack : TimerManager ℕ :=
  ((TimerManager.make (fun _ => Timer.probe 0 0) 10000).addTimer 16 60000 (some 7) false 10000).1

/-- The same when it showed ten hours. -/
def setBackLate : TimerManager ℕ :=
  ((TimerManager.make (fun _ => Timer.probe 0 0) 36000000).addTimer 16 60000 (some 7) false
    36000000).1

theorem rollover_iff_setBackLate :
    setBackLate.timers = [0] ∧ (setBackLate.detectClockRollover 35990000).1 = false ∧
      ∀ handed ∈ (setBackLate.listExpiredCb 35990000 32).1,
        (setBackLate.timer handed.1).next ≤ 35990000 := by
  have h : Ordered setBackLate [] := ⟨List.pairwise_singleton _ _, by decide, by decide⟩
  obtain ⟨hiff, hdue⟩ := (h.rollover_iff 35990000 32).mpr (by decide)
  refine ⟨by decide, ?_, hdue (by decide)⟩
  rw [← Bool.not_eq_true, hiff]
  decide

/-- **A step back of one millisecond flushes the timers of a clock that shows ten seconds.** -/
theorem flushed_by_a_millisecond :
    setBack.timers = [0] ∧ (setBack.detectClockRollover 9999).1 = true ∧
      ¬(9999 : UInt64).toNat + 3600000 < setBack.previousTime.toNat ∧
      setBack.previousTime.toNat ≤ (9999 : UInt64).toNat + 3600000 ∧
      (setBack.listExpiredCb 9999 32).1 = [(0, some 7)] ∧ ¬(setBack.timer 0).next ≤ 9999 := by
  decide

end TimerManager

end Wille
