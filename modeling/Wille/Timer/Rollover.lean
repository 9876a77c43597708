import Wille.Timer.History

/-!
# Clock rollover and early expiry

`listExpiredCb` hands every pending timer over when it believes that the clock was set back by more
than an hour: when its reading is that far behind `m_previousTime`. But `m_previousTime` is written
by the constructor and by calls that find a non-empty set, and by nothing else. So a timer that is
added *after* the clock was set back can be handed over early although the clock has not moved
back since.

That is the only way. Once the first `listExpiredCb` after the insertion has seen no rollover,
`m_previousTime` is one of the readings taken since, and readings that never decrease are never
behind it.

## Main definitions

* `Op.reading`, `Op.callReading` — the clock reading of an operation, of a `listExpiredCb`
* `History.Inserts` — the operation puts the timer into `m_timers`

## Main results

* `History.handed_over_early` — a timer added after the clock was set back
* `History.not_handed_over_early` — from an insertion on, no call is early if the first is not
-/

namespace Wille

open TransitionSystem

variable {Fn Obj : Type*}

/-- The clock reading an operation uses, if it looks at the clock. -/
def Op.reading : Op Fn Obj → Option UInt64
  | .addTimer _ _ _ _ now => some now
  | .addConditionTimer _ _ _ _ _ now => some now
  | .cancel _ => none
  | .refresh _ now => some now
  | .reset _ _ from_now now => if from_now then some now else none
  | .getNextTimer now => some now
  | .listExpiredCb now _ => some now

/-- The clock reading of a `listExpiredCb`. -/
def Op.callReading : Op Fn Obj → Option UInt64
  | .listExpiredCb now _ => some now
  | _ => none

theorem Op.reading_of_callReading {op : Op Fn Obj} {now : UInt64}
    (h : op.callReading = some now) : op.reading = some now := by
  cases op with
  | listExpiredCb now' addr => exact h
  | _ => exact absurd h (Option.some_ne_none now).symm

namespace TimerManager

variable {Cb : Type*} {m : TimerManager Cb}

/-- No rollover is seen at a reading that is not behind the last one. -/
theorem detectClockRollover_of_le {now_ms : UInt64} (h : m.previousTime ≤ now_ms) :
    (m.detectClockRollover now_ms).1 = false := by
  rw [detectClockRollover, Bool.and_eq_false_iff]
  left
  rw [decide_eq_false_iff_not, UInt64.not_lt]
  exact h

theorem refresh_previousTime (t : ℕ) (now : UInt64) :
    (m.refresh t now).2.previousTime = m.previousTime := by
  rw [refresh]
  split
  · rfl
  · split <;> rfl

theorem reset_previousTime (t : ℕ) (ms : UInt64) (from_now : Bool) (now : UInt64) :
    (m.reset t ms from_now now).2.1.previousTime = m.previousTime := by
  rcases m.reset_cases t ms from_now now with heq | heq <;> rw [heq]
  rw [resetLocked]
  split
  · rfl
  · split <;> rfl

theorem cancel_previousTime {t : ℕ} {r : Bool × TimerManager Cb} (h : m.cancel t = some r) :
    r.2.previousTime = m.previousTime := by
  rw [cancel] at h
  split at h
  · obtain ⟨it, -, rfl⟩ := Option.map_eq_some_iff.mp h
    rfl
  · obtain rfl := Option.some.inj h
    rfl

end TimerManager

namespace History

/-- The operation puts the timer into `m_timers`. -/
def Inserts (h : History Fn Obj) (t : ℕ) : Op Fn Obj → Prop
  | .addTimer .. => t = h.manager.created
  | .addConditionTimer .. => t = h.manager.created
  | .cancel _ => False
  | .refresh s _ => t = s ∧ h.Pending t
  | .reset s ms from_now _ =>
    t = s ∧ h.Pending t ∧ ¬(ms = (h.manager.timer t).ms ∧ from_now = false)
  | .getNextTimer _ => False
  | .listExpiredCb now _ => t ∈ h.manager.expired now ∧ (h.manager.timer t).recurring = true

/-- Only `listExpiredCb` writes `m_previousTime`. -/
theorem previousTime_of_step {h h' : History Fn Obj} {op : Op Fn Obj} (hs : h.step op = some h')
    (hcall : op.callReading = none) : h'.manager.previousTime = h.manager.previousTime := by
  cases op with
  | addTimer addr ms cb recurring now =>
    obtain ⟨-, rfl⟩ := create_eq_some.mp hs
    rfl
  | addConditionTimer addr ms cb weak_cond recurring now =>
    obtain ⟨-, rfl⟩ := create_eq_some.mp hs
    rfl
  | cancel t =>
    simp only [step, Option.bind_eq_some_iff, Option.map_eq_some_iff] at hs
    obtain ⟨r, hr, h₁, hon, rfl⟩ := hs
    obtain ⟨-, rfl⟩ := onHandle_eq_some.mp hon
    exact TimerManager.cancel_previousTime hr
  | refresh t now =>
    obtain ⟨-, rfl⟩ := onHandle_eq_some.mp hs
    exact TimerManager.refresh_previousTime t now
  | reset t ms from_now now =>
    obtain ⟨-, rfl⟩ := onHandle_eq_some.mp hs
    exact TimerManager.reset_previousTime t ms from_now now
  | getNextTimer now =>
    obtain rfl := Option.some.inj hs
    simp [TimerManager.getNextTimer_fst]
  | listExpiredCb now addr => exact absurd hcall (Option.some_ne_none now)

/-- A call that finds a timer pending remembers its reading. -/
theorem previousTime_of_listExpiredCb {h h' : History Fn Obj} (ag : h.Agrees)
    {t : ℕ} (ht : h.Pending t) {now : UInt64} {addr : ℕ}
    (hs : h.step (.listExpiredCb now addr) = some h') : h'.manager.previousTime = now := by
  obtain rfl := Option.some.inj hs
  exact (ag.ordered.listExpiredCb_previousTime now addr).trans (if_neg (List.ne_nil_of_mem ht))

/-- A timer that is pending at the end of a run has been pending since it was created. -/
theorem pending_of_later {h h' : History Fn Obj} (a : h.Accounted)
    (hr : Reachable step anyAction h h') {t : ℕ} (ht : t < h.manager.created)
    (hlater : h'.Pending t) : h.Pending t := by
  by_contra hgone
  exact (stays_gone a hr ht hgone).1 hlater

/-- The readings taken by the operations, in order. -/
def readings (ops : List (Op Fn Obj)) : List UInt64 := ops.filterMap Op.reading

/-- The readings of the `listExpiredCb` calls among them. -/
def callReadings (ops : List (Op Fn Obj)) : List UInt64 := ops.filterMap Op.callReading

theorem mem_readings_of_mem_callReadings {ops : List (Op Fn Obj)} {now : UInt64}
    (h : now ∈ callReadings ops) : now ∈ readings ops := by
  obtain ⟨op, hmem, hop⟩ := List.mem_filterMap.mp h
  exact List.mem_filterMap.mpr ⟨op, hmem, Op.reading_of_callReading hop⟩

/-- After a call that found a timer pending, no call in a run of readings that never decrease sees
a rollover. -/
theorem detectClockRollover_of_call {h h' : History Fn Obj} (ag : h.Agrees) {t : ℕ}
    (ht : h.Pending t) {op : Op Fn Obj} {r now : UInt64} (hcall : op.callReading = some r)
    (hs : h.step op = some h') {ops : List (Op Fn Obj)}
    (hmono : (readings (op :: ops)).Pairwise (· ≤ ·)) (hnow : now ∈ callReadings ops) :
    (h'.manager.detectClockRollover now).1 = false := by
  have hprev : h'.manager.previousTime = r := by
    cases op with
    | listExpiredCb now' addr =>
      rw [previousTime_of_listExpiredCb ag ht hs]
      exact Option.some.inj hcall
    | _ => exact absurd hcall (Option.some_ne_none r).symm
  refine TimerManager.detectClockRollover_of_le ?_
  rw [hprev]
  rw [readings, List.filterMap_cons_some (Op.reading_of_callReading hcall)] at hmono
  exact (List.pairwise_cons.mp hmono).1 now (mem_readings_of_mem_callReadings hnow)

/-- **The run lemma.** While readings never decrease, a later call sees no rollover when the first
one sees none. The induction is on the operations before the later call. -/
theorem detectClockRollover_of_first {t : ℕ} {now : UInt64} {addr : ℕ} {h' : History Fn Obj}
    (hlater : h'.Pending t) {ops : List (Op Fn Obj)} : ∀ {h : History Fn Obj}, h.Accounted →
      t < h.manager.created → exec step anyAction h ops = some h' →
      (readings (ops ++ [Op.listExpiredCb now addr])).Pairwise (· ≤ ·) →
      (∀ now₁, (callReadings (ops ++ [Op.listExpiredCb now addr])).head? = some now₁ →
        (h.manager.detectClockRollover now₁).1 = false) →
      (h'.manager.detectClockRollover now).1 = false := by
  induction ops with
  | nil =>
    intro h _ _ hrun _ hfirst
    obtain rfl := Option.some.inj hrun
    exact hfirst now rfl
  | cons op ops ih =>
    intro h a ht hrun hmono hfirst
    have hreach := reachable_iff_exec.mpr ⟨_, hrun⟩
    obtain ⟨-, u, hs, hrest⟩ := exec_cons_eq_some.mp hrun
    have hpend : h.Pending t := pending_of_later a hreach ht hlater
    have au : u.Accounted := a.of_step hs
    have htu : t < u.manager.created := by
      obtain ⟨-, he⟩ := effect_of_step a.agrees hs
      cases he <;> omega
    refine ih au htu hrest ?_ fun now₁ hnow₁ => ?_
    · exact hmono.sublist ((List.sublist_cons_self op _).filterMap _)
    rcases hcall : op.callReading with _ | r
    · -- not a call: `m_previousTime` is as before, and so is the next call
      have hsame := hfirst now₁ (by
        rw [List.cons_append, callReadings, List.filterMap_cons_none hcall]
        exact hnow₁)
      rw [TimerManager.detectClockRollover] at hsame ⊢
      rw [previousTime_of_step hs hcall]
      exact hsame
    · -- a call: from now on `m_previousTime` is its reading
      exact detectClockRollover_of_call a.agrees hpend hcall hs hmono (List.mem_of_head? hnow₁)

/-- What was inserted is pending. -/
theorem pending_of_inserts {h h' : History Fn Obj} (ag : h.Agrees) {t : ℕ}
    {op : Op Fn Obj} (hs : h.step op = some h') (hins : h.Inserts t op) : h'.Pending t := by
  cases op with
  | addTimer addr ms cb recurring now =>
    obtain rfl := hins
    obtain ⟨haddr, rfl⟩ := create_eq_some.mp hs
    exact (ag.mem_addTimer haddr).mpr (Or.inl rfl)
  | addConditionTimer addr ms cb weak_cond recurring now =>
    obtain rfl := hins
    obtain ⟨haddr, rfl⟩ := create_eq_some.mp hs
    exact (ag.mem_addTimer haddr).mpr (Or.inl rfl)
  | cancel s => exact hins.elim
  | refresh s now =>
    obtain ⟨hc, rfl⟩ := onHandle_eq_some.mp hs
    exact (ag.mem_refresh hc now).mpr hins.2
  | reset s ms from_now now =>
    obtain ⟨hc, rfl⟩ := onHandle_eq_some.mp hs
    rcases h.manager.reset_cases s ms from_now now with heq | heq <;> rw [heq]
    · exact hins.2.1
    · exact (ag.mem_resetLocked hc ms from_now now).mpr hins.2.1
  | getNextTimer now => exact hins.elim
  | listExpiredCb now addr =>
    obtain ⟨hexp, hrec⟩ := hins
    obtain rfl := Option.some.inj hs
    refine (ag.ordered.mem_listExpiredCb now addr t).mpr ⟨pending_of_mem_expired hexp, ?_⟩
    rintro ⟨-, hrec'⟩
    exact Bool.false_ne_true (hrec'.symm.trans hrec)

/-- The timer of the next theorem: one minute from a reading of five hours. -/
def lateTimer : Op ℕ ℕ := .addTimer 16 60000 (some 7) false 18000000

/-- A manager made when the clock showed ten hours. -/
def madeAtTen : History ℕ ℕ := init (fun _ => Timer.probe 0 0) 36000000

/-- **A timer added after the clock was set back is handed over early.** The readings since its
insertion never decrease and no sum wraps, but the next call, one millisecond later, still compares
with ten hours. -/
theorem handed_over_early :
    ∃ h₀ h₁ : History ℕ ℕ, madeAtTen.step lateTimer = some h₀ ∧ madeAtTen.Inserts 0 lateTimer ∧
      exec step anyAction h₀ [] = some h₁ ∧
      (readings [lateTimer, Op.listExpiredCb 18000001 32]).Pairwise (· ≤ ·) ∧
      (18000000 : UInt64).toNat + (60000 : UInt64).toNat < 2 ^ 64 ∧
      (h₁.manager.listExpiredCb 18000001 32).1 = [(0, some (.fn 7))] ∧
      18000001 < (h₁.manager.timer 0).next :=
  ⟨_, _, rfl, rfl, rfl, by decide, by decide, rfl, by decide⟩

section Runs

variable {object : ℕ → Timer (Callback Fn Obj)} {now₀ : UInt64} {h h₀ h₁ : History Fn Obj}

/-- **From an insertion on, no call is early if the first is not.** The readings from the insertion
on never decrease, and the first `listExpiredCb` after it sees no rollover; after a re-arming that
goes without saying. Then no call hands the timer over before it is due. -/
theorem not_handed_over_early (hr : Reachable step anyAction (init object now₀) h) {t : ℕ}
    {op : Op Fn Obj} (hs : h.step op = some h₀) (hins : h.Inserts t op) {ops : List (Op Fn Obj)}
    (hrun : exec step anyAction h₀ ops = some h₁) {now : UInt64} {addr : ℕ}
    (hmono : (readings (op :: (ops ++ [Op.listExpiredCb now addr]))).Pairwise (· ≤ ·))
    (hfirst : op.callReading = none →
      ∀ now₁, (callReadings (ops ++ [Op.listExpiredCb now addr])).head? = some now₁ →
        (h₀.manager.detectClockRollover now₁).1 = false)
    {cb : Option (Callback Fn Obj)} (hhand : (t, cb) ∈ (h₁.manager.listExpiredCb now addr).1) :
    (h₁.manager.timer t).next ≤ now := by
  have a := (Accounted.init object now₀).of_reachable hr
  have a₀ : h₀.Accounted := a.of_step hs
  have a₁ : h₁.Accounted := a₀.of_reachable (reachable_iff_exec.mpr ⟨ops, hrun⟩)
  have hexp : t ∈ h₁.manager.expired now := a₁.agrees.ordered.mem_expired_of_handed hhand
  have hnone : (h₁.manager.detectClockRollover now).1 = false := by
    refine detectClockRollover_of_first (pending_of_mem_expired hexp) a₀
      (a₀.agrees.lt_created (pending_of_inserts a.agrees hs hins)) hrun
      (hmono.sublist ((List.sublist_cons_self op _).filterMap _)) fun now₁ hnow₁ => ?_
    rcases hcall : op.callReading with _ | r
    · exact hfirst hcall now₁ hnow₁
    · have hpend : h.Pending t := by
        cases op with
        | listExpiredCb now' addr' => exact pending_of_mem_expired hins.1
        | _ => exact absurd hcall (Option.some_ne_none r).symm
      exact detectClockRollover_of_call a.agrees hpend hcall hs hmono (List.mem_of_head? hnow₁)
  rcases (TimerManager.mem_expired.mp hexp).2 with hroll | hdue
  · rw [hnone] at hroll
    exact absurd hroll Bool.false_ne_true
  · exact hdue

end Runs

/-- A timer without a callback comes in, the timer is refreshed, and a call comes too soon. -/
def lateRun : List (Op ℕ ℕ) :=
  [.addTimer 48 3600000 none false 18010000, .refresh 0 18030000, .listExpiredCb 18060000 32]

theorem not_handed_over_early_lateRun :
    ∃ h h₀ h₁ : History ℕ ℕ, h = init (fun _ => Timer.probe 0 0) 18000000 ∧
      h.step lateTimer = some h₀ ∧ exec step anyAction h₀ lateRun = some h₁ ∧ h₁.handed = [[]] ∧
      (0, some (.fn 7)) ∈ (h₁.manager.listExpiredCb 18090000 32).1 ∧
      (h₁.manager.timer 0).next ≤ 18090000 := by
  refine ⟨_, _, _, rfl, rfl, rfl, rfl, List.mem_singleton.mpr rfl, ?_⟩
  have hmono : (readings (lateTimer :: (lateRun ++ [Op.listExpiredCb 18090000 32]))).Pairwise
      (· ≤ ·) := by decide
  refine not_handed_over_early (h := init (fun _ => Timer.probe 0 0) 18000000) (Reachable.refl _)
    (rfl : step _ lateTimer = some _) rfl (rfl : exec step anyAction _ lateRun = some _) hmono
    (fun _ now₁ hnow₁ => ?_) (List.mem_singleton.mpr rfl)
  obtain rfl := Option.some.inj hnow₁
  rfl

end History

end Wille
