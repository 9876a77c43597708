import Wille.ForMathlib.TransitionSystem
import Wille.Timer.Expiry

/-!
# Who is told about an earlier timer

A thread asks `getNextTimer` how long it may sleep and sleeps. When a timer due earlier comes in,
somebody has to wake it, and `addTimer` does so by calling `onTimerInsertedAtFront` after it has
released the lock. It does not always: only for a timer that went to the front, and only while
`m_tickled` is clear. `refresh` and the re-arming in `listExpiredCb` never do.

Here the threads run one lock section at a time. The clock readings that the code takes before a
lock are taken at a step of their own, and so is the call after the lock. Two ghost fields record
what a sleeping thread relies on: the front its last `getNextTimer` saw, and how many of these
calls had been made by then.

Every period was counted from a moment in the past, so counting it again from now can only make a
timer later. Only a new period can undercut a sleeper, and the flag that would suppress the
notification was raised since the last `getNextTimer` of anyone, hence since the sleeper's.

## Main definitions

* `Sleepers`, `Sleepers.step` — the threads and their lock sections
* `Sleepers.Steady` — the clock never goes back, no due time wraps, no rollover is seen
* `Sleepers.Announced` — a notification made or about to be made

## Main results

* `Sleepers.Announcing.of_step` — the step lemma
* `Sleepers.undercut_announced` — a sleeper that is undercut has been told
-/

namespace Wille

open TransitionSystem

/-- Where a thread stands between its lock sections. -/
inductive Sleepers.Pc (Cb : Type*) where
  /-- In none of the operations. -/
  | rest
  /-- In `addTimer(ms, cb, recurring)`, after the constructor has read the clock. -/
  | adding (addr : ℕ) (ms : UInt64) (cb : Option Cb) (recurring : Bool) (now : UInt64)
  /-- In `reset(ms, from_now)`, after the test before the lock. -/
  | resetting (t : ℕ) (ms : UInt64) (from_now : Bool)
  /-- In `listExpiredCb`, after reading the clock. -/
  | listing (now : UInt64)
  /-- In `listExpiredCb`, between the read lock and the write lock. -/
  | expiring (now : UInt64)
  /-- About to call `onTimerInsertedAtFront`, for a timer inserted after `stamp` calls of
  `getNextTimer`. -/
  | notifying (stamp : ℕ)

/-- A manager and the threads that use it. -/
structure Sleepers (Th Cb : Type*) where
  /-- The manager. -/
  manager : TimerManager Cb
  /-- What `GetCurrentMS()` returns. -/
  clock : UInt64
  /-- Where each thread stands. -/
  pc : Th → Sleepers.Pc Cb
  /-- How many calls of `getNextTimer` there have been. -/
  stamp : ℕ
  /-- The due time of the front that the thread's last `getNextTimer` saw (`none` for an empty set),
  and which call that was. -/
  seen : Th → Option (Option UInt64 × ℕ)
  /-- The calls of `onTimerInsertedAtFront`, each with the number of `getNextTimer` calls before
  the insertion it announces. -/
  calls : List ℕ

namespace Sleepers

/-- The steps of the threads, and the ticking of the clock. -/
inductive Act (Th Cb : Type*) where
  /-- The clock shows another time. -/
  | tick (now : UInt64)
  /-- `addTimer`: the constructor. -/
  | construct (v : Th) (addr : ℕ) (ms : UInt64) (cb : Option Cb) (recurring : Bool)
  /-- `addTimer`: the section under the lock. -/
  | insert (v : Th)
  /-- The call of `onTimerInsertedAtFront`. -/
  | notify (v : Th)
  /-- `Timer::cancel` -/
  | cancel (v : Th) (t : ℕ)
  /-- `Timer::refresh` -/
  | refresh (v : Th) (t : ℕ)
  /-- `Timer::reset`: the test before the lock. -/
  | resetTest (v : Th) (t : ℕ) (ms : UInt64) (from_now : Bool)
  /-- `Timer::reset`: the section under the lock. -/
  | reset (v : Th)
  /-- `getNextTimer` -/
  | getNextTimer (v : Th)
  /-- `listExpiredCb`: reading the clock. -/
  | list (v : Th)
  /-- `listExpiredCb`: the test under the read lock. -/
  | listTest (v : Th)
  /-- `listExpiredCb`: the section under the write lock; `addr` is where `now_timer` lives. -/
  | expire (v : Th) (addr : ℕ)

variable {Th Cb : Type*} [DecidableEq Th]

/-- A new manager, and nobody using it yet. -/
def init (object : ℕ → Timer Cb) (now : UInt64) : Sleepers Th Cb :=
  { manager := TimerManager.make object now, clock := now, pc := fun _ => .rest, stamp := 0,
    seen := fun _ => none, calls := [] }

/-- One thread goes on, and the manager changes. -/
def move (s : Sleepers Th Cb) (v : Th) (p : Pc Cb) (m : TimerManager Cb) : Sleepers Th Cb :=
  { s with manager := m, pc := Function.update s.pc v p }

/-- A thread has called `getNextTimer` and remembers the front that the call saw. -/
def ask (s : Sleepers Th Cb) (v : Th) : Sleepers Th Cb :=
  let front := s.manager.timers.head?.map fun t => (s.manager.timer t).next
  { s with
    manager := (s.manager.getNextTimer s.clock).1
    stamp := s.stamp + 1
    seen := Function.update s.seen v (some (front, s.stamp + 1)) }

/-- Where a thread stands after `addTimer(val, lock)` has released the lock. -/
def afterAdd (s : Sleepers Th Cb) (at_front : Bool) : Pc Cb :=
  if at_front then .notifying s.stamp else .rest

/-- One step; `none` where the thread stands elsewhere, for a handle nobody has, and where the
code would erase `end()`. -/
def step (s : Sleepers Th Cb) : Act Th Cb → Option (Sleepers Th Cb)
  | .tick now => some { s with clock := now }
  | .construct v addr ms cb recurring =>
    match s.pc v with
    | .rest => some (s.move v (.adding addr ms cb recurring s.clock) s.manager)
    | _ => none
  | .insert v =>
    match s.pc v with
    | .adding addr ms cb recurring now =>
      if ∀ t ∈ s.manager.timers, (s.manager.timer t).addr ≠ addr then
        let r := s.manager.addTimer addr ms cb recurring now
        some (s.move v (s.afterAdd r.2) r.1)
      else none
    | _ => none
  | .notify v =>
    match s.pc v with
    | .notifying stamp => some { s.move v .rest s.manager with calls := stamp :: s.calls }
    | _ => none
  | .cancel v t =>
    match s.pc v with
    | .rest =>
      if t < s.manager.created then (s.manager.cancel t).map fun r => s.move v .rest r.2 else none
    | _ => none
  | .refresh v t =>
    match s.pc v with
    | .rest =>
      if t < s.manager.created then some (s.move v .rest (s.manager.refresh t s.clock).2)
      else none
    | _ => none
  | .resetTest v t ms from_now =>
    match s.pc v with
    | .rest =>
      if t < s.manager.created then
        if ms = (s.manager.timer t).ms && !from_now then some s
        else some (s.move v (.resetting t ms from_now) s.manager)
      else none
    | _ => none
  | .reset v =>
    match s.pc v with
    | .resetting t ms from_now =>
      if t < s.manager.created then
        let r := s.manager.resetLocked t ms from_now s.clock
        some (s.move v (s.afterAdd r.2.2) r.2.1)
      else none
    | _ => none
  | .getNextTimer v =>
    match s.pc v with
    | .rest => some (s.ask v)
    | _ => none
  | .list v =>
    match s.pc v with
    | .rest => some (s.move v (.listing s.clock) s.manager)
    | _ => none
  | .listTest v =>
    match s.pc v with
    | .listing now =>
      some (s.move v (if s.manager.timers.isEmpty then .rest else .expiring now) s.manager)
    | _ => none
  | .expire v addr =>
    match s.pc v with
    | .expiring now => some (s.move v .rest (s.manager.listExpiredCbLocked now addr).2)
    | _ => none

/-- A sum of clock values does not wrap around. -/
def NoWrap (start ms : UInt64) : Prop := start.toNat + ms.toNat < 2 ^ 64

/-- What the environment promises: the clock never goes back, no due time wraps around, and no
`listExpiredCb` that looks for a rollover sees one. -/
def Steady (s : Sleepers Th Cb) : Act Th Cb → Prop
  | .tick now => s.clock ≤ now
  | .construct _ _ ms _ _ => NoWrap s.clock ms
  | .refresh _ t => (s.manager.timer t).cb.isSome → NoWrap s.clock (s.manager.timer t).ms
  | .reset v =>
    match s.pc v with
    | .resetting t ms from_now =>
      (s.manager.timer t).cb.isSome →
        NoWrap (if from_now then s.clock
          else (s.manager.timer t).next - (s.manager.timer t).ms) ms
    | _ => True
  | .expire v _ =>
    match s.pc v with
    | .expiring now =>
      (s.manager.timers ≠ [] → (s.manager.detectClockRollover now).1 = false) ∧
        ∀ t ∈ s.manager.expired now, (s.manager.timer t).recurring = true →
          NoWrap now (s.manager.timer t).ms
    | _ => True
  | _ => True

/-! ### What a sleeper relies on -/

/-- The notification for a timer inserted after `stamp` calls of `getNextTimer` has been made, or a
thread has released the lock and is about to make it. -/
def Announced (s : Sleepers Th Cb) (stamp : ℕ) : Prop :=
  stamp ∈ s.calls ∨ ∃ v, s.pc v = .notifying stamp

/-- Some pending timer is due earlier than the front a sleeper saw; any will do if it saw none. -/
def Undercut (m : TimerManager Cb) (front : Option UInt64) : Prop :=
  ∃ t ∈ m.timers, ∀ due, front = some due → (m.timer t).next < due

/-- The due time of a timer is its period counted from a moment in the past. -/
def Started (clock : UInt64) (timer : Timer Cb) : Prop :=
  ∃ start ≤ clock.toNat, timer.next.toNat = start + timer.ms.toNat

/-- A reading that a thread carries along is not in the future. -/
def Pc.ReadBefore (clock : UInt64) : Pc Cb → Prop
  | .adding _ ms _ _ now => now ≤ clock ∧ NoWrap now ms
  | .listing now => now ≤ clock
  | .expiring now => now ≤ clock
  | _ => True

/-- What holds of every state of a steady run. -/
structure Announcing (s : Sleepers Th Cb) : Prop where
  /-- The set is ordered. -/
  wf : s.manager.WellFormed []
  /-- Every period was counted from a moment in the past. -/
  past : ∀ t ∈ s.manager.timers, Started s.clock (s.manager.timer t)
  /-- So was every reading. -/
  readings : ∀ v, (s.pc v).ReadBefore s.clock
  /-- The flag is up only when someone was told since the last `getNextTimer`. -/
  tickled : s.manager.tickled = true → ∃ stamp ≥ s.stamp, s.Announced stamp
  /-- A sleeper that is undercut has been told since it asked. -/
  told : ∀ v front stamp, s.seen v = some (front, stamp) → stamp ≤ s.stamp ∧
    (Undercut s.manager front → ∃ stamp' ≥ stamp, s.Announced stamp')

theorem Started.mono {clock clock' : UInt64} {timer : Timer Cb} (h : Started clock timer)
    (hle : clock ≤ clock') : Started clock' timer := by
  obtain ⟨start, hstart, hnext⟩ := h
  exact ⟨start, Nat.le_trans hstart (UInt64.le_iff_toNat_le.mp hle), hnext⟩

theorem Pc.ReadBefore.mono {clock clock' : UInt64} {p : Pc Cb} (h : p.ReadBefore clock)
    (hle : clock ≤ clock') : p.ReadBefore clock' := by
  cases p with
  | adding addr ms cb recurring now => exact ⟨UInt64.le_trans h.1 hle, h.2⟩
  | listing now => exact UInt64.le_trans h hle
  | expiring now => exact UInt64.le_trans h hle
  | _ => trivial

theorem toNat_add_of_noWrap {start ms : UInt64} (h : NoWrap start ms) :
    (start + ms).toNat = start.toNat + ms.toNat := by
  rw [UInt64.toNat_add, Nat.mod_eq_of_lt h]

theorem Undercut.of_raised {m m' : TimerManager Cb} {front : Option UInt64}
    (hraise : ∀ t ∈ m'.timers, t ∈ m.timers ∧ (m.timer t).next ≤ (m'.timer t).next)
    (h : Undercut m' front) : Undercut m front := by
  obtain ⟨t, ht, hdue⟩ := h
  obtain ⟨ht', hle⟩ := hraise t ht
  exact ⟨t, ht', fun due hfront => UInt64.lt_of_le_of_lt hle (hdue due hfront)⟩

/-- **Inserting undercuts nobody unnoticed.** If it undercuts a sleeper, then the new timer goes to
the front and is announced, or the flag was up, or the sleeper was undercut before. -/
theorem Undercut.of_addTimerLocked {m : TimerManager Cb} {t : ℕ} (wf : m.WellFormed [t])
    {front : Option UInt64} (h : Undercut (m.addTimerLocked t).1 front) :
    (m.addTimerLocked t).2 = true ∨ m.tickled = true ∨ Undercut m front := by
  obtain ⟨s, hs, hdue⟩ := h
  have hs' : s ∈ (m.insert t).1.timers := hs
  have hdue' : ∀ due, front = some due → (m.timer s).next < due := hdue
  rcases wf.mem_insert.mp hs' with rfl | hold
  · by_cases hfirst : ∀ r ∈ m.timers, m.lt r s = false
    · cases htickled : m.tickled with
      | true => exact Or.inr (Or.inl rfl)
      | false => exact Or.inl (wf.addTimerLocked_snd.mpr ⟨hfirst, htickled⟩)
    · -- a member before the new timer undercuts the sleeper too
      push Not at hfirst
      obtain ⟨r, hr, hlt⟩ := hfirst
      rw [ne_eq, Bool.not_eq_false, TimerManager.lt_iff] at hlt
      refine Or.inr (Or.inr ⟨r, hr, fun due hfront => ?_⟩)
      rcases hlt with hlt | ⟨heq, -⟩
      · exact UInt64.lt_trans hlt (hdue' due hfront)
      · rw [heq]
        exact hdue' due hfront
  · exact Or.inr (Or.inr ⟨s, hold, hdue'⟩)

theorem Announced.of_move {s : Sleepers Th Cb} {v : Th} {p : Pc Cb} {m : TimerManager Cb}
    (hv : ∀ stamp, s.pc v ≠ .notifying stamp) {stamp : ℕ} (h : s.Announced stamp) :
    (s.move v p m).Announced stamp := by
  rcases h with hcall | ⟨u, hu⟩
  · exact Or.inl hcall
  · refine Or.inr ⟨u, ?_⟩
    have huv : u ≠ v := by
      rintro rfl
      exact hv stamp hu
    rw [← hu]
    exact Function.update_of_ne huv _ _

theorem announced_move_notifying (s : Sleepers Th Cb) (v : Th) (stamp : ℕ) (m : TimerManager Cb) :
    (s.move v (.notifying stamp) m).Announced stamp :=
  Or.inr ⟨v, Function.update_self ..⟩

namespace Announcing

omit [DecidableEq Th] in
theorem init (object : ℕ → Timer Cb) (now : UInt64) :
    Announcing (Sleepers.init object now : Sleepers Th Cb) where
  wf := .make object now
  past _ ht := absurd ht List.not_mem_nil
  readings _ := trivial
  tickled h := absurd h Bool.false_ne_true
  told _ _ _ h := absurd h (Option.some_ne_none _).symm

/-- **One thread going on.** It keeps everything, as long as it undercuts nobody unnoticed. -/
theorem move {s : Sleepers Th Cb} (a : s.Announcing) {v : Th} {p : Pc Cb} {m : TimerManager Cb}
    (hv : ∀ stamp, s.pc v ≠ .notifying stamp) (hp : p.ReadBefore s.clock)
    (wf : m.WellFormed []) (past : ∀ t ∈ m.timers, Started s.clock (m.timer t))
    (htickled : m.tickled = true → s.manager.tickled = true ∨ p = .notifying s.stamp)
    (hcut : ∀ front, Undercut m front →
      p = .notifying s.stamp ∨ s.manager.tickled = true ∨ Undercut s.manager front) :
    (s.move v p m).Announcing := by
  have hflag : s.manager.tickled = true → ∃ stamp ≥ s.stamp, (s.move v p m).Announced stamp := by
    intro h
    obtain ⟨stamp, hle, hann⟩ := a.tickled h
    exact ⟨stamp, hle, hann.of_move hv⟩
  have hnew : p = .notifying s.stamp → ∃ stamp ≥ s.stamp, (s.move v p m).Announced stamp := by
    rintro rfl
    exact ⟨s.stamp, Nat.le_refl _, announced_move_notifying s v s.stamp m⟩
  refine ⟨wf, past, fun u => ?_, fun h => (htickled h).elim hflag hnew,
    fun u front stamp hseen => ?_⟩
  · rcases eq_or_ne u v with rfl | hne
    · rw [show (s.move u p m).pc u = p from Function.update_self ..]
      exact hp
    · rw [show (s.move v p m).pc u = s.pc u from Function.update_of_ne hne _ _]
      exact a.readings u
  · obtain ⟨hle, htold⟩ := a.told u front stamp hseen
    refine ⟨hle, fun h => ?_⟩
    have hlater : (∃ stamp' ≥ s.stamp, (s.move v p m).Announced stamp') →
        ∃ stamp' ≥ stamp, (s.move v p m).Announced stamp' :=
      fun ⟨stamp', hge, hann⟩ => ⟨stamp', Nat.le_trans hle hge, hann⟩
    rcases hcut front h with hp | htick | hold
    · exact hlater (hnew hp)
    · exact hlater (hflag htick)
    · obtain ⟨stamp', hge, hann⟩ := htold hold
      exact ⟨stamp', hge, hann.of_move hv⟩

/-- A thread goes on, and the timers are only removed or made later. -/
theorem move_of_raised {s : Sleepers Th Cb} (a : s.Announcing) {v : Th} {p : Pc Cb}
    {m : TimerManager Cb} (hv : ∀ stamp, s.pc v ≠ .notifying stamp) (hp : p.ReadBefore s.clock)
    (wf : m.WellFormed []) (htickled : m.tickled = s.manager.tickled)
    (hraise : ∀ t ∈ m.timers, t ∈ s.manager.timers ∧
      (s.manager.timer t).next ≤ (m.timer t).next ∧ Started s.clock (m.timer t)) :
    (s.move v p m).Announcing :=
  a.move hv hp wf (fun t ht => (hraise t ht).2.2) (fun h => Or.inl (htickled ▸ h))
    fun _ h => Or.inr (Or.inr (h.of_raised fun t ht => ⟨(hraise t ht).1, (hraise t ht).2.1⟩))

/-- A thread goes on without touching the manager. -/
theorem move_of_same {s : Sleepers Th Cb} (a : s.Announcing) {v : Th} {p : Pc Cb}
    (hv : ∀ stamp, s.pc v ≠ .notifying stamp) (hp : p.ReadBefore s.clock) :
    (s.move v p s.manager).Announcing :=
  a.move_of_raised hv hp a.wf rfl fun t ht => ⟨ht, UInt64.le_refl _, a.past t ht⟩

/-- A thread puts a timer into the set and goes on to announce it if it has to. -/
theorem move_of_added {s : Sleepers Th Cb} (a : s.Announcing) {v : Th} {m : TimerManager Cb}
    {t : ℕ} (hv : ∀ stamp, s.pc v ≠ .notifying stamp) (wf : m.WellFormed [t])
    (htickled : m.tickled = s.manager.tickled) (ht : Started s.clock (m.timer t))
    (hrest : ∀ r ∈ m.timers, r ∈ s.manager.timers ∧ (m.timer r).next = (s.manager.timer r).next ∧
      (m.timer r).ms = (s.manager.timer r).ms) :
    (s.move v (s.afterAdd (m.addTimerLocked t).2) (m.addTimerLocked t).1).Announcing := by
  have hp : (m.addTimerLocked t).2 = true →
      s.afterAdd (m.addTimerLocked t).2 = .notifying s.stamp := fun h => if_pos h
  have hread : (s.afterAdd (m.addTimerLocked t).2).ReadBefore s.clock := by
    rw [afterAdd]
    split <;> trivial
  refine a.move hv hread wf.addTimerLocked ?_ ?_ fun front h => ?_
  · intro r hr
    have hr' : r ∈ (m.insert t).1.timers := hr
    show Started s.clock (m.timer r)
    rcases wf.mem_insert.mp hr' with rfl | hold
    · exact ht
    · obtain ⟨hmem, hnext, hms⟩ := hrest r hold
      obtain ⟨start, hstart, hsum⟩ := a.past r hmem
      exact ⟨start, hstart, by rw [hnext, hms, hsum]⟩
  · intro h
    have h' : (m.tickled || (m.addTimerLocked t).2) = true := h
    rcases Bool.or_eq_true_iff.mp h' with h' | h'
    · exact Or.inl (htickled ▸ h')
    · exact Or.inr (hp h')
  · rcases h.of_addTimerLocked wf with hflag | htick | hold
    · exact Or.inl (hp hflag)
    · exact Or.inr (Or.inl (htickled ▸ htick))
    · refine Or.inr (Or.inr (hold.of_raised fun r hr => ?_))
      obtain ⟨hmem, hnext, -⟩ := hrest r hr
      exact ⟨hmem, hnext ▸ UInt64.le_refl _⟩

/-! ### The step lemma -/

theorem ask {s : Sleepers Th Cb} (a : s.Announcing) (v : Th) : (s.ask v).Announcing := by
  have hm : (s.ask v).manager = { s.manager with tickled := false } :=
    TimerManager.getNextTimer_fst s.clock
  refine ⟨a.wf.getNextTimer s.clock, hm ▸ a.past, a.readings, fun h => ?_,
    fun u front stamp hseen => ?_⟩
  · rw [hm] at h
    exact absurd h Bool.false_ne_true
  rcases eq_or_ne u v with rfl | hne
  · -- the thread that asks: nobody is due before the front
    have hseen' := (Function.update_self ..).symm.trans hseen
    rw [Option.some.injEq, Prod.mk.injEq] at hseen'
    obtain ⟨rfl, rfl⟩ := hseen'
    refine ⟨Nat.le_refl _, fun h => ?_⟩
    rw [hm] at h
    obtain ⟨t, ht, hdue⟩ := h
    obtain ⟨first, rest, htimers⟩ := List.exists_cons_of_ne_nil (List.ne_nil_of_mem ht)
    have hfirst : s.manager.timers = first :: rest := htimers
    have hlt := hdue (s.manager.timer first).next (by rw [hfirst]; rfl)
    rw [htimers] at ht
    rcases List.mem_cons.mp ht with rfl | ht
    · exact absurd hlt (UInt64.lt_irrefl _)
    · have hord := (List.pairwise_cons.mp (htimers ▸ a.wf.sorted)).1 t ht
      rw [TimerManager.lt_iff] at hord
      rcases hord with hord | ⟨heq, -⟩
      · exact absurd (UInt64.lt_trans hlt hord) (UInt64.lt_irrefl _)
      · exact absurd hlt (heq ▸ UInt64.lt_irrefl _)
  · have hseen' := (Function.update_of_ne hne _ _).symm.trans hseen
    obtain ⟨hle, htold⟩ := a.told u front stamp hseen'
    refine ⟨Nat.le_succ_of_le hle, fun h => htold ?_⟩
    rw [hm] at h
    exact h

/-- Counting a period again from now makes the timer later. -/
theorem refresh {s : Sleepers Th Cb} (a : s.Announcing) {v : Th}
    (hv : ∀ stamp, s.pc v ≠ .notifying stamp) {t : ℕ} (hc : t < s.manager.created)
    (hwrap : (s.manager.timer t).cb.isSome → NoWrap s.clock (s.manager.timer t).ms) :
    (s.move v .rest (s.manager.refresh t s.clock).2).Announcing := by
  by_cases hcb : (s.manager.timer t).cb.isSome
  · have hmem := fun r => a.wf.mem_refresh (s := r) hc s.clock
    have hwf := a.wf.refresh hc s.clock
    rw [a.wf.refresh_of_isSome hc hcb] at hmem hwf ⊢
    refine a.move_of_raised hv trivial hwf rfl fun r hr => ⟨(hmem r).mp hr, ?_⟩
    rw [TimerManager.insert_timer]
    rcases eq_or_ne r t with rfl | hne
    · rw [TimerManager.modify_timer_self]
      have hsum := toNat_add_of_noWrap (hwrap hcb)
      obtain ⟨start, hstart, hnext⟩ := a.past r ((hmem r).mp hr)
      refine ⟨?_, s.clock.toNat, Nat.le_refl _, hsum⟩
      rw [UInt64.le_iff_toNat_le, hsum, hnext]
      exact Nat.add_le_add_right hstart _
    · rw [TimerManager.modify_timer_of_ne _ hne]
      exact ⟨UInt64.le_refl _, a.past r ((hmem r).mp hr)⟩
  · rw [TimerManager.WellFormed.refresh_of_isNone hcb]
    exact a.move_of_same hv trivial

theorem cancel {s : Sleepers Th Cb} (a : s.Announcing) {v : Th}
    (hv : ∀ stamp, s.pc v ≠ .notifying stamp) {t : ℕ} (hc : t < s.manager.created)
    {r : Bool × TimerManager Cb} (hr : s.manager.cancel t = some r) :
    (s.move v .rest r.2).Announcing := by
  by_cases hcb : (s.manager.timer t).cb.isSome
  · obtain ⟨r', hr', hwf⟩ := a.wf.cancel hc
    obtain rfl := Option.some.inj (hr'.symm.trans hr)
    have hmem := fun u => a.wf.mem_cancel (s := u) hc hr
    rw [a.wf.cancel_of_isSome hc hcb, Option.some.injEq] at hr
    subst hr
    refine a.move_of_raised hv trivial hwf rfl fun u hu => ?_
    obtain ⟨hne, hold⟩ := (hmem u).mp hu
    rw [TimerManager.modify_timer_of_ne _ fun he => hne ⟨he, rfl⟩]
    exact ⟨hold, UInt64.le_refl _, a.past u hold⟩
  · rw [TimerManager.cancel, if_neg hcb, Option.some.injEq] at hr
    subst hr
    exact a.move_of_same hv trivial

theorem addTimer {s : Sleepers Th Cb} (a : s.Announcing) {v : Th}
    (hv : ∀ stamp, s.pc v ≠ .notifying stamp) {addr : ℕ} {ms : UInt64} {cb : Option Cb}
    {recurring : Bool} {now : UInt64} (hread : now ≤ s.clock ∧ NoWrap now ms)
    (haddr : ∀ t ∈ s.manager.timers, (s.manager.timer t).addr ≠ addr) :
    (s.move v (s.afterAdd (s.manager.addTimer addr ms cb recurring now).2)
      (s.manager.addTimer addr ms cb recurring now).1).Announcing := by
  refine a.move_of_added hv (a.wf.construct_make ms cb recurring now haddr) rfl ?_ fun r hr => ?_
  · refine ⟨now.toNat, UInt64.le_iff_toNat_le.mp hread.1, ?_⟩
    simp only [TimerManager.construct, Function.update_self, Timer.make]
    exact toNat_add_of_noWrap hread.2
  · have hne : r ≠ s.manager.created := Nat.ne_of_lt (a.wf.bound r hr)
    simp only [TimerManager.construct, Function.update_of_ne hne]
    exact ⟨hr, trivial, trivial⟩

theorem reset {s : Sleepers Th Cb} (a : s.Announcing) {v : Th}
    (hv : ∀ stamp, s.pc v ≠ .notifying stamp) {t : ℕ} (hc : t < s.manager.created) {ms : UInt64}
    {from_now : Bool} (hwrap : (s.manager.timer t).cb.isSome →
      NoWrap (if from_now then s.clock
        else (s.manager.timer t).next - (s.manager.timer t).ms) ms) :
    (s.move v (s.afterAdd (s.manager.resetLocked t ms from_now s.clock).2.2)
      (s.manager.resetLocked t ms from_now s.clock).2.1).Announcing := by
  by_cases hcb : (s.manager.timer t).cb.isSome
  · have ht := a.wf.complete t hc hcb
    rw [a.wf.resetLocked_of_isSome hc hcb]
    refine a.move_of_added hv ((a.wf.takeOut ht).rekey rfl rfl) rfl ?_ fun r hr => ?_
    · rw [TimerManager.modify_timer_self]
      have hsum := toNat_add_of_noWrap (hwrap hcb)
      refine ⟨_, ?_, hsum⟩
      cases from_now with
      | true => exact Nat.le_refl _
      | false =>
        -- the old start, which is in the past too
        obtain ⟨start, hstart, hnext⟩ := a.past t ht
        have hle : (s.manager.timer t).ms ≤ (s.manager.timer t).next := by
          rw [UInt64.le_iff_toNat_le]
          omega
        rw [if_neg Bool.false_ne_true, UInt64.toNat_sub_of_le _ _ hle]
        omega
    · obtain ⟨hne, hold⟩ := a.wf.mem_takeOut.mp hr
      rw [TimerManager.modify_timer_of_ne _ hne]
      exact ⟨hold, rfl, rfl⟩
  · rw [TimerManager.WellFormed.resetLocked_of_isNone hcb]
    exact a.move_of_same hv trivial

theorem expire {s : Sleepers Th Cb} (a : s.Announcing) {v : Th}
    (hv : ∀ stamp, s.pc v ≠ .notifying stamp) {now : UInt64} (hnow : now ≤ s.clock)
    (hroll : s.manager.timers ≠ [] → (s.manager.detectClockRollover now).1 = false)
    (hwrap : ∀ t ∈ s.manager.expired now, (s.manager.timer t).recurring = true →
      NoWrap now (s.manager.timer t).ms) (addr : ℕ) :
    (s.move v .rest (s.manager.listExpiredCb now addr).2).Announcing := by
  refine a.move_of_raised hv trivial (a.wf.listExpiredCb now addr)
    (a.wf.ordered.listExpiredCb_tickled now addr) fun t ht => ?_
  obtain ⟨hold, hkept⟩ := (a.wf.ordered.mem_listExpiredCb now addr t).mp ht
  rw [a.wf.ordered.listExpiredCb_timer now addr]
  refine ⟨hold, ?_⟩
  by_cases hexp : t ∈ s.manager.expired now
  · -- re-armed from a reading that had reached the old due time
    have hrec : (s.manager.timer t).recurring = true := by
      by_contra h
      exact hkept ⟨hexp, by simpa using h⟩
    have hdue : (s.manager.timer t).next ≤ now := by
      rcases (TimerManager.mem_expired.mp hexp).2 with h | h
      · rw [hroll (List.ne_nil_of_mem hold)] at h
        exact absurd h Bool.false_ne_true
      · exact h
    have hsum := toNat_add_of_noWrap (hwrap t hexp hrec)
    rw [if_pos hexp, Timer.fired, if_pos hrec]
    refine ⟨?_, now.toNat, UInt64.le_iff_toNat_le.mp hnow, hsum⟩
    rw [UInt64.le_iff_toNat_le] at hdue ⊢
    exact Nat.le_trans hdue (by rw [hsum]; exact Nat.le_add_right _ _)
  · rw [if_neg hexp]
    exact ⟨UInt64.le_refl _, a.past t hold⟩

/-- The notification itself: what was about to be made has been made. -/
theorem notify {s : Sleepers Th Cb} (a : s.Announcing) {v : Th} {stamp : ℕ}
    (hv : s.pc v = .notifying stamp) :
    Announcing { s.move v .rest s.manager with calls := stamp :: s.calls } := by
  have hann : ∀ stamp', s.Announced stamp' →
      Announced { s.move v .rest s.manager with calls := stamp :: s.calls } stamp' := by
    rintro stamp' (hcall | ⟨u, hu⟩)
    · exact Or.inl (List.mem_cons_of_mem _ hcall)
    · rcases eq_or_ne u v with rfl | hne
      · rw [hv, Pc.notifying.injEq] at hu
        exact Or.inl (hu ▸ List.mem_cons_self ..)
      · exact Or.inr ⟨u, (Function.update_of_ne hne _ _).trans hu⟩
  refine ⟨a.wf, a.past, fun u => ?_, fun h => ?_, fun u front stamp' hseen => ?_⟩
  · rcases eq_or_ne u v with rfl | hne
    · rw [show (s.move u .rest s.manager).pc u = .rest from Function.update_self ..]
      trivial
    · rw [show (s.move v .rest s.manager).pc u = s.pc u from Function.update_of_ne hne _ _]
      exact a.readings u
  · obtain ⟨stamp', hge, h'⟩ := a.tickled h
    exact ⟨stamp', hge, hann stamp' h'⟩
  · obtain ⟨hle, htold⟩ := a.told u front stamp' hseen
    refine ⟨hle, fun h => ?_⟩
    obtain ⟨k, hge, h'⟩ := htold h
    exact ⟨k, hge, hann k h'⟩

/-- **The step lemma.** -/
theorem of_step {s s' : Sleepers Th Cb} (a : s.Announcing) {act : Act Th Cb}
    (hok : s.Steady act) (hs : s.step act = some s') : s'.Announcing := by
  cases act with
  | tick now =>
    obtain rfl := Option.some.inj hs
    exact ⟨a.wf, fun t ht => (a.past t ht).mono hok, fun v => (a.readings v).mono hok, a.tickled,
      a.told⟩
  | construct v addr ms cb recurring =>
    simp only [step] at hs
    split at hs
    · rename_i hpc
      obtain rfl := Option.some.inj hs
      exact a.move_of_same (by simp [hpc]) ⟨UInt64.le_refl _, hok⟩
    · exact absurd hs (Option.some_ne_none _).symm
  | insert v =>
    simp only [step] at hs
    split at hs
    · rename_i addr ms cb recurring now hpc
      have hread : now ≤ s.clock ∧ NoWrap now ms := by
        have := a.readings v
        rw [hpc] at this
        exact this
      obtain ⟨haddr, hs⟩ := Option.ite_none_right_eq_some.mp hs
      obtain rfl := Option.some.inj hs
      exact a.addTimer (by simp [hpc]) hread haddr
    · exact absurd hs (Option.some_ne_none _).symm
  | notify v =>
    simp only [step] at hs
    split at hs
    · rename_i stamp hpc
      obtain rfl := Option.some.inj hs
      exact a.notify hpc
    · exact absurd hs (Option.some_ne_none _).symm
  | cancel v t =>
    simp only [step] at hs
    split at hs
    · rename_i hpc
      obtain ⟨hc, hs⟩ := Option.ite_none_right_eq_some.mp hs
      obtain ⟨r, hr, rfl⟩ := Option.map_eq_some_iff.mp hs
      exact a.cancel (by simp [hpc]) hc hr
    · exact absurd hs (Option.some_ne_none _).symm
  | refresh v t =>
    simp only [step] at hs
    split at hs
    · rename_i hpc
      obtain ⟨hc, hs⟩ := Option.ite_none_right_eq_some.mp hs
      obtain rfl := Option.some.inj hs
      exact a.refresh (by simp [hpc]) hc hok
    · exact absurd hs (Option.some_ne_none _).symm
  | resetTest v t ms from_now =>
    simp only [step] at hs
    split at hs
    · rename_i hpc
      obtain ⟨hc, hs⟩ := Option.ite_none_right_eq_some.mp hs
      split at hs
      · obtain rfl := Option.some.inj hs
        exact a
      · obtain rfl := Option.some.inj hs
        exact a.move_of_same (by simp [hpc]) trivial
    · exact absurd hs (Option.some_ne_none _).symm
  | reset v =>
    simp only [step] at hs
    simp only [Steady] at hok
    split at hs
    · rename_i t ms from_now hpc
      obtain ⟨hc, hs⟩ := Option.ite_none_right_eq_some.mp hs
      obtain rfl := Option.some.inj hs
      rw [hpc] at hok
      exact a.reset (by simp [hpc]) hc hok
    · exact absurd hs (Option.some_ne_none _).symm
  | getNextTimer v =>
    simp only [step] at hs
    split at hs
    · obtain rfl := Option.some.inj hs
      exact a.ask v
    · exact absurd hs (Option.some_ne_none _).symm
  | list v =>
    simp only [step] at hs
    split at hs
    · rename_i hpc
      obtain rfl := Option.some.inj hs
      exact a.move_of_same (by simp [hpc]) (UInt64.le_refl s.clock)
    · exact absurd hs (Option.some_ne_none _).symm
  | listTest v =>
    simp only [step] at hs
    split at hs
    · rename_i now hpc
      have hread : now ≤ s.clock := by
        have := a.readings v
        rw [hpc] at this
        exact this
      obtain rfl := Option.some.inj hs
      refine a.move_of_same (by simp [hpc]) ?_
      split
      · trivial
      · exact hread
    · exact absurd hs (Option.some_ne_none _).symm
  | expire v addr =>
    simp only [step] at hs
    simp only [Steady] at hok
    split at hs
    · rename_i now hpc
      have hread : now ≤ s.clock := by
        have := a.readings v
        rw [hpc] at this
        exact this
      obtain rfl := Option.some.inj hs
      rw [hpc] at hok
      rw [TimerManager.listExpiredCbLocked_eq]
      exact a.expire (by simp [hpc]) hread hok.1 hok.2 addr
    · exact absurd hs (Option.some_ne_none _).symm

theorem of_reachable {object : ℕ → Timer Cb} {now : UInt64} {s : Sleepers Th Cb}
    (hr : Reachable step Steady (Sleepers.init object now) s) : s.Announcing :=
  hr.invariant (P := Announcing) (.init object now) fun _ _ _ a hok hs => a.of_step hok hs

end Announcing

/-- **A sleeper that is undercut has been told.** In every interleaving: when a timer is pending
that is due earlier than the front a thread saw at its last `getNextTimer` (any timer, if it saw
none), then for some timer inserted since, `onTimerInsertedAtFront` has been called, or a thread
has released the lock and is about to call it. -/
theorem undercut_announced {object : ℕ → Timer Cb} {now : UInt64} {s : Sleepers Th Cb}
    (hr : Reachable step Steady (init object now) s) {v : Th} {front : Option UInt64} {stamp : ℕ}
    (hseen : s.seen v = some (front, stamp)) {t : ℕ} (ht : t ∈ s.manager.timers)
    (hdue : ∀ due, front = some due → (s.manager.timer t).next < due) :
    ∃ stamp' ≥ stamp, stamp' ∈ s.calls ∨ ∃ u, s.pc u = .notifying stamp' :=
  ((Announcing.of_reachable hr).told v front stamp hseen).2 ⟨t, ht, hdue⟩

/-- One thread sees an empty set, another adds a timer of five milliseconds. -/
theorem undercut_announced_first :
    ∃ s : Sleepers Bool ℕ, Reachable step Steady (init (fun _ => Timer.probe 0 0) 100) s ∧
      s.seen false = some (none, 1) ∧ s.manager.timers = [0] ∧ s.calls = [] ∧
      ∃ stamp' ≥ 1, stamp' ∈ s.calls ∨ ∃ u, s.pc u = .notifying stamp' := by
  have hr₁ : Reachable step Steady (init (fun _ => Timer.probe 0 0) 100 : Sleepers Bool ℕ) _ :=
    (Reachable.refl _).tail (a := Act.getNextTimer false) trivial rfl
  have hr₂ := hr₁.tail (a := Act.construct true 16 5 (some 7) false)
    (by decide : (100 : UInt64).toNat + (5 : UInt64).toNat < 2 ^ 64) rfl
  have hr₃ := hr₂.tail (a := Act.insert true) trivial rfl
  exact ⟨_, hr₃, rfl, rfl, rfl,
    undercut_announced hr₃ (v := false) rfl (List.mem_singleton.mpr rfl)
      fun _ hfront => absurd hfront (Option.some_ne_none _).symm⟩

end Sleepers

end Wille
