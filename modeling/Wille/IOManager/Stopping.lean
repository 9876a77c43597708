import Wille.ForMathlib.TransitionSystem
import Wille.IOManager.Registrations
import Wille.Timer.History

/-!
# When an idle worker stops

`IOManager::stopping` asks three sources of work one after the other: the timers, the scheduler and
the counter of pending events. Here they are put together: the histories of the `TimerManager`, the
threads of the contexts, the queue, and the workers in `Scheduler::run` and `IOManager::idle`.

Between the three answers work moves. What `listExpiredCb` takes out of `m_timers` is in none of the
three until it is passed to `schedule`, and what has been asked first may have work again when the
last is asked. So the condition speaks of what the other threads do between the reads of one worker:
when it asks for the timers, nobody stands between `listExpiredCb` and `schedule`; from then on no
timer is created; and once the scheduler has answered, nothing is scheduled. That each answer is
still true at the end follows from it.

## What the model keeps

* `getNextTimer`, `Scheduler::stopping` and the read of `m_pendingEventCount` are three steps, and
  `listExpiredCb` and the `schedule` after it are two. `Scheduler::stopping` sees every task that is
  queued or running.
* A thread that is no worker, or that runs a task, may call any operation at any time.
* Which task a worker takes, and whether it looks for one or goes idle, is the choice of the
  actions.

## Main definitions

* `Place`, `Pool`, `Pool.Act`, `Pool.step` — the workers
* `Pool.AtRest` — there is no work anywhere
* `Pool.Undisturbed` — the condition under which the three answers fit together

## Main results

* `Pool.stopping_atRest` — under it, when `stopping` returns true there is no work anywhere
* `Pool.not_atRest_of_disturbed` — without it there is some, if the reads that are left come next
-/

namespace Wille

namespace IOManager

open TransitionSystem

/-- A task in `m_tasks`. -/
inductive Job (Fn Obj Fb : Type*) where
  | cb (cb : Callback Fn Obj)
  | fiber (fiber : Fb)

/-- Where a thread stands. -/
inductive Place (Fn Obj Fb : Type*) where
  /-- It is no worker. -/
  | outside
  /-- In `run`. -/
  | run
  /-- It runs a task. -/
  | task (job : Job Fn Obj Fb)
  /-- In `idle`, about to call `stopping`. -/
  | top
  /-- In `stopping`; `getNextTimer` has returned `~0ull`. -/
  | asked
  /-- In `stopping`; `Scheduler::stopping` has returned true as well. -/
  | quiet
  /-- `stopping` has returned false; about to call `epoll_wait`. -/
  | waiting
  /-- `epoll_wait` has returned. -/
  | awake
  /-- `listExpiredCb` has filled `cbs`. -/
  | expired (cbs : {cbs : List (ℕ × Option (Callback Fn Obj)) // cbs ≠ []})
  /-- About to handle what `epoll_wait` has reported. -/
  | handling
  /-- `stopping` has returned true. -/
  | exited

namespace Place

variable {Fn Obj Fb : Type*}

/-- It is no worker, or runs a task. -/
def calls : Place Fn Obj Fb → Bool
  | .outside | .task _ => true
  | _ => false

/-- It runs a task. -/
def isTask : Place Fn Obj Fb → Bool
  | .task _ => true
  | _ => false

/-- It has been told that there is no timer, and has not made the last read of `stopping` yet. -/
def isAsking : Place Fn Obj Fb → Bool
  | .asked | .quiet => true
  | _ => false

/-- `Scheduler::stopping` has returned true, and `m_pendingEventCount` is not read yet. -/
def isQuiet : Place Fn Obj Fb → Bool
  | .quiet => true
  | _ => false

/-- It stands between `listExpiredCb` and `schedule`. -/
def isExpired : Place Fn Obj Fb → Bool
  | .expired _ => true
  | _ => false

/-- The callbacks that are not passed to `schedule` yet. -/
def held : Place Fn Obj Fb → List (ℕ × Option (Callback Fn Obj))
  | .expired cbs => cbs
  | _ => []

variable {p : Place Fn Obj Fb}

theorem isAsking_of_isQuiet (h : p.isQuiet = true) : p.isAsking = true := by
  cases p <;> simp_all [isQuiet, isAsking]

theorem isQuiet_eq_false (h : p.isAsking = false) : p.isQuiet = false := by
  cases p <;> simp_all [isQuiet, isAsking]

/-- Who has called `schedule`, or does not come from `listExpiredCb`, holds nothing. -/
theorem held_eq_nil_iff : p.held = [] ↔ p.isExpired = false := by
  cases p with
  | expired cbs => simp [held, isExpired, cbs.2]
  | _ => simp [held, isExpired]

end Place

section Act

variable {Th Sched Fn Obj Fb : Type*}

/-- The thread that makes the step. -/
def Act.thread : Act Th Sched Fn Fb → Th
  | .addEvent v .. | .grow v | .add v _ | .delEvent v .. | .del v _ | .cancelEvent v ..
  | .cancel v _ | .cancelAll v _ | .cancelBoth v _ | .wait v _ | .handle v _ => v

/-- It is not a step of `idle`. -/
def Act.isCall : Act Th Sched Fn Fb → Bool
  | .wait _ _ | .handle _ _ => false
  | _ => true

end Act

/-- It is not a call that only `idle` makes. -/
def isCall {Fn Obj : Type*} : Op Fn Obj → Bool
  | .getNextTimer _ | .listExpiredCb _ _ => false
  | _ => true

/-- Only a call that creates a timer puts one into an empty set. -/
theorem timers_eq_nil_of_step {Fn Obj : Type*} {h h' : History Fn Obj} {op : Op Fn Obj}
    (hs : h.step op = some h') (hop : op.creates = none) (hnil : h.manager.timers = []) :
    h'.manager.timers = [] := by
  have hfind : ∀ m : TimerManager (Callback Fn Obj), m.timers = [] →
      ∀ t, OrderedSet.find m.lt t m.timers = none := fun m hm t => by
    rw [hm]
    rfl
  have hhandle : ∀ {t m}, h.onHandle t m = some h' → h'.manager = m := fun hm => by
    obtain ⟨-, hm⟩ := Option.ite_none_right_eq_some.mp hm
    obtain rfl := Option.some.inj hm
    rfl
  cases op with
  | addTimer => exact absurd hop (by simp [Op.creates])
  | addConditionTimer => exact absurd hop (by simp [Op.creates])
  | cancel t =>
    obtain ⟨r, hr, hs⟩ := Option.bind_eq_some_iff.mp hs
    obtain ⟨h₀, hh₀, rfl⟩ := Option.map_eq_some_iff.mp hs
    rw [TimerManager.cancel] at hr
    split at hr
    · obtain ⟨it, hit, -⟩ := Option.map_eq_some_iff.mp hr
      have hnone := (hfind (h.manager.modify t _) hnil t).symm.trans hit
      exact absurd hnone (Option.some_ne_none it).symm
    · obtain rfl := Option.some.inj hr
      obtain ⟨-, hh₀⟩ := Option.ite_none_right_eq_some.mp hh₀
      obtain rfl := Option.some.inj hh₀
      exact hnil
  | refresh t now =>
    rw [hhandle hs, TimerManager.refresh, hfind _ hnil]
    split <;> exact hnil
  | reset t ms from_now now =>
    rw [hhandle hs]
    rcases h.manager.reset_cases t ms from_now now with hreset | hreset <;> rw [hreset]
    · exact hnil
    · rw [TimerManager.resetLocked, hfind _ hnil]
      split <;> exact hnil
  | getNextTimer now =>
    obtain rfl := Option.some.inj hs
    rw [TimerManager.getNextTimer_fst]
    exact hnil
  | listExpiredCb now addr =>
    obtain rfl := Option.some.inj hs
    simp [TimerManager.listExpiredCb, hnil]

/-- After a call that creates a timer there is one. -/
theorem timers_ne_nil_of_add {Fn Obj : Type*} {h h' : History Fn Obj} {op : Op Fn Obj}
    (hs : h.step op = some h') (hop : op.creates ≠ none) : h'.manager.timers ≠ [] := by
  have hadd : ∀ (m : TimerManager (Callback Fn Obj)) (t : ℕ), (m.addTimerLocked t).1.timers ≠ [] :=
    fun m t => OrderedSet.insert_ne_nil m.lt t m.timers
  cases op with
  | addTimer addr ms cb recurring now =>
    obtain ⟨-, hs⟩ := Option.ite_none_right_eq_some.mp hs
    obtain rfl := Option.some.inj hs
    exact hadd _ _
  | addConditionTimer addr ms cb weak_cond recurring now =>
    obtain ⟨-, hs⟩ := Option.ite_none_right_eq_some.mp hs
    obtain rfl := Option.some.inj hs
    exact hadd _ _
  | _ => exact absurd rfl hop

/-- Waiting schedules nothing. -/
theorem State.scheduled_of_wait {Th Sched Fn Fb : Type*} [DecidableEq Th]
    {e e' : State Th Sched Fn Fb} {v : Th} {entries : List (ℕ × BitVec 32)}
    (h : e.step (.wait v entries) = some e') : e'.scheduled = e.scheduled := by
  obtain ⟨-, h⟩ := Option.ite_none_left_eq_some.mp h
  simp only [State.stepRunning] at h
  split at h
  · obtain ⟨-, h⟩ := Option.ite_none_right_eq_some.mp h
    obtain rfl := Option.some.inj h
    rfl
  · exact absurd h (Option.some_ne_none e').symm

/-- Where the counter is zero, nothing is registered. -/
theorem State.Balanced.not_registered {Th Sched Fn Fb : Type*} {s : State Th Sched Fn Fb}
    (h : s.Balanced) (hpending : s.pending = 0) :
    ∀ (p : ℕ) c e, s.heap[p]? = some c → ¬c.Registered e := by
  intro p c e hc
  have hsum : (s.heap.map FdContext.bits).sum = 0 := by
    have := h.pending
    omega
  have hbits : c.bits = 0 := List.sum_eq_zero_iff_forall_eq_nat.mp hsum _
    (List.mem_map_of_mem (List.mem_of_getElem? hc))
  intro he
  cases e <;> simp [FdContext.bits, he] at hbits

/-- An `IOManager` with all threads that use it. -/
structure Pool (Th Sched Fn Obj Fb : Type*) where
  /-- The `IOManager`, as `Scheduler::GetThis()` gives it. -/
  self : Sched
  /-- The `TimerManager` -/
  timers : History Fn Obj
  /-- `m_fdContexts`, `m_pendingEventCount` and the operations on them -/
  events : State Th Sched Fn Fb
  /-- `m_tasks` -/
  tasks : List (Job Fn Obj Fb)
  /-- `m_autoStop` -/
  autoStop : Bool
  /-- `m_stopping` -/
  stopFlag : Bool
  /-- Where each thread stands. -/
  place : Th → Place Fn Obj Fb

namespace Pool

variable {Th Sched Fn Obj Fb : Type*}

/-- The steps of the threads. -/
inductive Act (Th Sched Fn Obj Fb : Type*) where
  /-- A thread becomes a worker. -/
  | start (v : Th)
  /-- `stop` sets `m_autoStop`. -/
  | autoStop
  /-- `stop` sets `m_stopping`. -/
  | stopFlag
  /-- `run` takes a task. -/
  | take (v : Th) (i : ℕ)
  /-- The task has ended or yielded, and `run` puts its fiber back into the queue if it is `READY`.
  -/
  | finish (v : Th) (again : Option Fb)
  /-- `run` enters the idle fiber. -/
  | idle (v : Th)
  /-- `stopping`: `getNextTimer` -/
  | getNextTimer (v : Th) (now : UInt64)
  /-- `stopping`: `Scheduler::stopping` -/
  | schedulerStopping (v : Th)
  /-- `stopping`: the read of `m_pendingEventCount` -/
  | readPending (v : Th)
  /-- `idle`: `epoll_wait` -/
  | wait (v : Th) (entries : List (ℕ × BitVec 32))
  /-- `idle`: `listExpiredCb` -/
  | listExpiredCb (v : Th) (now : UInt64) (addr : ℕ)
  /-- `idle`: `schedule(cbs.begin(), cbs.end())` -/
  | schedule (v : Th)
  /-- `idle`: the next entry, or `swapOut` after the last one -/
  | handle (v : Th) (ok : Bool)
  /-- An operation on timers. -/
  | timer (v : Th) (op : Op Fn Obj)
  /-- A section of an operation on contexts. -/
  | event (a : IOManager.Act Th Sched Fn Fb)
  /-- `schedule(fiberOrCb)` -/
  | post (v : Th) (job : Job Fn Obj Fb)

/-- There is no work anywhere: no timer, no registered event, no task that is queued or running, and
no callback that is still to be passed to `schedule`. -/
structure AtRest (s : Pool Th Sched Fn Obj Fb) : Prop where
  timers : s.timers.manager.timers = []
  events : ∀ (p : ℕ) c e, s.events.heap[p]? = some c → ¬c.Registered e
  tasks : s.tasks = []
  running : ∀ u, (s.place u).isTask = false
  held : ∀ u, (s.place u).held = []

/-- A worker stands between `getNextTimer`, which found no timer, and the last read of `stopping`.
-/
def Asking (s : Pool Th Sched Fn Obj Fb) : Prop := ∃ u, (s.place u).isAsking = true

/-- A worker stands between `Scheduler::stopping` and the read of `m_pendingEventCount`. -/
def Deciding (s : Pool Th Sched Fn Obj Fb) : Prop := ∃ u, (s.place u).isQuiet = true

theorem Deciding.asking {s : Pool Th Sched Fn Obj Fb} (h : s.Deciding) : s.Asking :=
  h.imp fun _ => Place.isAsking_of_isQuiet

/-- What a worker has been told in `stopping` is still true. -/
structure Still (s : Pool Th Sched Fn Obj Fb) : Prop where
  /-- There is no timer, and no callback of one on its way to `schedule`. -/
  timers : s.Asking → s.timers.manager.timers = [] ∧ ∀ u, (s.place u).held = []
  /-- There is no task. -/
  tasks : s.Deciding → s.tasks = [] ∧ ∀ u, (s.place u).isTask = false

/-- No thread moves, and there is no more work than before. -/
theorem Still.stay {s s' : Pool Th Sched Fn Obj Fb} (h : s.Still) (hplace : s'.place = s.place)
    (htimers : s.Asking → s.timers.manager.timers = [] → s'.timers.manager.timers = [])
    (htasks : s.Deciding → s'.tasks = s.tasks) : s'.Still := by
  refine ⟨fun ha => ?_, fun hd => ?_⟩
  · have ha' : s.Asking := by rwa [Asking, hplace] at ha
    obtain ⟨hnil, hheld⟩ := h.timers ha'
    rw [hplace]
    exact ⟨htimers ha' hnil, hheld⟩
  · have hd' : s.Deciding := by rwa [Deciding, hplace] at hd
    obtain ⟨hnil, hrunning⟩ := h.tasks hd'
    rw [hplace]
    exact ⟨(htasks hd').trans hnil, hrunning⟩

variable [DecidableEq Th]

/-- A thread goes on. -/
def goto (s : Pool Th Sched Fn Obj Fb) (v : Th) (p : Place Fn Obj Fb) : Pool Th Sched Fn Obj Fb :=
  { s with place := Function.update s.place v p }

section Goto

variable {s : Pool Th Sched Fn Obj Fb} {v : Th} {p : Place Fn Obj Fb}

theorem goto_place_self : (s.goto v p).place v = p := Function.update_self ..

theorem goto_place_of_ne {u : Th} (h : u ≠ v) : (s.goto v p).place u = s.place u :=
  Function.update_of_ne h ..

/-- What holds of every place holds after a thread has gone on to such a place. -/
theorem forall_place_goto {P : Place Fn Obj Fb → Prop} (hp : P p) (h : ∀ u, P (s.place u))
    (u : Th) : P ((s.goto v p).place u) := by
  by_cases huv : u = v
  · rw [huv, goto_place_self]
    exact hp
  · rw [goto_place_of_ne huv]
    exact h u

theorem asking_of_goto (hp : p.isAsking = false) (h : (s.goto v p).Asking) : s.Asking := by
  obtain ⟨u, hu⟩ := h
  by_cases huv : u = v
  · subst huv
    rw [goto_place_self, hp] at hu
    exact absurd hu Bool.false_ne_true
  · exact ⟨u, by rwa [goto_place_of_ne huv] at hu⟩

theorem deciding_of_goto (hp : p.isQuiet = false) (h : (s.goto v p).Deciding) : s.Deciding := by
  obtain ⟨u, hu⟩ := h
  by_cases huv : u = v
  · subst huv
    rw [goto_place_self, hp] at hu
    exact absurd hu Bool.false_ne_true
  · exact ⟨u, by rwa [goto_place_of_ne huv] at hu⟩

/-- A thread goes on to a place where it asks nothing. While others ask it must not have work
there. -/
theorem Still.goto (h : s.Still) (hask : p.isAsking = false) (hheld : s.Asking → p.held = [])
    (htask : s.Deciding → p.isTask = false) : (s.goto v p).Still := by
  refine ⟨fun ha => ?_, fun hd => ?_⟩
  · have ha' := asking_of_goto hask ha
    obtain ⟨hnil, hholding⟩ := h.timers ha'
    exact ⟨hnil, forall_place_goto (P := fun q => q.held = []) (hheld ha') hholding⟩
  · have hd' := deciding_of_goto (Place.isQuiet_eq_false hask) hd
    obtain ⟨hnil, hrunning⟩ := h.tasks hd'
    exact ⟨hnil, forall_place_goto (P := fun q => q.isTask = false) (htask hd') hrunning⟩

end Goto

variable [DecidableEq Sched]

/-- A new `IOManager`, before its workers run. -/
def init (self : Sched) (object : ℕ → Timer (Callback Fn Obj)) (now : UInt64) :
    Pool Th Sched Fn Obj Fb :=
  { self, timers := History.init object now, events := State.init, tasks := [], autoStop := false,
    stopFlag := false, place := fun _ => .outside }

/-- The task that `triggerEvent` has handed over. -/
def jobOf : Task (ℕ × Fn) (ℕ × Fb) → Job Fn Obj Fb
  | .cb f => .cb (.fn f.2)
  | .fiber f => .fiber f.2

/-- What a section that leads to `events` has handed over to this scheduler. -/
def handed (s : Pool Th Sched Fn Obj Fb) (events : State Th Sched Fn Fb) : List (Job Fn Obj Fb) :=
  (events.scheduled.take (events.scheduled.length - s.events.scheduled.length)).reverse.filterMap
    fun x => if x.1 = s.self then some (jobOf x.2) else none

/-- The callbacks that are not empty. -/
def jobsOf (cbs : List (ℕ × Option (Callback Fn Obj))) : List (Job Fn Obj Fb) :=
  cbs.filterMap fun x => x.2.map Job.cb

/-- A section of an operation on contexts. -/
def inEvents (s : Pool Th Sched Fn Obj Fb) (a : IOManager.Act Th Sched Fn Fb) :
    Option (Pool Th Sched Fn Obj Fb) :=
  (s.events.step a).map fun events =>
    { s with events := events, tasks := s.tasks ++ s.handed events }

variable [Fintype Th]

/-- `Scheduler::stopping`, exact about queued and running tasks. -/
def stopping (s : Pool Th Sched Fn Obj Fb) : Bool :=
  s.autoStop && s.stopFlag && s.tasks.isEmpty && decide (∀ u, (s.place u).isTask = false)

/-- One step, in a program that is still running. -/
def stepRunning (s : Pool Th Sched Fn Obj Fb) :
    Act Th Sched Fn Obj Fb → Option (Pool Th Sched Fn Obj Fb)
  | .start v =>
    match s.place v with
    | .outside => some (s.goto v .run)
    | _ => none
  | .autoStop => some { s with autoStop := true }
  | .stopFlag => some { s with stopFlag := true }
  | .take v i =>
    match s.place v, s.tasks[i]? with
    | .run, some job => some ({ s with tasks := s.tasks.eraseIdx i }.goto v (.task job))
    | _, _ => none
  | .finish v again =>
    match s.place v with
    | .task _ =>
      if (s.events.pc v).isRest then
        some ({ s with tasks := s.tasks ++ (again.map Job.fiber).toList }.goto v .run)
      else none
    | _ => none
  | .idle v =>
    match s.place v with
    | .run => some (s.goto v .top)
    | _ => none
  | .getNextTimer v now =>
    match s.place v with
    | .top =>
      let timeout := (s.timers.manager.getNextTimer now).2
      (s.timers.step (.getNextTimer now)).map fun timers =>
        { s with timers := timers }.goto v (if timeout = ~~~0 then .asked else .waiting)
    | _ => none
  | .schedulerStopping v =>
    match s.place v with
    | .asked => some (s.goto v (if s.stopping then .quiet else .waiting))
    | _ => none
  | .readPending v =>
    match s.place v with
    | .quiet => some (s.goto v (if s.events.pending = 0 then .exited else .waiting))
    | _ => none
  | .wait v entries =>
    match s.place v with
    | .waiting => (s.inEvents (.wait v entries)).map fun s => s.goto v .awake
    | _ => none
  | .listExpiredCb v now addr =>
    match s.place v with
    | .awake =>
      let cbs := (s.timers.manager.listExpiredCb now addr).1
      (s.timers.step (.listExpiredCb now addr)).map fun timers =>
        { s with timers := timers }.goto v (if h : cbs = [] then .handling else .expired ⟨cbs, h⟩)
    | _ => none
  | .schedule v =>
    match s.place v with
    | .expired cbs =>
      some ({ s with tasks := s.tasks ++ jobsOf cbs }.goto v .handling)
    | _ => none
  | .handle v ok =>
    match s.place v with
    | .handling => (s.inEvents (.handle v ok)).map fun s =>
      if (s.events.pc v).isRest then s.goto v .run else s
    | _ => none
  | .timer v op =>
    if (s.place v).calls && isCall op then
      (s.timers.step op).map fun timers => { s with timers := timers }
    else none
  | .event a => if (s.place a.thread).calls && a.isCall then s.inEvents a else none
  | .post v job => if (s.place v).calls then some { s with tasks := s.tasks ++ [job] } else none

/-- One step. A program that has ended makes none. -/
def step (s : Pool Th Sched Fn Obj Fb) (a : Act Th Sched Fn Obj Fb) :
    Option (Pool Th Sched Fn Obj Fb) :=
  if s.events.stopped.isSome then none else s.stepRunning a

instance (s : Pool Th Sched Fn Obj Fb) : Decidable s.Asking :=
  inferInstanceAs (Decidable (∃ _, _ = true))

instance (s : Pool Th Sched Fn Obj Fb) : Decidable s.Deciding :=
  inferInstanceAs (Decidable (∃ _, _ = true))

/-- The condition on a step: it does not come between the reads of a worker. When a worker asks
`getNextTimer`, the first timer is not as far away as `~0ull` tells, and if there is none, nobody
stands between `listExpiredCb` and `schedule`. While a worker is asking, no timer is created. While
a worker is deciding, no waiter is handed over and nothing is scheduled. -/
def Undisturbed (s : Pool Th Sched Fn Obj Fb) : Act Th Sched Fn Obj Fb → Prop
  | .getNextTimer _ now =>
    (∀ front ∈ s.timers.manager.timers.head?,
      ¬((s.timers.manager.timer front).next = ~~~0 ∧ now = 0)) ∧
    (s.timers.manager.timers = [] → ∀ u, (s.place u).isExpired = false)
  | .timer _ op => s.Asking → op.creates = none
  | .event a => s.Deciding → ∀ events ∈ s.events.step a, s.handed events = []
  | .handle v ok => s.Deciding → ∀ events ∈ s.events.step (.handle v ok), s.handed events = []
  | .post _ _ => ¬s.Deciding
  | _ => True

/-! ### The step lemma -/

/-- What holds in every state of an undisturbed run. -/
structure Calm (s : Pool Th Sched Fn Obj Fb) : Prop where
  balanced : s.events.Balanced
  still : s.Still

section Step

variable {s s' : Pool Th Sched Fn Obj Fb}

omit [Fintype Th] in
/-- A section keeps the books, and hands over what it adds to the tasks. -/
theorem inEvents_eq_some {a : IOManager.Act Th Sched Fn Fb} (h : s.events.Balanced)
    (hs : s.inEvents a = some s') : ∃ events, s.events.step a = some events ∧ events.Balanced ∧
      s' = { s with events := events, tasks := s.tasks ++ s.handed events } := by
  obtain ⟨events, he, rfl⟩ := Option.map_eq_some_iff.mp hs
  exact ⟨events, he, h.of_effect (State.effect_of_step h.consistent he), rfl⟩

omit [DecidableEq Th] [Fintype Th] in
/-- A section after which no more is scheduled hands nothing over. -/
theorem handed_eq_nil {events : State Th Sched Fn Fb}
    (h : events.scheduled = s.events.scheduled) : s.handed events = [] := by
  simp [handed, h]

omit [DecidableEq Th] [DecidableEq Sched] in
theorem stopping_eq_true (h : s.stopping = true) :
    s.tasks = [] ∧ ∀ u, (s.place u).isTask = false := by
  simp only [stopping, Bool.and_eq_true, List.isEmpty_iff, decide_eq_true_eq] at h
  exact ⟨h.1.2, h.2⟩

/-- The first read: the timers. -/
theorem stepRunning_getNextTimer {v : Th} {now : UInt64}
    (hs : s.stepRunning (.getNextTimer v now) = some s') : s.place v = .top ∧
      ∃ timers, s.timers.step (.getNextTimer now) = some timers ∧
        s' = { s with timers := timers }.goto v
          (if (s.timers.manager.getNextTimer now).2 = ~~~0 then .asked else .waiting) := by
  simp only [stepRunning] at hs
  split at hs
  · rename_i htop
    obtain ⟨timers, ht, rfl⟩ := Option.map_eq_some_iff.mp hs
    exact ⟨htop, timers, ht, rfl⟩
  · exact absurd hs (Option.some_ne_none s').symm

/-- The second read: the scheduler. -/
theorem stepRunning_schedulerStopping {v : Th}
    (hs : s.stepRunning (.schedulerStopping v) = some s') :
    s.place v = .asked ∧ s' = s.goto v (if s.stopping then .quiet else .waiting) := by
  simp only [stepRunning] at hs
  split at hs
  · rename_i hasked
    exact ⟨hasked, (Option.some.inj hs).symm⟩
  · exact absurd hs (Option.some_ne_none s').symm

/-- The last read: the counter. -/
theorem stepRunning_readPending {v : Th} (hs : s.stepRunning (.readPending v) = some s') :
    s.place v = .quiet ∧ s' = s.goto v (if s.events.pending = 0 then .exited else .waiting) := by
  simp only [stepRunning] at hs
  split at hs
  · rename_i hquiet
    exact ⟨hquiet, (Option.some.inj hs).symm⟩
  · exact absurd hs (Option.some_ne_none s').symm

/-- An entry that `epoll_wait` has reported: the thread goes on to the next one, or leaves `idle`.
-/
theorem stepRunning_handle {v : Th} {ok : Bool} (hs : s.stepRunning (.handle v ok) = some s') :
    ∃ t, s.inEvents (.handle v ok) = some t ∧ (s' = t ∨ s' = t.goto v .run) := by
  simp only [stepRunning] at hs
  split at hs
  · obtain ⟨t, ht, rfl⟩ := Option.map_eq_some_iff.mp hs
    refine ⟨t, ht, ?_⟩
    split
    · exact .inr rfl
    · exact .inl rfl
  · exact absurd hs (Option.some_ne_none s').symm

/-- **The step lemma.** -/
theorem Calm.of_step (h : s.Calm) {a : Act Th Sched Fn Obj Fb} (hok : s.Undisturbed a)
    (hs : s.step a = some s') : s'.Calm := by
  obtain ⟨-, hs⟩ := Option.ite_none_left_eq_some.mp hs
  cases a with
  | start v =>
    simp only [stepRunning] at hs
    split at hs
    · obtain rfl := Option.some.inj hs
      exact ⟨h.balanced, h.still.goto rfl (fun _ => rfl) fun _ => rfl⟩
    · exact absurd hs (Option.some_ne_none s').symm
  | autoStop =>
    obtain rfl := Option.some.inj hs
    exact ⟨h.balanced, h.still.stay rfl (fun _ => id) fun _ => rfl⟩
  | stopFlag =>
    obtain rfl := Option.some.inj hs
    exact ⟨h.balanced, h.still.stay rfl (fun _ => id) fun _ => rfl⟩
  | take v i =>
    simp only [stepRunning] at hs
    split at hs
    · rename_i job hplace hjob
      obtain rfl := Option.some.inj hs
      -- while a worker is deciding there is nothing to take
      have hnone : ¬s.Deciding := fun hd => by
        rw [(h.still.tasks hd).1] at hjob
        exact absurd hjob (by simp)
      have hstay : Still { s with tasks := s.tasks.eraseIdx i } :=
        h.still.stay rfl (fun _ => id) fun hd => absurd hd hnone
      exact ⟨h.balanced, hstay.goto rfl (fun _ => rfl) fun hd => absurd hd hnone⟩
    · exact absurd hs (Option.some_ne_none s').symm
  | finish v again =>
    simp only [stepRunning] at hs
    split at hs
    · rename_i job hplace
      obtain ⟨-, hs⟩ := Option.ite_none_right_eq_some.mp hs
      obtain rfl := Option.some.inj hs
      refine ⟨h.balanced, Still.goto ?_ rfl (fun _ => rfl) fun _ => rfl⟩
      refine h.still.stay rfl (fun _ => id) fun hd => ?_
      have htask := (h.still.tasks hd).2 v
      rw [hplace] at htask
      exact absurd htask.symm Bool.false_ne_true
    · exact absurd hs (Option.some_ne_none s').symm
  | idle v =>
    simp only [stepRunning] at hs
    split at hs
    · obtain rfl := Option.some.inj hs
      exact ⟨h.balanced, h.still.goto rfl (fun _ => rfl) fun _ => rfl⟩
    · exact absurd hs (Option.some_ne_none s').symm
  | getNextTimer v now =>
    obtain ⟨-, timers, ht, rfl⟩ := stepRunning_getNextTimer hs
    have hnil : s.timers.manager.timers = [] → timers.manager.timers = [] :=
      timers_eq_nil_of_step ht rfl
    have hstay : Still { s with timers := timers } :=
      h.still.stay rfl (fun _ => hnil) fun _ => rfl
    refine ⟨h.balanced, ?_⟩
    split
    · -- the worker is told that there is no timer, and it is true
      rename_i htold
      obtain ⟨hfar, hexpired⟩ := hok
      have hempty : s.timers.manager.timers = [] :=
        (TimerManager.getNextTimer_snd_eq_max_iff.mp htold).resolve_right
          fun ⟨front, hfront, hnext⟩ => hfar front hfront hnext
      refine ⟨fun _ => ⟨hnil hempty, ?_⟩, fun hd => ?_⟩
      · exact forall_place_goto (P := fun q => q.held = []) rfl fun u =>
          Place.held_eq_nil_iff.mpr (hexpired hempty u)
      · obtain ⟨htasks, hrunning⟩ := hstay.tasks (deciding_of_goto rfl hd)
        exact ⟨htasks, forall_place_goto (P := fun q => q.isTask = false) rfl hrunning⟩
    · exact hstay.goto rfl (fun _ => rfl) fun _ => rfl
  | schedulerStopping v =>
    obtain ⟨hasked, rfl⟩ := stepRunning_schedulerStopping hs
    refine ⟨h.balanced, ?_⟩
    split
    · -- nothing has come in since the worker asked for the timers
      rename_i hstopping
      obtain ⟨hempty, hholding⟩ := h.still.timers ⟨v, by rw [hasked]; rfl⟩
      obtain ⟨htasks, hrunning⟩ := stopping_eq_true hstopping
      exact ⟨fun _ => ⟨hempty, forall_place_goto (P := fun q => q.held = []) rfl hholding⟩,
        fun _ => ⟨htasks, forall_place_goto (P := fun q => q.isTask = false) rfl hrunning⟩⟩
    · exact h.still.goto rfl (fun _ => rfl) fun _ => rfl
  | readPending v =>
    obtain ⟨-, rfl⟩ := stepRunning_readPending hs
    refine ⟨h.balanced, ?_⟩
    split <;> exact h.still.goto rfl (fun _ => rfl) fun _ => rfl
  | wait v entries =>
    simp only [stepRunning] at hs
    split at hs
    · obtain ⟨t, ht, rfl⟩ := Option.map_eq_some_iff.mp hs
      obtain ⟨events, he, hbalanced, rfl⟩ := inEvents_eq_some h.balanced ht
      have hhanded := handed_eq_nil (s := s) (State.scheduled_of_wait he)
      refine ⟨hbalanced, Still.goto ?_ rfl (fun _ => rfl) fun _ => rfl⟩
      exact h.still.stay rfl (fun _ => id) fun _ => by rw [hhanded, List.append_nil]
    · exact absurd hs (Option.some_ne_none s').symm
  | listExpiredCb v now addr =>
    simp only [stepRunning] at hs
    split at hs
    · obtain ⟨timers, ht, rfl⟩ := Option.map_eq_some_iff.mp hs
      have hstay : Still { s with timers := timers } :=
        h.still.stay rfl (fun _ => timers_eq_nil_of_step ht rfl) fun _ => rfl
      refine ⟨h.balanced, ?_⟩
      split
      · exact hstay.goto rfl (fun _ => rfl) fun _ => rfl
      · rename_i hcbs
        refine hstay.goto rfl (fun ha => ?_) fun _ => rfl
        have hempty : s.timers.manager.timers = [] := (h.still.timers ha).1
        exact absurd (by simp [TimerManager.listExpiredCb, hempty]) hcbs
    · exact absurd hs (Option.some_ne_none s').symm
  | schedule v =>
    simp only [stepRunning] at hs
    split at hs
    · rename_i cbs hplace
      obtain rfl := Option.some.inj hs
      refine ⟨h.balanced, Still.goto ?_ rfl (fun _ => rfl) fun _ => rfl⟩
      refine h.still.stay rfl (fun _ => id) fun hd => ?_
      have hheld := (h.still.timers hd.asking).2 v
      rw [hplace] at hheld
      exact absurd hheld cbs.2
    · exact absurd hs (Option.some_ne_none s').symm
  | handle v ok =>
    obtain ⟨t, ht, hs⟩ := stepRunning_handle hs
    obtain ⟨events, he, hbalanced, rfl⟩ := inEvents_eq_some h.balanced ht
    have hstay : Still { s with events := events, tasks := s.tasks ++ s.handed events } :=
      h.still.stay rfl (fun _ => id) fun hd => by rw [hok hd events he, List.append_nil]
    rcases hs with rfl | rfl
    · exact ⟨hbalanced, hstay⟩
    · exact ⟨hbalanced, hstay.goto rfl (fun _ => rfl) fun _ => rfl⟩
  | timer v op =>
    obtain ⟨-, hs⟩ := Option.ite_none_right_eq_some.mp hs
    obtain ⟨timers, ht, rfl⟩ := Option.map_eq_some_iff.mp hs
    exact ⟨h.balanced, h.still.stay rfl (fun ha => timers_eq_nil_of_step ht (hok ha)) fun _ => rfl⟩
  | event a =>
    obtain ⟨-, hs⟩ := Option.ite_none_right_eq_some.mp hs
    obtain ⟨events, he, hbalanced, rfl⟩ := inEvents_eq_some h.balanced hs
    exact ⟨hbalanced, h.still.stay rfl (fun _ => id) fun hd => by
      rw [hok hd events he, List.append_nil]⟩
  | post v job =>
    obtain ⟨-, hs⟩ := Option.ite_none_right_eq_some.mp hs
    obtain rfl := Option.some.inj hs
    exact ⟨h.balanced, h.still.stay rfl (fun _ => id) fun hd => absurd hd hok⟩

end Step

omit [DecidableEq Th] [DecidableEq Sched] [Fintype Th] in
theorem Calm.init (self : Sched) (object : ℕ → Timer (Callback Fn Obj)) (now : UInt64) :
    (Pool.init self object now : Pool Th Sched Fn Obj Fb).Calm :=
  ⟨.init, fun ⟨_, hu⟩ => absurd hu Bool.false_ne_true, fun ⟨_, hu⟩ => absurd hu Bool.false_ne_true⟩

instance (s : Pool Th Sched Fn Obj Fb) : (a : Act Th Sched Fn Obj Fb) → Decidable (s.Undisturbed a)
  | .getNextTimer _ now =>
    inferInstanceAs (Decidable ((∀ front ∈ s.timers.manager.timers.head?,
      ¬((s.timers.manager.timer front).next = ~~~0 ∧ now = 0)) ∧ (_ = [] → ∀ _, _ = false)))
  | .timer _ _ => inferInstanceAs (Decidable (_ → _ = none))
  | .event a => inferInstanceAs (Decidable (_ → ∀ events ∈ s.events.step a, s.handed events = []))
  | .handle v ok =>
    inferInstanceAs (Decidable (_ → ∀ events ∈ s.events.step (.handle v ok), s.handed events = []))
  | .post _ _ => inferInstanceAs (Decidable ¬_)
  | .start _ | .autoStop | .stopFlag | .take _ _ | .finish _ _ | .idle _ | .schedulerStopping _
  | .readPending _ | .wait _ _ | .listExpiredCb _ _ _ | .schedule _ => instDecidableTrue

/-- **When `stopping` returns true there is no work anywhere**, in every undisturbed run. -/
theorem stopping_atRest {self : Sched} {object : ℕ → Timer (Callback Fn Obj)} {now : UInt64}
    {s s' : Pool Th Sched Fn Obj Fb} {v : Th}
    (hr : Reachable step Undisturbed (Pool.init self object now) s)
    (hs : s.step (.readPending v) = some s') (hret : s'.place v = .exited) : s'.AtRest := by
  have h : s.Calm := hr.invariant (P := Calm) (.init self object now) fun _ _ _ h hok hs =>
    h.of_step hok hs
  obtain ⟨-, hs⟩ := Option.ite_none_left_eq_some.mp hs
  obtain ⟨hquiet, rfl⟩ := stepRunning_readPending hs
  rw [goto_place_self] at hret
  have hpending : s.events.pending = 0 := by
    by_contra hne
    rw [if_neg hne] at hret
    cases hret
  rw [if_pos hpending]
  have hd : s.Deciding := ⟨v, by rw [hquiet]; rfl⟩
  obtain ⟨htimers, hheld⟩ := h.still.timers hd.asking
  obtain ⟨htasks, hrunning⟩ := h.still.tasks hd
  exact ⟨htimers, h.balanced.not_registered hpending, htasks,
    forall_place_goto (P := fun q => q.isTask = false) rfl hrunning,
    forall_place_goto (P := fun q => q.held = []) rfl hheld⟩

/-! ### Without the condition -/

/-- The reads a worker in `stopping` has still to make. -/
def readsLeft (v : Th) : Place Fn Obj Fb → List (Act Th Sched Fn Obj Fb)
  | .asked => [.schedulerStopping v, .readPending v]
  | .quiet => [.readPending v]
  | _ => []

section Disturbed

variable {s s' : Pool Th Sched Fn Obj Fb}

omit [DecidableEq Sched] [Fintype Th] in
/-- If there is no work after a thread without work has gone on, there was none before. -/
theorem AtRest.of_goto {v : Th} {p : Place Fn Obj Fb} (h : (s.goto v p).AtRest)
    (htask : (s.place v).isTask = false) (hheld : (s.place v).held = []) : s.AtRest := by
  have hback : ∀ u, u ≠ v → (s.goto v p).place u = s.place u := fun u => goto_place_of_ne
  refine ⟨h.timers, h.events, h.tasks, fun u => ?_, fun u => ?_⟩
  · rcases eq_or_ne u v with rfl | huv
    · exact htask
    · exact hback u huv ▸ h.running u
  · rcases eq_or_ne u v with rfl | huv
    · exact hheld
    · exact hback u huv ▸ h.held u

/-- Asking changes nothing. -/
theorem AtRest.of_step {a : Act Th Sched Fn Obj Fb} (h : s'.AtRest) (hs : s.step a = some s')
    (ha : (∃ v, a = .schedulerStopping v) ∨ ∃ v, a = .readPending v) : s.AtRest := by
  obtain ⟨-, hs⟩ := Option.ite_none_left_eq_some.mp hs
  obtain ⟨v, rfl⟩ | ⟨v, rfl⟩ := ha
  · obtain ⟨hasked, rfl⟩ := stepRunning_schedulerStopping hs
    exact h.of_goto (by rw [hasked]; rfl) (by rw [hasked]; rfl)
  · obtain ⟨hquiet, rfl⟩ := stepRunning_readPending hs
    exact h.of_goto (by rw [hquiet]; rfl) (by rw [hquiet]; rfl)

theorem AtRest.of_readsLeft {t : Pool Th Sched Fn Obj Fb} {v : Th} (h : t.AtRest)
    (hreads : exec step anyAction s (readsLeft v (s.place v)) = some t) : s.AtRest := by
  cases hplace : s.place v with
  | asked =>
    rw [hplace, readsLeft, exec_cons_eq_some] at hreads
    obtain ⟨-, u, hu, hreads⟩ := hreads
    obtain ⟨-, t', ht', hreads⟩ := exec_cons_eq_some.mp hreads
    obtain rfl := Option.some.inj hreads
    exact (h.of_step ht' (.inr ⟨v, rfl⟩)).of_step hu (.inl ⟨v, rfl⟩)
  | quiet =>
    rw [hplace, readsLeft, exec_cons_eq_some] at hreads
    obtain ⟨-, t', ht', hreads⟩ := hreads
    obtain rfl := Option.some.inj hreads
    exact h.of_step ht' (.inr ⟨v, rfl⟩)
  | _ =>
    rw [hplace] at hreads
    obtain rfl := Option.some.inj hreads
    exact h

/-- **After a step that disturbs there is work**, and a worker that makes the reads it has left
next does not change it, whatever they tell it. -/
theorem not_atRest_of_disturbed {t : Pool Th Sched Fn Obj Fb} {a : Act Th Sched Fn Obj Fb} {v : Th}
    (ha : ¬s.Undisturbed a) (hs : s.step a = some s')
    (hreads : exec step anyAction s' (readsLeft v (s'.place v)) = some t) : ¬t.AtRest := by
  intro hrest
  have hrest := hrest.of_readsLeft hreads
  have htimers : s'.timers.manager.timers = [] := hrest.timers
  have htasks : s'.tasks = [] := hrest.tasks
  refine ha ?_
  obtain ⟨-, hs⟩ := Option.ite_none_left_eq_some.mp hs
  cases a with
  | getNextTimer w now =>
    obtain ⟨htop, timers, ht, rfl⟩ := stepRunning_getNextTimer hs
    obtain rfl := Option.some.inj ht
    have hempty : s.timers.manager.timers = [] := by
      have : (s.timers.manager.getNextTimer now).1.timers = [] := htimers
      rwa [TimerManager.getNextTimer_fst] at this
    refine ⟨fun front hfront => ?_, fun _ u => ?_⟩
    · rw [hempty] at hfront
      cases hfront
    · rcases eq_or_ne u w with rfl | huw
      · rw [htop]
        rfl
      · have hheld := hrest.held u
        rw [goto_place_of_ne huw] at hheld
        exact Place.held_eq_nil_iff.mp hheld
  | timer w op =>
    obtain ⟨-, hs⟩ := Option.ite_none_right_eq_some.mp hs
    obtain ⟨timers, ht, rfl⟩ := Option.map_eq_some_iff.mp hs
    intro _
    by_contra hop
    exact timers_ne_nil_of_add ht hop htimers
  | event e =>
    obtain ⟨-, hs⟩ := Option.ite_none_right_eq_some.mp hs
    obtain ⟨events, he, rfl⟩ := Option.map_eq_some_iff.mp hs
    intro _ events' he'
    obtain rfl := Option.some.inj (he.symm.trans he')
    exact (List.append_eq_nil_iff.mp htasks).2
  | handle w ok =>
    obtain ⟨t, ht, hs⟩ := stepRunning_handle hs
    obtain ⟨events, he, rfl⟩ := Option.map_eq_some_iff.mp ht
    intro _ events' he'
    obtain rfl := Option.some.inj (he.symm.trans he')
    have htasks' : s.tasks ++ s.handed events = [] := by
      rcases hs with rfl | rfl <;> exact htasks
    exact (List.append_eq_nil_iff.mp htasks').2
  | post w job =>
    obtain ⟨-, hs⟩ := Option.ite_none_right_eq_some.mp hs
    obtain rfl := Option.some.inj hs
    exact absurd (List.append_eq_nil_iff.mp htasks).2 (List.cons_ne_nil job [])
  | _ => exact trivial

end Disturbed

/-- A timer, an fd event and a task: worker 1 runs the task, sleeps until the descriptor is readable
and the timer is due, runs what the two hand over, and finds nothing to do after `stop` was called.
-/
def sampleStop : List (Act (Fin 3) Unit ℕ ℕ ℕ) :=
  [.start 1, .start 2, .timer 0 (.addTimer 16 5 (some 7) false 100),
    .event (.addEvent 0 3 .READ (some 8) (some ()) 5 true), .event (.add 0 true),
    .post 0 (.fiber 6), .take 1 0, .finish 1 none, .idle 1, .getNextTimer 1 102,
    .wait 1 [(3, EPOLLIN)], .listExpiredCb 1 105 48, .schedule 1, .handle 1 true, .handle 1 true,
    .take 1 0, .finish 1 none, .take 1 0, .autoStop, .stopFlag, .finish 1 none, .idle 1,
    .getNextTimer 1 106, .schedulerStopping 1]

def sampleQuiet : Pool (Fin 3) Unit ℕ ℕ ℕ :=
  (exec step Undisturbed (init () (fun _ => Timer.probe 0 0) 0) sampleStop).get (by decide)

theorem stopping_atRest_sampleQuiet :
    sampleQuiet.timers.manager.created = 1 ∧ sampleQuiet.events.made.length = 1 ∧
      ((sampleQuiet.step (.readPending 1)).get (by decide)).AtRest :=
  ⟨by decide, by decide, stopping_atRest (reachable_get (by decide : (exec step Undisturbed
    (init () (fun _ => Timer.probe 0 0) 0) sampleStop).isSome)) (Option.some_get _).symm rfl⟩

/-- Worker 2 has taken the callback of the only timer and is about to schedule it; worker 1 is about
to read the counter. -/
def lateRun : List (Act (Fin 3) Unit ℕ ℕ ℕ) :=
  [.start 1, .start 2, .timer 0 (.addTimer 16 0 (some 7) false 100), .autoStop, .stopFlag, .idle 2,
    .getNextTimer 2 100, .wait 2 [], .listExpiredCb 2 100 48, .idle 1, .getNextTimer 1 100,
    .schedulerStopping 1]

def lateQuiet : Pool (Fin 3) Unit ℕ ℕ ℕ :=
  (exec step anyAction (init () (fun _ => Timer.probe 0 0) 0) lateRun).get (by decide)

/-- **A worker stops while another one is about to schedule a callback.** -/
theorem stops_too_early :
    ¬∀ (object : ℕ → Timer (Callback ℕ ℕ)) (now : UInt64) (s s' : Pool (Fin 3) Unit ℕ ℕ ℕ)
      (v : Fin 3), Reachable step anyAction (init () object now) s →
        s.step (.readPending v) = some s' → s'.place v = .exited → s'.AtRest := by
  intro h
  have hrest : ((lateQuiet.step (.readPending 1)).get (by decide)).AtRest :=
    h _ _ _ _ 1 (reachable_get (by decide : (exec step anyAction
      (init () (fun _ => Timer.probe 0 0) 0) lateRun).isSome)) (Option.some_get _).symm rfl
  exact absurd (hrest.held 2) (by decide)

end Pool

end IOManager

end Wille
