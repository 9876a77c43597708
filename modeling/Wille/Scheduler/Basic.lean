import Mathlib.Data.Fintype.Basic
import Mathlib.Data.Int.Notation
import Mathlib.Logic.Function.Basic

/-!
# The workers of a scheduler

`scheduler.h`, `scheduler.cpp` and what they use of `fiber.cpp`: any number of workers in
`Scheduler::run`, and any number of other calls of `schedule`, `tickle` and `stop` around them. A
section under `m_mutex`, a change of an atomic counter, a read or a write of `m_state` and a system
call are one step each. Storing `m_state` and saving the context are two steps, and so are taking a
task out of the queue and setting its fiber to `EXEC`.

## What the model keeps

* A fiber is a number. What its body does is the choice of the actions: it yields, returns or
  throws; a `schedule` it makes, or has `triggerEvent` make for it, is a call of its own, and so is
  the `tickle` at the end of such a call.
* A byte written to the tickle pipe wakes one worker in `epoll_wait`, or else the next one to call
  it. `unreported` says that there is such a byte.
* `IOManager::stopping` asks for timers and pending events as well; the answers are choices.
* A failed `WILLE_ASSERT` ends the run.

## Main definitions

* `Fiber.State`, `Task`, `Pc`, `Sys`, `Act`
* `Sys.scan`, `Sys.scheduleNoLock`, `Sys.stopping` — the sections under `m_mutex`
* `Sys.run`, `Sys.step` — the steps
-/

namespace Wille

/-- `Fiber::State` -/
inductive Fiber.State where
  | INIT
  | HOLD
  | EXEC
  | TERM
  | READY
  | EXCEPT
  deriving DecidableEq

/-- `Fiber::stateTermOrExcept` -/
def Fiber.State.termOrExcept (st : Fiber.State) : Bool := st = .TERM || st = .EXCEPT

/-- The assertion in `Fiber::reset`. -/
def Fiber.State.resettable (st : Fiber.State) : Bool := st = .TERM || st = .EXCEPT || st = .INIT

namespace Scheduler

/-- Whose `tickle` and `idle` the workers call: those of `Scheduler`, of `IOManager`, or of another
subclass that overrides `idle`. -/
inductive Kind where
  | scheduler
  | ioManager
  | custom
  deriving DecidableEq

/-- `Scheduler::Task` -/
structure Task (Cb : Type*) where
  /-- `fiber` -/
  fiber : Option ℕ
  /-- `cb` -/
  cb : Option Cb
  /-- `thread` -/
  thread : ℤ

/-- Where a worker stands in `run`. Here `own` says that the fiber is its `cb_fiber`. -/
inductive Pc (Cb : Type*) where
  /-- About to search the queue. -/
  | scan
  /-- It has taken a task, and is about to increment `m_activeThreadCount`. -/
  | picked (tk : Task Cb)
  /-- About to call `tickle`. -/
  | counted (tk : Task Cb)
  /-- In `tickle`, about to write. -/
  | tickling (tk : Task Cb)
  /-- About to look at the task. -/
  | dispatch (tk : Task Cb)
  /-- About to reset or to create `cb_fiber`. -/
  | prepare (cb : Cb)
  /-- About to call `swapIn`. -/
  | enter (f : ℕ) (own : Bool)
  /-- The fiber is running. -/
  | body (f : ℕ) (own : Bool)
  /-- The fiber has stored its state, and is about to save its context. -/
  | leave (f : ℕ) (own : Bool)
  /-- `swapIn` has returned; about to decrement `m_activeThreadCount`. -/
  | back (f : ℕ) (own : Bool)
  /-- About to compare the state with `READY`. -/
  | done (f : ℕ) (own : Bool)
  /-- It was not `READY`; about to call `stateTermOrExcept`. -/
  | notReady (f : ℕ) (own : Bool)
  /-- About to call `schedule` with a fiber that is `READY`. -/
  | requeue (f : ℕ) (own : Bool)
  /-- In that `schedule`, about to call `tickle`. -/
  | retickle
  /-- In that `tickle`, about to write. -/
  | rewrite
  /-- About to set the state to `HOLD`. -/
  | hold (f : ℕ) (own : Bool)
  /-- About to reset `cb_fiber` to no callback. -/
  | finish (f : ℕ)
  /-- There was nothing to run; about to decrement `m_activeThreadCount`. -/
  | drop
  /-- It has found no task; about to look at its idle fiber. -/
  | noTask
  /-- `m_idleThreadCount` is incremented; about to enter the idle fiber. -/
  | idleEnter
  /-- In `idle`, about to call `stopping`. -/
  | idleBody
  /-- In `IOManager::stopping`; `getNextTimer` has said whether there is no timer. -/
  | asked (noTimer : Bool)
  /-- In `IOManager::stopping`; there is no timer and `Scheduler::stopping` holds. -/
  | quiet
  /-- About to call `epoll_wait`. -/
  | waiting
  /-- Blocked in `epoll_wait`. -/
  | blocked
  /-- `epoll_wait` has returned, perhaps with an entry for the tickle pipe. -/
  | awake (pipe : Bool)
  /-- The idle fiber is left; about to decrement `m_idleThreadCount`. -/
  | idleLeave
  /-- About to set the state of the idle fiber. -/
  | idleDone
  /-- `run` has returned. -/
  | exited

/-- Blocked in `epoll_wait`. -/
def Pc.isBlocked {Cb : Type*} : Pc Cb → Bool
  | .blocked => true
  | _ => false

/-- How an operation can end the program. -/
inductive Fault where
  /-- `WILLE_ASSERT(m_state != EXEC)` in `swapIn` -/
  | swapIn
  /-- `WILLE_ASSERT(cur->m_state == EXEC)` in `YieldToReady` and `YieldToHold` -/
  | yield
  /-- `WILLE_ASSERT(m_state == TERM || m_state == EXCEPT || m_state == INIT)` in `reset` -/
  | reset
  /-- `WILLE_ASSERT(it->fiber || it->cb)` in `run` -/
  | emptyTask
  deriving DecidableEq

/-- A scheduler with its workers `W`. -/
structure Sys (W Cb : Type*) where
  /-- `m_tasks` -/
  tasks : List (Task Cb)
  /-- `m_activeThreadCount` -/
  active : ℤ
  /-- `m_idleThreadCount` -/
  idle : ℤ
  /-- `m_state` of each fiber. -/
  state : ℕ → Fiber.State
  /-- How many fibers there are. -/
  created : ℕ
  /-- `m_autoStop` -/
  autoStop : Bool
  /-- `m_stopping` -/
  isStopping : Bool
  /-- Where each worker stands. -/
  pc : W → Pc Cb
  /-- `cb_fiber` of each worker. -/
  cbFiber : W → Option ℕ
  /-- The state of the `idle_fiber` of each worker. -/
  idleFiber : W → Fiber.State
  /-- There is a byte in the tickle pipe that no `epoll_wait` has reported. -/
  unreported : Bool
  /-- How many other calls are about to test `hasIdleThreads`. -/
  calling : ℕ
  /-- How many other calls are about to write. -/
  writing : ℕ
  /-- How the program has ended. -/
  fault : Option Fault

/-- The steps. -/
inductive Act (W Cb : Type*) where
  /-- A fiber is created. -/
  | newFiber
  /-- A call of `schedule`: the section under `m_mutex`. -/
  | schedule (t : Task Cb)
  /-- A call of `schedule` with a range: the section under `m_mutex`. -/
  | scheduleRange (ts : List (Task Cb))
  /-- A call of `tickle` begins, in `stop` or `onTimerInsertedAtFront`. -/
  | tickle
  /-- Another call tests `hasIdleThreads`. -/
  | callTickle
  /-- Another call writes to the pipe, which wakes this worker. -/
  | callWrite (reader : Option W)
  /-- `stop` sets `m_autoStop`. -/
  | setAutoStop
  /-- `stop` sets `m_stopping`. -/
  | setStopping
  /-- The next step of a worker, where it has no choice. -/
  | run (w : W)
  /-- The body of a fiber ends its turn and stores this state. -/
  | leave (w : W) (st : Fiber.State)
  /-- A worker writes to the pipe, which wakes this worker. -/
  | write (w : W) (reader : Option W)
  /-- `getNextTimer` in `IOManager::stopping`. -/
  | askTimer (w : W) (noTimer : Bool)
  /-- `m_pendingEventCount == 0` in `IOManager::stopping`. -/
  | askPending (w : W) (zero : Bool)
  /-- `idle` of another subclass ends its turn with this state. -/
  | leaveIdle (w : W) (st : Fiber.State)
  /-- `epoll_wait` is called. -/
  | epoll_wait (w : W)
  /-- `epoll_wait` returns for another reason than the pipe. -/
  | epollReturn (w : W)
  /-- `IOManager::idle` has handled what `epoll_wait` returned, with this left in the pipe. -/
  | handled (w : W) (left : Bool)

namespace Sys

variable {W Cb : Type*}

section Pieces

variable (k : Kind) (tid : W → ℤ) (s : Sys W Cb)

/-- Before anything has happened. -/
def init : Sys W Cb :=
  { tasks := [], active := 0, idle := 0, state := fun _ => .INIT, created := 0, autoStop := false,
    isStopping := false, pc := fun _ => .scan, cbFiber := fun _ => none,
    idleFiber := fun _ => .INIT, unreported := false, calling := 0, writing := 0, fault := none }

/-! ### The sections under the mutex -/

/-- The search of `run` on worker `w`: the task it takes and the queue without it. -/
def scan (w : W) : List (Task Cb) → Except Fault (Option (Task Cb × List (Task Cb)))
  | [] => .ok none
  | t :: rest =>
    let skip := (scan w rest).map fun r => r.map fun x => (x.1, t :: x.2)
    if t.thread ≠ -1 ∧ t.thread ≠ tid w then skip
    else if t.fiber.isNone && t.cb.isNone then .error .emptyTask
    else if t.fiber.map s.state = some .EXEC then skip
    else .ok (some (t, rest))

/-- `scheduleNoLock`: whether to call `tickle`, and the queue. -/
def scheduleNoLock (tasks : List (Task Cb)) (t : Task Cb) : Bool × List (Task Cb) :=
  (tasks.isEmpty, if t.fiber.isSome || t.cb.isSome then tasks ++ [t] else tasks)

/-- The loop of `schedule` with a range. -/
def scheduleRange (need_tickle : Bool) (tasks : List (Task Cb)) :
    List (Task Cb) → Bool × List (Task Cb)
  | [] => (need_tickle, tasks)
  | t :: ts =>
    let r := scheduleNoLock tasks { t with thread := -1 }
    scheduleRange (r.1 || need_tickle) r.2 ts

/-- `Scheduler::stopping` -/
def stopping : Bool := s.autoStop && s.isStopping && s.tasks.isEmpty && s.active = 0

/-! ### Pieces of the steps -/

/-- `tickle` of this kind goes on to write. -/
def tickles : Bool := k = .ioManager && 0 < s.idle

/-- The state of a fiber is set. -/
def setState (f : ℕ) (st : Fiber.State) : Sys W Cb :=
  { s with state := Function.update s.state f st }

/-- The program ends. -/
def fail (f : Fault) : Sys W Cb := { s with fault := some f }

/-- The queue after a call of `schedule`, and its call of `tickle`. -/
def called (r : Bool × List (Task Cb)) : Sys W Cb :=
  { s with tasks := r.2, calling := if r.1 then s.calling + 1 else s.calling }

@[simp] theorem setState_state_self (f : ℕ) (st : Fiber.State) : (s.setState f st).state f = st :=
  Function.update_self ..

theorem setState_state_of_ne {g f : ℕ} (h : g ≠ f) (st : Fiber.State) :
    (s.setState f st).state g = s.state g :=
  Function.update_of_ne h ..

/-- `new Fiber` -/
def newFiber : Sys W Cb := { s.setState s.created .INIT with created := s.created + 1 }

variable [DecidableEq W]

/-- A worker goes on. -/
def goto (w : W) (p : Pc Cb) : Sys W Cb := { s with pc := Function.update s.pc w p }

/-- `cb_fiber.reset()`, if the fiber was this one. -/
def release (w : W) (own : Bool) : Sys W Cb :=
  { s with cbFiber := Function.update s.cbFiber w (if own then none else s.cbFiber w) }

@[simp] theorem goto_pc_self (w : W) (p : Pc Cb) : (s.goto w p).pc w = p :=
  Function.update_self ..

theorem goto_pc_of_ne {u w : W} (h : u ≠ w) (p : Pc Cb) : (s.goto w p).pc u = s.pc u :=
  Function.update_of_ne h ..

@[simp] theorem release_cbFiber_self (w : W) (own : Bool) :
    (s.release w own).cbFiber w = if own then none else s.cbFiber w :=
  Function.update_self ..

theorem release_cbFiber_of_ne {u w : W} (h : u ≠ w) (own : Bool) :
    (s.release w own).cbFiber u = s.cbFiber u :=
  Function.update_of_ne h ..

/-- A byte is written to the pipe, which wakes this worker. -/
def wake [Fintype W] (reader : Option W) : Option (Sys W Cb) :=
  match reader with
  | some w =>
    match s.pc w with
    | .blocked => some (s.goto w (.awake true))
    | _ => none
  | none =>
    if ∀ w, !(s.pc w).isBlocked then some { s with unreported := true } else none

/-! ### The steps -/

/-- The callback of a task, or nothing. -/
def dispatchCb (w : W) (cb : Option Cb) : Sys W Cb :=
  match cb with
  | some cb => s.goto w (.prepare cb)
  | none => s.goto w .drop

/-- The next step of `Scheduler::run` on worker `w`, where it has no choice. -/
def run (w : W) : Option (Sys W Cb) :=
  match s.pc w with
  | .scan =>
    match s.scan tid w s.tasks with
    | .error f => some (s.fail f)
    | .ok none => some (s.goto w .noTask)
    | .ok (some (tk, tasks)) => some ({ s with tasks := tasks }.goto w (.picked tk))
  | .picked tk => some ({ s with active := s.active + 1 }.goto w (.counted tk))
  | .counted tk =>
    if s.tickles k then some (s.goto w (.tickling tk)) else some (s.goto w (.dispatch tk))
  | .dispatch tk =>
    match tk.fiber with
    | some f =>
      if !(s.state f).termOrExcept then some (s.goto w (.enter f false))
      else some (s.dispatchCb w tk.cb)
    | none => some (s.dispatchCb w tk.cb)
  | .prepare _ =>
    match s.cbFiber w with
    | some f =>
      if (s.state f).resettable then some ((s.setState f .INIT).goto w (.enter f true))
      else some (s.fail .reset)
    | none =>
      some ({ s.newFiber with
        cbFiber := Function.update s.cbFiber w (some s.created) }.goto w (.enter s.created true))
  | .enter f own =>
    if s.state f = .EXEC then some (s.fail .swapIn)
    else some ((s.setState f .EXEC).goto w (.body f own))
  | .leave f own => some (s.goto w (.back f own))
  | .back f own => some ({ s with active := s.active - 1 }.goto w (.done f own))
  | .done f own =>
    if s.state f = .READY then some (s.goto w (.requeue f own))
    else some (s.goto w (.notReady f own))
  | .notReady f own =>
    if (s.state f).termOrExcept then some (s.goto w (if own then .finish f else .scan))
    else some (s.goto w (.hold f own))
  | .requeue f own =>
    let r := scheduleNoLock s.tasks ⟨some f, none, -1⟩
    some ((({ s with tasks := r.2 }).release w own).goto w (if r.1 then .retickle else .scan))
  | .retickle => if s.tickles k then some (s.goto w .rewrite) else some (s.goto w .scan)
  | .hold f own => some (((s.setState f .HOLD).release w own).goto w .scan)
  | .finish f =>
    if (s.state f).resettable then some ((s.setState f .INIT).goto w .scan)
    else some (s.fail .reset)
  | .drop => some ({ s with active := s.active - 1 }.goto w .scan)
  | .noTask =>
    if s.idleFiber w = .TERM then some (s.goto w .exited)
    else some ({ s with idle := s.idle + 1 }.goto w .idleEnter)
  | .idleEnter =>
    if s.idleFiber w = .EXEC then some (s.fail .swapIn)
    else some ({ s with idleFiber := Function.update s.idleFiber w .EXEC }.goto w .idleBody)
  | .idleBody =>
    -- `Scheduler::idle`
    if k = .scheduler then
      let st := if s.stopping then .TERM else .HOLD
      some ({ s with idleFiber := Function.update s.idleFiber w st }.goto w .idleLeave)
    else none
  | .asked noTimer => some (s.goto w (if noTimer && s.stopping then .quiet else .waiting))
  | .idleLeave => some ({ s with idle := s.idle - 1 }.goto w .idleDone)
  | .idleDone =>
    let st := if (s.idleFiber w).termOrExcept then s.idleFiber w else .HOLD
    some ({ s with idleFiber := Function.update s.idleFiber w st }.goto w .scan)
  | .tickling _ | .body _ _ | .rewrite | .quiet | .waiting | .blocked | .awake _ | .exited => none

/-- What the body of a fiber can store at the end of its turn. -/
def leave (w : W) (st : Fiber.State) : Option (Sys W Cb) :=
  match s.pc w, st with
  | .body f own, .HOLD | .body f own, .READY =>
    if s.state f = .EXEC then some ((s.setState f st).goto w (.leave f own))
    else some (s.fail .yield)
  | .body f own, .TERM | .body f own, .EXCEPT => some ((s.setState f st).goto w (.leave f own))
  | _, _ => none

/-- What `idle` of another subclass can do at the end of its turn. -/
def leaveIdle (w : W) (st : Fiber.State) : Option (Sys W Cb) :=
  match s.pc w, k, st with
  | .idleBody, .custom, .HOLD | .idleBody, .custom, .READY | .idleBody, .custom, .TERM
  | .idleBody, .custom, .EXCEPT =>
    some ({ s with idleFiber := Function.update s.idleFiber w st }.goto w .idleLeave)
  | _, _, _ => none

/-- One step, in a program that is still running. -/
def stepRunning [Fintype W] : Act W Cb → Option (Sys W Cb)
  | .newFiber => some s.newFiber
  | .schedule t =>
    if ∀ f ∈ t.fiber, f < s.created then some (s.called (scheduleNoLock s.tasks t)) else none
  | .scheduleRange ts =>
    if ∀ t ∈ ts, ∀ f ∈ t.fiber, f < s.created then
      some (s.called (scheduleRange false s.tasks ts))
    else none
  | .tickle => some { s with calling := s.calling + 1 }
  | .callTickle =>
    if s.calling = 0 then none
    else if s.tickles k then some { s with calling := s.calling - 1, writing := s.writing + 1 }
    else some { s with calling := s.calling - 1 }
  | .callWrite reader =>
    if s.writing = 0 then none else wake { s with writing := s.writing - 1 } reader
  | .setAutoStop => some { s with autoStop := true }
  | .setStopping => some { s with isStopping := true }
  | .run w => s.run k tid w
  | .leave w st => s.leave w st
  | .write w reader =>
    match s.pc w with
    | .tickling tk => (s.wake reader).map fun s => s.goto w (.dispatch tk)
    | .rewrite => (s.wake reader).map fun s => s.goto w .scan
    | _ => none
  | .askTimer w noTimer =>
    match s.pc w, k with
    | .idleBody, .ioManager => some (s.goto w (.asked noTimer))
    | _, _ => none
  | .askPending w zero =>
    match s.pc w with
    | .quiet =>
      if zero then
        some ({ s with idleFiber := Function.update s.idleFiber w .TERM }.goto w .idleLeave)
      else some (s.goto w .waiting)
    | _ => none
  | .leaveIdle w st => s.leaveIdle k w st
  | .epoll_wait w =>
    match s.pc w with
    | .waiting =>
      if s.unreported then some ({ s with unreported := false }.goto w (.awake true))
      else some (s.goto w .blocked)
    | _ => none
  | .epollReturn w =>
    match s.pc w with
    | .blocked => some (s.goto w (.awake false))
    | _ => none
  | .handled w left =>
    match s.pc w with
    | .awake pipe =>
      some ({ s with unreported := s.unreported && (!pipe || left) }.goto w .idleLeave)
    | _ => none

end Pieces

/-- One step. A program that has ended makes none. -/
def step [DecidableEq W] [Fintype W] (k : Kind) (tid : W → ℤ) (s : Sys W Cb) (a : Act W Cb) :
    Option (Sys W Cb) :=
  if s.fault.isSome then none else s.stepRunning k tid a

end Sys

end Scheduler

end Wille
