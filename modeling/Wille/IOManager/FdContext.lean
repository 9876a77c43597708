import Mathlib.Algebra.Ring.Nat
import Mathlib.Data.Int.Notation
import Mathlib.Data.List.Basic

/-!
# File descriptor contexts

`iomanager.cpp` up to the threads: an `FdContext` has one `EventContext` for each direction and a
bit mask of the directions that are registered. Every section under `FdContext::mutex` is a
function here, on what such a section can touch: the context it has locked, the global counter of
pending events, what is handed to schedulers, and the calls of `epoll_ctl`.

## What the model keeps

* A failed `WILLE_ASSERT`, a call through a null pointer and an index out of range are a `Fault`.
* `m_pendingEventCount` is an integer, so that going below zero would be visible.
* `epoll_ctl` succeeds or fails as the caller of the section says, and each call is recorded.
* Handing a callback or a fiber to `Scheduler::schedule` by pointer swaps it into the task, so the
  context is left without it. An empty one is handed over too, and nothing is queued.
* Callbacks, fibers and schedulers are type parameters: no section looks into them.

## Main definitions

* `Event`, `EventContext`, `FdContext`, `FdContext.getContext`, `resetContext`
* `Locked.triggerEvent`, `addEvent`, `delEvent`, `cancelEvent`, `cancelAll`, `idle`
* `contextResize` — the table of contexts
-/

namespace Wille

namespace IOManager

/-- `IOManager::Event`, the two directions. -/
inductive Event where
  /-- `READ = 0x1` -/
  | READ
  /-- `WRITE = 0x4` -/
  | WRITE
  deriving DecidableEq

/-- The value of an `Event` in a mask. -/
def Event.bit : Event → BitVec 32
  | .READ => 0x1
  | .WRITE => 0x4

/-- The flags of `epoll_event::events` that the code names. -/
def EPOLLIN : BitVec 32 := 0x001
def EPOLLOUT : BitVec 32 := 0x004
def EPOLLERR : BitVec 32 := 0x008
def EPOLLHUP : BitVec 32 := 0x010
def EPOLLET : BitVec 32 := 0x80000000

/-- The conversion from `size_t` to `int`. -/
def toInt (n : ℕ) : ℤ := (n : ℤ).bmod (2 ^ 32)

/-- How an operation can end the program. -/
inductive Fault where
  /-- `WILLE_ASSERT(events & event)` in `triggerEvent` -/
  | notRegistered
  /-- `WILLE_ASSERT(!(fd_ctx->events & event))` in `addEvent` -/
  | registered
  /-- `WILLE_ASSERT(!event_ctx.scheduler && !event_ctx.fiber && !event_ctx.cb)` in `addEvent` -/
  | contextInUse
  /-- `WILLE_ASSERT2(event_ctx.fiber->getState() == Fiber::EXEC, ..)` in `addEvent` -/
  | fiberState
  /-- `WILLE_ASSERT(fd_ctx->events == 0)` in `cancelAll` -/
  | eventsLeft
  /-- A call through a null `Scheduler*`. -/
  | nullScheduler
  /-- `m_fdContexts[fd]` outside the vector. -/
  | outOfRange
  /-- A call through a null `FdContext*`. -/
  | nullContext
  deriving DecidableEq

/-- What is handed to `Scheduler::schedule`: a `Task` with pin `-1`. -/
inductive Task (Fn Fb : Type*) where
  /-- A callback. -/
  | cb (cb : Fn)
  /-- A fiber. -/
  | fiber (fiber : Fb)

/-- `FdContext::EventContext` -/
structure EventContext (Sched Fn Fb : Type*) where
  /-- `scheduler` -/
  scheduler : Option Sched := none
  /-- `fiber` -/
  fiber : Option Fb := none
  /-- `cb` -/
  cb : Option Fn := none

/-- `IOManager::FdContext` -/
structure FdContext (Sched Fn Fb : Type*) where
  /-- `read` -/
  read : EventContext Sched Fn Fb := {}
  /-- `write` -/
  write : EventContext Sched Fn Fb := {}
  /-- `fd` -/
  fd : ℤ := 0
  /-- `events` -/
  events : BitVec 32 := 0

/-- The operation argument of `epoll_ctl`. -/
inductive EpollOp where
  | ADD
  | MOD
  | DEL
  deriving DecidableEq

/-- One call of `epoll_ctl`: its operation, file descriptor and `event.events`, and whether it
succeeded. -/
structure EpollCtl where
  op : EpollOp
  fd : ℤ
  events : BitVec 32
  ok : Bool

namespace FdContext

variable {Sched Fn Fb : Type*}

/-- `FdContext::getContext` -/
def getContext (c : FdContext Sched Fn Fb) : Event → EventContext Sched Fn Fb
  | .READ => c.read
  | .WRITE => c.write

/-- Write one of the two contexts back. -/
def setContext (c : FdContext Sched Fn Fb) (e : Event) (ctx : EventContext Sched Fn Fb) :
    FdContext Sched Fn Fb :=
  match e with
  | .READ => { c with read := ctx }
  | .WRITE => { c with write := ctx }

/-- `FdContext::resetContext` -/
def resetContext (_ctx : EventContext Sched Fn Fb) : EventContext Sched Fn Fb :=
  { scheduler := none, fiber := none, cb := none }

end FdContext

/-- What a section under `FdContext::mutex` can touch. -/
structure Locked (Sched Fn Fb : Type*) where
  /-- The context that is locked. -/
  ctx : FdContext Sched Fn Fb
  /-- `m_pendingEventCount` -/
  pending : ℤ
  /-- The tasks queued by `schedule`, with the scheduler they were handed to, latest first. -/
  scheduled : List (Sched × Task Fn Fb)
  /-- The calls of `epoll_ctl`, latest first. -/
  ctl : List EpollCtl

namespace Locked

variable {Sched Fn Fb : Type*} (s : Locked Sched Fn Fb)

/-- `Scheduler::schedule(&fiberOrCb)`: a task is queued unless it would be empty. -/
def schedule (scheduler : Sched) (task : Option (Task Fn Fb)) : Locked Sched Fn Fb :=
  { s with scheduled := (task.map fun t => (scheduler, t)).toList ++ s.scheduled }

/-- A call of `epoll_ctl`. -/
def epoll_ctl (op : EpollOp) (fd : ℤ) (events : BitVec 32) (ok : Bool) : Locked Sched Fn Fb :=
  { s with ctl := ⟨op, fd, events, ok⟩ :: s.ctl }

/-- `FdContext::triggerEvent` -/
def triggerEvent (event : Event) : Except Fault (Locked Sched Fn Fb) :=
  if s.ctx.events &&& event.bit = 0 then .error .notRegistered
  else
    let events := s.ctx.events &&& ~~~event.bit
    let ctx := s.ctx.getContext event
    match ctx.scheduler with
    | none => .error .nullScheduler
    | some scheduler =>
      let (task, ctx) := match ctx.cb with
        | some cb => (some (Task.cb cb), { ctx with cb := none })
        | none => (ctx.fiber.map Task.fiber, { ctx with fiber := none })
      .ok { s.schedule scheduler task with
        ctx := { s.ctx with events := events }.setContext event { ctx with scheduler := none } }

/-- `triggerEvent(event); --m_pendingEventCount;` -/
def triggerPending (event : Event) : Except Fault (Locked Sched Fn Fb) :=
  (s.triggerEvent event).map fun s => { s with pending := s.pending - 1 }

/-- `IOManager::addEvent` from the lock of the context on, called on a thread with
`Scheduler::GetThis()` and `Fiber::GetThis()` as given; `exec` says that this fiber is in `EXEC`. -/
def addEvent (fd : ℤ) (event : Event) (cb : Option Fn) (scheduler : Option Sched) (fiber : Fb)
    (exec ok : Bool) : Except Fault (Bool × Locked Sched Fn Fb) :=
  if s.ctx.events &&& event.bit ≠ 0 then .error .registered
  else
    let op := if s.ctx.events ≠ 0 then EpollOp.MOD else .ADD
    let s := s.epoll_ctl op fd (EPOLLET ||| s.ctx.events ||| event.bit) ok
    if !ok then .ok (false, s)
    else
      let event_ctx := s.ctx.getContext event
      if event_ctx.scheduler.isSome || event_ctx.fiber.isSome || event_ctx.cb.isSome then
        .error .contextInUse
      else
        let event_ctx := { event_ctx with scheduler := scheduler }
        let done := fun event_ctx =>
          (true, { s with
            pending := s.pending + 1
            ctx := { s.ctx with events := s.ctx.events ||| event.bit }.setContext event event_ctx })
        match cb with
        | some cb => .ok (done { event_ctx with cb := some cb })
        | none =>
          if exec then .ok (done { event_ctx with fiber := some fiber }) else .error .fiberState

/-- `IOManager::delEvent` from the lock of the context on. A failing `epoll_ctl` is logged and
otherwise ignored. -/
def delEvent (fd : ℤ) (event : Event) (ok : Bool) : Bool × Locked Sched Fn Fb :=
  if s.ctx.events &&& event.bit = 0 then (false, s)
  else
    let new_events := s.ctx.events &&& ~~~event.bit
    let op := if new_events ≠ 0 then EpollOp.MOD else .DEL
    let s := s.epoll_ctl op fd (EPOLLET ||| new_events) ok
    (true, { s with
      pending := s.pending - 1
      ctx := { s.ctx with events := new_events }.setContext event
        (FdContext.resetContext (s.ctx.getContext event)) })

/-- `IOManager::cancelEvent` from the lock of the context on. It tests whether anything is
registered, not whether `event` is. -/
def cancelEvent (fd : ℤ) (event : Event) (ok : Bool) :
    Except Fault (Bool × Locked Sched Fn Fb) :=
  if s.ctx.events = 0 then .ok (false, s)
  else
    let new_events := s.ctx.events &&& ~~~event.bit
    let op := if new_events ≠ 0 then EpollOp.MOD else .DEL
    let s := s.epoll_ctl op fd (EPOLLET ||| new_events) ok
    if !ok then .ok (false, s) else (s.triggerPending event).map fun s => (true, s)

/-- `if(events & event) { triggerEvent(event); --m_pendingEventCount; }` -/
def triggerIf (events : BitVec 32) (event : Event) : Except Fault (Locked Sched Fn Fb) :=
  if events &&& event.bit ≠ 0 then s.triggerPending event else .ok s

/-- `IOManager::cancelAll` from the lock of the context on. -/
def cancelAll (fd : ℤ) (ok : Bool) : Except Fault (Bool × Locked Sched Fn Fb) :=
  if s.ctx.events = 0 then .ok (false, s)
  else
    let s := s.epoll_ctl .DEL fd 0 ok
    if !ok then .ok (false, s)
    else
      (s.triggerIf s.ctx.events .READ).bind fun s =>
      (s.triggerIf s.ctx.events .WRITE).bind fun s =>
      if s.ctx.events = 0 then .ok (true, s) else .error .eventsLeft

/-- `real_events` of one entry that `epoll_wait` reported. -/
def real_events (events reported : BitVec 32) : BitVec 32 :=
  let reported :=
    if reported &&& (EPOLLERR ||| EPOLLHUP) ≠ 0 then
      reported ||| ((EPOLLIN ||| EPOLLOUT) &&& events)
    else reported
  (if reported &&& EPOLLIN ≠ 0 then Event.READ.bit else 0) |||
    (if reported &&& EPOLLOUT ≠ 0 then Event.WRITE.bit else 0)

/-- The handling of one entry in `IOManager::idle` from the lock of the context on. -/
def idle (reported : BitVec 32) (ok : Bool) : Except Fault (Locked Sched Fn Fb) :=
  let real := real_events s.ctx.events reported
  if s.ctx.events &&& real = 0 then .ok s
  else
    let left_events := s.ctx.events &&& ~~~real
    let op := if left_events ≠ 0 then EpollOp.MOD else .DEL
    let s := s.epoll_ctl op s.ctx.fd (EPOLLET ||| left_events) ok
    if !ok then .ok s
    else (s.triggerIf real .READ).bind fun s => s.triggerIf real .WRITE

end Locked

/-! ### The table of contexts -/

section Table

variable {Sched Fn Fb : Type*}

/-- The loop of `contextResize` from index `i` on: every null entry gets a new context. -/
def fillContexts (i : ℕ) :
    List (Option ℕ) → List (FdContext Sched Fn Fb) →
      List (Option ℕ) × List (FdContext Sched Fn Fb)
  | [], heap => ([], heap)
  | some p :: rest, heap =>
    let r := fillContexts (i + 1) rest heap
    (some p :: r.1, r.2)
  | none :: rest, heap =>
    let r := fillContexts (i + 1) rest (heap ++ [{ fd := toInt i }])
    (some heap.length :: r.1, r.2)

/-- `IOManager::contextResize`. `table` is `m_fdContexts`; a pointer is a position in `heap`, the
contexts in order of creation. -/
def contextResize (size : ℕ) (table : List (Option ℕ)) (heap : List (FdContext Sched Fn Fb)) :
    List (Option ℕ) × List (FdContext Sched Fn Fb) :=
  fillContexts 0 (table.take size ++ List.replicate (size - table.length) none) heap

end Table

end IOManager

end Wille
